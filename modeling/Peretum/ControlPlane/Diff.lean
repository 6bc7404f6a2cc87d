import Peretum.ControlPlane.Reconcile

/-!
# The events of one sync

A sync over the memory of an earlier one should publish the difference of the two
directories and nothing else: an upsert for every hostname that is new or whose
config changed, and a deletion for every hostname that is gone. The loader in
front of it refuses a directory without target files, so the removal of the last
target is never published. This file shows that this is the only exception.
-/

namespace Peretum.Config

variable {R : Type}

/-- The directory can be read, and its target files decode to these targets. -/
def Holds (codec : Codec R) (dir : Directory) (targets : List (TargetConfig R)) : Prop :=
  ∃ entries, dir = some entries ∧
    List.Forall₂ (fun entry t => entry.contents.bind codec.unmarshalYAML = some t)
      (entries.filter isTargetFile) targets

variable {codec : Codec R}

theorem loadTarget_eq_ok {entry : DirEntry} {t : TargetConfig R}
    (hdecode : entry.contents.bind codec.unmarshalYAML = some t) :
    loadTarget codec entry = .ok t := by
  obtain ⟨data, hdata, ht⟩ := Option.bind_eq_some_iff.mp hdecode
  simp [loadTarget, hdata, ht]

theorem loadEntries_eq_ok {entries : List DirEntry} {targets : List (TargetConfig R)}
    (hdecode : List.Forall₂ (fun entry t => entry.contents.bind codec.unmarshalYAML = some t)
      (entries.filter isTargetFile) targets) : loadEntries codec entries = .ok targets := by
  induction entries generalizing targets with
  | nil =>
    cases hdecode
    rfl
  | cons entry entries ih =>
    rw [loadEntries]
    by_cases hfile : isTargetFile entry = true
    · rw [List.filter_cons_of_pos hfile] at hdecode
      cases hdecode with
      | cons hhead htail => simp [hfile, loadTarget_eq_ok hhead, ih htail]
    · rw [List.filter_cons_of_neg hfile] at hdecode
      simp [hfile, ih hdecode]

theorem Holds.loadTargets_eq {dir : Directory} {targets : List (TargetConfig R)}
    (hdir : Holds codec dir targets) :
    loadTargets codec dir = if targets = [] then .error .noTargetFiles else .ok targets := by
  obtain ⟨entries, rfl, hdecode⟩ := hdir
  rw [loadTargets, loadEntries_eq_ok hdecode]
  cases targets <;> rfl

end Peretum.Config

namespace Peretum.ControlPlane

open Go Config Cluster

variable {R : Type}

/-- The events are the difference of two lists of targets. -/
structure DiffExact (codec : Codec R) (before after : List (TargetConfig R))
    (events : List TargetEvent) : Prop where
  once : (events.map TargetEvent.serverName).Nodup
  /-- There is an upsert for each hostname that is new or whose config changed. -/
  upserts : ∀ name data, TargetEvent.upsert name data ∈ events ↔
    ∃ t, owner after name = some t ∧ owner before name ≠ some t ∧ codec.marshalJSON t = some data
  tombstones : ∀ name, TargetEvent.tombstone name ∈ events ↔
    (∃ t ∈ before, name ∈ t.names) ∧ ¬ ∃ t ∈ after, name ∈ t.names
  plain : ∀ e ∈ events, e.Plain

/-- A sync of a directory over the memory another call leaves; its publishes succeed. -/
def syncAfter (codec : Codec R) (first : SyncResult) (order : RangeOrder) (dir : Directory) :
    SyncResult :=
  syncAll codec order allAcked dir first.byName

variable {codec : Codec R} {byName next : Map Str Str}

theorem exists_nextMap {targets : List (TargetConfig R)}
    (hmarshal : ∀ t ∈ targets, (codec.marshalJSON t).isSome) (acc : Map Str Str) :
    ∃ next, nextMap codec targets acc = .ok next := by
  induction targets generalizing acc with
  | nil => exact ⟨acc, rfl⟩
  | cons t targets ih =>
    obtain ⟨data, hdata⟩ := Option.isSome_iff_exists.mp (hmarshal t List.mem_cons_self)
    rw [nextMap, hdata]
    exact ih (fun u hu => hmarshal u (List.mem_cons_of_mem t hu)) _

theorem upsert_mem_plan_iff {order : RangeOrder} {name data : Str} :
    .upsert name data ∈ plan order byName next ↔
      next.lookup name = some data ∧ byName.lookup name ≠ some data := by
  constructor
  · intro hmem
    obtain ⟨hvalue, hchanged⟩ := mem_plan hmem
    have hnext : next.lookup name = some data := hvalue.symm
    refine ⟨hnext, fun hsame => hchanged ?_⟩
    exact hnext.trans hsame.symm
  · rintro ⟨hnext, hchanged⟩
    have hdiffers : next.lookup name ≠ byName.lookup name := by
      rw [hnext]
      exact hchanged.symm
    obtain ⟨e, hmem, rfl⟩ := exists_mem_plan order hdiffers
    rwa [(plain_of_mem_plan hmem).eq_upsert ((mem_plan hmem).1.trans hnext)] at hmem

theorem tombstone_mem_plan_iff {order : RangeOrder} {name : Str} :
    .tombstone name ∈ plan order byName next ↔
      (byName.lookup name).isSome ∧ next.lookup name = none := by
  constructor
  · intro hmem
    obtain ⟨hvalue, hchanged⟩ := mem_plan hmem
    have hnext : next.lookup name = none := hvalue.symm
    refine ⟨Option.isSome_iff_ne_none.mpr fun hnone => hchanged ?_, hnext⟩
    exact hnext.trans hnone.symm
  · rintro ⟨hsome, hnext⟩
    have hdiffers : next.lookup name ≠ byName.lookup name := by
      rw [hnext]
      exact (Option.isSome_iff_ne_none.mp hsome).symm
    obtain ⟨e, hmem, rfl⟩ := exists_mem_plan order hdiffers
    rwa [(plain_of_mem_plan hmem).eq_tombstone ((mem_plan hmem).1.trans hnext)] at hmem

theorem nodup_serverName_plan (order : RangeOrder) (byName next : Map Str Str) :
    ((plan order byName next).map TargetEvent.serverName).Nodup := by
  have hkeys : ∀ m : Map Str Str, ((order.visit m).map Sigma.fst).Nodup := fun m =>
    ((order.perm m).map Sigma.fst).nodup_iff.mpr m.nodupKeys
  unfold plan
  rw [List.map_append, List.map_map, List.map_map, List.nodup_append]
  refine ⟨(hkeys next).sublist (List.filter_sublist.map _),
    (hkeys byName).sublist (List.filter_sublist.map _), ?_⟩
  -- The first loop publishes keys of `next`, the second only hostnames it lacks.
  intro name hname other hother hsame
  obtain ⟨⟨up, data⟩, hup, rfl⟩ := List.mem_map.mp hname
  obtain ⟨⟨down, _⟩, hdown, rfl⟩ := List.mem_map.mp hother
  obtain rfl : up = down := hsame
  have hlookup := AList.mem_lookup_iff.mpr ((order.perm next).subset (List.mem_filter.mp hup).1)
  have hgone := (List.mem_filter.mp hdown).2
  rw [Option.mem_def] at hlookup
  simp [hlookup] at hgone

theorem directoryMap_isSome_iff {targets : List (TargetConfig R)}
    (hmarshal : ∀ t ∈ targets, (codec.marshalJSON t).isSome) (name : Str) :
    (directoryMap codec targets name).isSome ↔ ∃ t ∈ targets, name ∈ t.names := by
  rw [← owner_isSome_iff, directoryMap]
  cases howner : owner targets name with
  | none => simp
  | some t => simpa using hmarshal t (mem_of_owner howner).1

/-- The plan of a sync is the difference of the directories, when JSON tells their configs
apart. -/
theorem diffExact_plan {before after : List (TargetConfig R)}
    (hjson : ∀ t ∈ before ++ after, ∀ data, codec.marshalJSON t = some data →
      codec.unmarshalJSON data = some t)
    (hbefore : ∀ t ∈ before, (codec.marshalJSON t).isSome)
    (hafter : ∀ t ∈ after, (codec.marshalJSON t).isSome)
    (hbyName : ∀ name, byName.lookup name = directoryMap codec before name)
    (hnext : ∀ name, next.lookup name = directoryMap codec after name) (order : RangeOrder) :
    DiffExact codec before after (plan order byName next) := by
  refine ⟨nodup_serverName_plan order byName next, ?_, ?_, fun e he => plain_of_mem_plan he⟩
  · intro name data
    rw [upsert_mem_plan_iff, hnext, hbyName]
    constructor
    · rintro ⟨hdata, hchanged⟩
      obtain ⟨t, howner, ht⟩ := Option.bind_eq_some_iff.mp hdata
      refine ⟨t, howner, ?_, ht⟩
      intro hsame
      exact hchanged (Option.bind_eq_some_iff.mpr ⟨t, hsame, ht⟩)
    · rintro ⟨t, howner, hchanged, ht⟩
      refine ⟨Option.bind_eq_some_iff.mpr ⟨t, howner, ht⟩, ?_⟩
      intro hsame
      obtain ⟨u, hu, hdata⟩ := Option.bind_eq_some_iff.mp hsame
      have hreads := hjson u (List.mem_append_left _ (mem_of_owner hu).1) data hdata
      have heq : some u = some t := hreads.symm.trans
        (hjson t (List.mem_append_right _ (mem_of_owner howner).1) data ht)
      exact hchanged (hu.trans heq)
  · intro name
    rw [tombstone_mem_plan_iff, hnext, hbyName, directoryMap_isSome_iff hbefore,
      ← directoryMap_isSome_iff hafter]
    simp

/-- Over the memory of a successful sync of one directory, a sync of another whose
publishes all succeed returns nil and publishes exactly the difference if and only
if the second directory has a target file and its targets can be marshalled. -/
theorem syncAll_diffExact_iff {codec : Codec R}
    {dir₁ dir₂ : Directory} {before after : List (TargetConfig R)}
    (hjson : ∀ t ∈ before ++ after, ∀ data, codec.marshalJSON t = some data →
      codec.unmarshalJSON data = some t)
    (hdir₁ : Holds codec dir₁ before) (hdir₂ : Holds codec dir₂ after)
    {order₁ : RangeOrder} {outcome : Nat → PublishOutcome} {byName : Map Str Str}
    (hok : (syncAll codec order₁ outcome dir₁ byName).result = .ok ()) (order₂ : RangeOrder) :
    ((syncAfter codec (syncAll codec order₁ outcome dir₁ byName) order₂ dir₂).result = .ok () ∧
      DiffExact codec before after
        (syncAfter codec (syncAll codec order₁ outcome dir₁ byName) order₂ dir₂).stored) ↔
    after ≠ [] ∧ ∀ t ∈ after, (codec.marshalJSON t).isSome := by
  set memory := (syncAll codec order₁ outcome dir₁ byName).byName with hmemory
  obtain ⟨targets, next, hload, hnext, -, -⟩ := exists_of_syncAll_ok hok
  have hload₁ := hdir₁.loadTargets_eq
  obtain rfl : before = targets := by
    rw [hload₁] at hload
    split at hload
    · cases hload
    · exact Except.ok.inj hload
  have hbefore : ∀ t ∈ before, (codec.marshalJSON t).isSome := fun t ht =>
    Option.isSome_iff_exists.mpr (marshalled_of_nextMap hnext t ht)
  have hbyName : ∀ name, memory.lookup name = directoryMap codec before name :=
    lookup_byName_of_syncAll_ok hload hok
  have hload₂ := hdir₂.loadTargets_eq
  constructor
  · rintro ⟨hresult, -⟩
    obtain ⟨targets, next, hload, hnext, -, -⟩ := exists_of_syncAll_ok hresult
    rw [hload₂] at hload
    split at hload
    · cases hload
    · next hne =>
      obtain rfl := Except.ok.inj hload
      exact ⟨hne, fun t ht => Option.isSome_iff_exists.mpr (marshalled_of_nextMap hnext t ht)⟩
  · rintro ⟨hne, hafter⟩
    rw [if_neg hne] at hload₂
    obtain ⟨next, hnext⟩ := exists_nextMap hafter ∅
    have hsync : syncAfter codec (syncAll codec order₁ outcome dir₁ byName) order₂ dir₂ =
        ⟨.ok (), next, plan order₂ memory next⟩ := by
      rw [syncAfter, ← hmemory]
      simp [syncAll, syncLoaded, hload₂, hnext, publishAll_allAcked]
    have hdirectory : ∀ name, next.lookup name = directoryMap codec after name := fun name => by
      simpa using lookup_nextMap hnext name
    rw [hsync]
    exact ⟨rfl, diffExact_plan hjson hbefore hafter hbyName hdirectory order₂⟩

/-- A directory with one target. -/
def oneTarget (serverName : String) : Directory := some [targetFile "a.yaml" serverName]

def firstSync : SyncResult := syncAll nameCodec .entries allAcked (oneTarget "a.example") ∅

/-- Removing the last target file makes the sync fail, and the deletion of its
hostname is not published. -/
theorem emptied_directory_not_diffExact :
    Holds nameCodec (oneTarget "a.example") [⟨str "a.example", ()⟩] ∧
    Holds nameCodec (some []) [] ∧ firstSync.result = .ok () ∧
    (syncAfter nameCodec firstSync .entries (some [])).result = .error (.load .noTargetFiles) ∧
    ¬ DiffExact nameCodec [⟨str "a.example", ()⟩] []
      (syncAfter nameCodec firstSync .entries (some [])).stored := by
  refine ⟨⟨_, rfl, .cons rfl .nil⟩, ⟨_, rfl, .nil⟩, rfl, rfl, ?_⟩
  intro hexact
  have hmem := (hexact.tombstones (str "a.example")).mpr
    ⟨⟨⟨str "a.example", ()⟩, List.mem_singleton_self _, by decide⟩, by simp⟩
  exact absurd hmem List.not_mem_nil

theorem holds_twoTargets (first second : String) :
    Holds nameCodec (twoTargets first second) [⟨str first, ()⟩, ⟨str second, ()⟩] :=
  ⟨_, rfl, .cons rfl (.cons rfl .nil)⟩

/-- The sync of a directory with three hostnames. -/
def fullSync : SyncResult :=
  syncAll nameCodec .entries allAcked (twoTargets "a.example,b.example" "d.example") ∅

/-- A hostname moves from one file to another, one goes and one is new. -/
theorem moved_hostname_diffExact :
    (syncAfter nameCodec fullSync .entries (twoTargets "a.example" "b.example,c.example")).result =
      .ok () ∧
    DiffExact nameCodec [⟨str "a.example,b.example", ()⟩, ⟨str "d.example", ()⟩]
      [⟨str "a.example", ()⟩, ⟨str "b.example,c.example", ()⟩]
      (syncAfter nameCodec fullSync .entries
        (twoTargets "a.example" "b.example,c.example")).stored :=
  (syncAll_diffExact_iff (fun t _ data h => by cases h; rfl) (holds_twoTargets _ _)
    (holds_twoTargets _ _) rfl .entries).mpr ⟨by simp, fun _ _ => rfl⟩

end Peretum.ControlPlane
