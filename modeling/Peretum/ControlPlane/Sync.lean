import Peretum.Config
import Peretum.Cluster.Stream

/-!
# Publishing the config directory

`configPublisher.syncAll` loads the directory, publishes an event for every
hostname that is new or changed since the last successful sync, then a deletion
for every hostname that is gone, and stops at the first publish that fails. The
publisher remembers what it published in `byName`, which does not survive the
process. This file embeds one call and says what it leaves in the stream.
-/

namespace Peretum.ControlPlane

open Go Config Cluster

variable {R : Type}

/-- The order in which the range loops of one call visit a map. -/
structure RangeOrder where
  visit : Map Str Str → List (Sigma fun _ : Str => Str)
  perm : ∀ m, (visit m).Perm m.entries

/-- The order of the entries themselves. -/
def RangeOrder.entries : RangeOrder := ⟨fun m => m.entries, fun _ => .refl _⟩

/-- What comes back from one publish. -/
inductive PublishOutcome where
  /-- The event is stored and acknowledged. -/
  | acked
  /-- The publish fails and the event is not stored. -/
  | rejected
  /-- The event is stored and its acknowledgement is lost. -/
  | unacknowledged
  deriving DecidableEq, Repr

/-- The errors of `syncAll`. -/
inductive SyncError where
  | load (e : LoadError)
  | marshal (serverName : Str)
  | publish (serverName : Str)
  deriving DecidableEq, Repr

/-- The map `next` of `syncAll`: later targets win. -/
def nextMap (codec : Codec R) : List (TargetConfig R) → Map Str Str → Except SyncError (Map Str Str)
  | [], next => .ok next
  | t :: targets, next =>
      match codec.marshalJSON t with
      | none => .error (.marshal t.serverName)
      | some data => nextMap codec targets (t.names.foldl (fun m name => m.insert name data) next)

/-- The events of one call: changed hostnames first, then those that are gone. -/
def plan (order : RangeOrder) (byName next : Map Str Str) : List TargetEvent :=
  ((order.visit next).filter (fun e => byName.lookup e.1 ≠ some e.2)).map
      (fun e => .upsert e.1 e.2) ++
    ((order.visit byName).filter (fun e => next.lookup e.1 = none)).map (fun e => .tombstone e.1)

/-- The publishing loops: the events that reach the stream and the hostname of the
one that failed. The outcomes are numbered from the current event on. -/
def publishAll : List TargetEvent → (Nat → PublishOutcome) → List TargetEvent × Option Str
  | [], _ => ([], none)
  | e :: events, outcome =>
      match outcome 0 with
      | .acked =>
          let (stored, failed) := publishAll events (fun i => outcome (i + 1))
          (e :: stored, failed)
      | .rejected => ([], some e.serverName)
      | .unacknowledged => ([e], some e.serverName)

/-- The outcome of a call. -/
structure SyncResult where
  result : Except SyncError Unit
  /-- The publisher's memory after the call. -/
  byName : Map Str Str
  /-- The events that reached the stream, in order. -/
  stored : List TargetEvent

/-- `syncAll` once `LoadTargets` has returned. -/
def syncLoaded (codec : Codec R) (order : RangeOrder) (outcome : Nat → PublishOutcome)
    (load : Except LoadError (List (TargetConfig R))) (byName : Map Str Str) : SyncResult :=
  match load with
  | .error e => ⟨.error (.load e), byName, []⟩
  | .ok targets =>
      match nextMap codec targets ∅ with
      | .error e => ⟨.error e, byName, []⟩
      | .ok next =>
          match publishAll (plan order byName next) outcome with
          | (stored, none) => ⟨.ok (), next, stored⟩
          | (stored, some name) => ⟨.error (.publish name), byName, stored⟩

/-- `configPublisher.syncAll`. -/
def syncAll (codec : Codec R) (order : RangeOrder) (outcome : Nat → PublishOutcome)
    (dir : Directory) (byName : Map Str Str) : SyncResult :=
  syncLoaded codec order outcome (loadTargets codec dir) byName

/-- What `LoadTargets` returns after its loop. -/
def loaded : List (TargetConfig R) → Except LoadError (List (TargetConfig R))
  | [] => .error .noTargetFiles
  | t :: targets => .ok (t :: targets)

/-- `LoadTargets` returns what its loop has found. -/
theorem loadTargets_eq_loaded {codec : Codec R} {files : List DirEntry}
    {targets : List (TargetConfig R)} (hload : loadEntries codec files = .ok targets) :
    loadTargets codec (some files) = loaded targets := by
  cases targets <;> simp [loadTargets, hload, loaded]

/-- Every publish is acknowledged. -/
def allAcked (_ : Nat) : PublishOutcome := .acked

/-- The config the directory gives a hostname. -/
def directoryMap (codec : Codec R) (targets : List (TargetConfig R)) (name : Str) : Option Str :=
  (owner targets name).bind codec.marshalJSON

variable {codec : Codec R} {targets : List (TargetConfig R)} {next byName : Map Str Str}
  {order : RangeOrder} {outcome : Nat → PublishOutcome} {dir : Directory}

theorem marshalled_of_nextMap {acc : Map Str Str} (hnext : nextMap codec targets acc = .ok next) :
    ∀ t ∈ targets, ∃ data, codec.marshalJSON t = some data := by
  induction targets generalizing acc with
  | nil => simp
  | cons t targets ih =>
    rw [nextMap] at hnext
    cases hdata : codec.marshalJSON t with
    | none => simp [hdata] at hnext
    | some data =>
      rw [hdata] at hnext
      intro u hu
      rcases List.mem_cons.mp hu with rfl | hmem
      · exact ⟨data, hdata⟩
      · exact ih hnext u hmem

/-- The map `next` holds what the directory gives each hostname. -/
theorem lookup_nextMap {acc : Map Str Str} (hnext : nextMap codec targets acc = .ok next)
    (name : Str) : next.lookup name = (directoryMap codec targets name).or (acc.lookup name) := by
  induction targets generalizing acc with
  | nil =>
    obtain rfl : acc = next := by simpa [nextMap] using hnext
    simp [directoryMap, owner]
  | cons t targets ih =>
    rw [nextMap] at hnext
    cases hdata : codec.marshalJSON t with
    | none => simp [hdata] at hnext
    | some data =>
      rw [hdata] at hnext
      rw [ih hnext, Map.lookup_foldl_insert_const, directoryMap, directoryMap, owner_cons]
      cases howner : owner targets name with
      | none =>
        by_cases hname : name ∈ t.names
        · simp [hname, hdata]
        · simp [hname]
      | some u =>
        obtain ⟨v, hv⟩ := marshalled_of_nextMap hnext u (mem_of_owner howner).1
        simp [hv]

/-- An event of the plan gives its hostname the wanted config, which is not the
remembered one. -/
theorem mem_plan {e : TargetEvent} (he : e ∈ plan order byName next) :
    e.value = next.lookup e.serverName ∧ next.lookup e.serverName ≠ byName.lookup e.serverName := by
  rcases List.mem_append.mp he with hup | hdown
  · obtain ⟨⟨name, data⟩, hentry, rfl⟩ := List.mem_map.mp hup
    obtain ⟨hvisit, hchanged⟩ := List.mem_filter.mp hentry
    have hlookup : next.lookup name = some data :=
      AList.mem_lookup_iff.mpr ((order.perm next).subset hvisit)
    refine ⟨hlookup.symm, ?_⟩
    intro heq
    have hsame : byName.lookup name = some data := heq.symm.trans hlookup
    simp [hsame] at hchanged
  · obtain ⟨⟨name, data⟩, hentry, rfl⟩ := List.mem_map.mp hdown
    obtain ⟨hvisit, hgone⟩ := List.mem_filter.mp hentry
    have hlookup : byName.lookup name = some data :=
      AList.mem_lookup_iff.mpr ((order.perm byName).subset hvisit)
    have hnone : next.lookup name = none := by simpa using hgone
    exact ⟨hnone.symm, by
      change next.lookup name ≠ byName.lookup name
      simp [hnone, hlookup]⟩

theorem plain_of_mem_plan {e : TargetEvent} (he : e ∈ plan order byName next) : e.Plain := by
  rcases List.mem_append.mp he with hup | hdown
  · obtain ⟨⟨name, data⟩, -, rfl⟩ := List.mem_map.mp hup
    exact .inr ⟨data, rfl⟩
  · obtain ⟨⟨name, data⟩, -, rfl⟩ := List.mem_map.mp hdown
    exact .inl rfl

/-- The plan has an event for every hostname whose config changed. -/
theorem exists_mem_plan (order : RangeOrder) {name : Str}
    (hchanged : next.lookup name ≠ byName.lookup name) :
    ∃ e ∈ plan order byName next, e.serverName = name := by
  cases hnext : next.lookup name with
  | some data =>
    have hentry : ⟨name, data⟩ ∈ order.visit next :=
      (order.perm next).symm.subset (AList.mem_lookup_iff.mp hnext)
    have hdiff : byName.lookup name ≠ some data := fun h => hchanged (hnext.trans h.symm)
    refine ⟨.upsert name data, List.mem_append_left _ ?_, rfl⟩
    exact List.mem_map.mpr ⟨⟨name, data⟩, List.mem_filter.mpr ⟨hentry, by simpa using hdiff⟩, rfl⟩
  | none =>
    obtain ⟨data, hdata⟩ : ∃ data, byName.lookup name = some data := by
      rw [hnext] at hchanged
      exact Option.ne_none_iff_exists'.mp hchanged.symm
    have hentry : ⟨name, data⟩ ∈ order.visit byName :=
      (order.perm byName).symm.subset (AList.mem_lookup_iff.mp hdata)
    refine ⟨.tombstone name, List.mem_append_right _ ?_, rfl⟩
    exact List.mem_map.mpr ⟨⟨name, data⟩, List.mem_filter.mpr ⟨hentry, by simpa using hnext⟩, rfl⟩

/-- The plan has no event for exactly the hostnames whose config did not change. -/
theorem lastFor_plan_eq_none_iff (order : RangeOrder) (byName next : Map Str Str) (name : Str) :
    Stream.lastFor (plan order byName next) name = none ↔
      next.lookup name = byName.lookup name := by
  rw [Stream.lastFor_eq_none]
  constructor
  · intro hnone
    by_contra hchanged
    obtain ⟨e, he, hname⟩ := exists_mem_plan order hchanged
    exact hnone e he hname
  · rintro hsame e he rfl
    exact (mem_plan he).2 hsame

/-- Publishing the whole plan gives every hostname its wanted config, except that
hostnames whose config did not change keep what the stream has for them. -/
theorem live_storeAll_plan (order : RangeOrder) (byName next : Map Str Str) (stream : Stream)
    (name : Str) :
    Stream.live (Stream.storeAll stream (plan order byName next)) (targetSubject name) =
      if next.lookup name = byName.lookup name then Stream.live stream (targetSubject name)
      else next.lookup name := by
  rw [Stream.live_storeAll]
  cases hlast : Stream.lastFor (plan order byName next) name with
  | none => simp [(lastFor_plan_eq_none_iff order byName next name).mp hlast]
  | some e =>
    obtain ⟨hmem, rfl⟩ := Stream.mem_of_lastFor hlast
    obtain ⟨hvalue, hchanged⟩ := mem_plan hmem
    simp [hchanged, hvalue]

theorem stored_of_publishAll_ok {events : List TargetEvent}
    (hok : (publishAll events outcome).2 = none) : (publishAll events outcome).1 = events := by
  induction events generalizing outcome with
  | nil => rfl
  | cons e events ih =>
    rw [publishAll] at hok ⊢
    cases houtcome : outcome 0 with
    | acked =>
      rw [houtcome] at hok
      exact congrArg (e :: ·) (ih hok)
    | rejected | unacknowledged => simp [houtcome] at hok

/-- A loop whose publishes are all acknowledged fails nowhere. -/
theorem publishAll_allAcked (events : List TargetEvent) :
    publishAll events allAcked = (events, none) := by
  induction events with
  | nil => rfl
  | cons e events ih =>
    change (e :: (publishAll events allAcked).1, (publishAll events allAcked).2) = _
    rw [ih]

/-- A successful call has loaded a directory, remembers its map, and has stored the
whole plan. -/
theorem exists_of_syncAll_ok (hok : (syncAll codec order outcome dir byName).result = .ok ()) :
    ∃ targets next, loadTargets codec dir = .ok targets ∧ nextMap codec targets ∅ = .ok next ∧
      (syncAll codec order outcome dir byName).byName = next ∧
      (syncAll codec order outcome dir byName).stored = plan order byName next := by
  unfold syncAll syncLoaded at hok ⊢
  cases hload : loadTargets codec dir with
  | error e => simp [hload] at hok
  | ok targets =>
    cases hnext : nextMap codec targets ∅ with
    | error e => simp [hload, hnext] at hok
    | ok next =>
      cases hpublish : publishAll (plan order byName next) outcome with
      | mk stored failed =>
        cases failed with
        | some name => simp [hload, hnext, hpublish] at hok
        | none =>
          have hstored : (publishAll (plan order byName next) outcome).1 =
              plan order byName next := stored_of_publishAll_ok (by rw [hpublish])
          exact ⟨targets, next, rfl, hnext, by simp [hnext, hpublish],
            by simpa [hnext, hpublish] using hstored⟩

theorem lookup_byName_of_syncAll_ok (hload : loadTargets codec dir = .ok targets)
    (hok : (syncAll codec order outcome dir byName).result = .ok ()) (name : Str) :
    (syncAll codec order outcome dir byName).byName.lookup name =
      directoryMap codec targets name := by
  obtain ⟨targets', next, hload', hnext, hbyName, -⟩ := exists_of_syncAll_ok hok
  obtain rfl : targets = targets' := by simpa [hload] using hload'
  rw [hbyName]
  simpa using lookup_nextMap hnext name

/-- A successful call has no event for exactly the hostnames with the same config in
the memory and the directory. -/
theorem lastFor_stored_eq_none_iff (hload : loadTargets codec dir = .ok targets)
    (hok : (syncAll codec order outcome dir byName).result = .ok ()) (name : Str) :
    Stream.lastFor (syncAll codec order outcome dir byName).stored name = none ↔
      directoryMap codec targets name = byName.lookup name := by
  obtain ⟨-, next, -, -, hbyName, hstored⟩ := exists_of_syncAll_ok hok
  rw [hstored, lastFor_plan_eq_none_iff, ← hbyName, lookup_byName_of_syncAll_ok hload hok]

/-- A successful call gives every hostname its config in the directory, except that
hostnames whose config the memory has already keep what the stream has for them. -/
theorem live_storeAll_of_syncAll_ok (hload : loadTargets codec dir = .ok targets)
    (hok : (syncAll codec order outcome dir byName).result = .ok ()) (stream : Stream)
    (name : Str) :
    Stream.live (Stream.storeAll stream (syncAll codec order outcome dir byName).stored)
        (targetSubject name) =
      if directoryMap codec targets name = byName.lookup name then
        Stream.live stream (targetSubject name)
      else directoryMap codec targets name := by
  obtain ⟨-, next, -, -, hbyName, hstored⟩ := exists_of_syncAll_ok hok
  rw [hstored, live_storeAll_plan, ← hbyName, lookup_byName_of_syncAll_ok hload hok]

/-- A successful call leaves without a config exactly the hostnames no target claims. -/
theorem directoryMap_eq_none_iff (hload : loadTargets codec dir = .ok targets)
    (hok : (syncAll codec order outcome dir byName).result = .ok ()) (name : Str) :
    directoryMap codec targets name = none ↔ ¬ ∃ t ∈ targets, name ∈ t.names := by
  obtain ⟨targets', next, hload', hnext, -, -⟩ := exists_of_syncAll_ok hok
  obtain rfl : targets = targets' := by simpa [hload] using hload'
  rw [← owner_isSome_iff, directoryMap]
  cases howner : owner targets name with
  | none => simp
  | some t =>
    obtain ⟨data, hdata⟩ := marshalled_of_nextMap hnext t (mem_of_owner howner).1
    simp [hdata]

/-- A failed call leaves the publisher's memory as it was. -/
theorem byName_of_syncAll_error {e : SyncError}
    (herror : (syncAll codec order outcome dir byName).result = .error e) :
    (syncAll codec order outcome dir byName).byName = byName := by
  unfold syncAll syncLoaded at herror ⊢
  split
  · rfl
  · split
    · rfl
    · split
      · simp_all
      · rfl

end Peretum.ControlPlane
