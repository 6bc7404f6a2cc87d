import Mathlib.Logic.Function.Basic
import Peretum.Api.Targets
import Peretum.ControlPlane.Diff

/-!
# Syncs during API calls

The API server and the publisher share the config directory and nothing else.
`os.WriteFile` truncates a file before it writes the new contents, and `LoadTargets`
takes an empty file for a target without hostnames. This file embeds API calls and
syncs as processes over one directory. A sync that does not read a target's file
between these two steps never deletes a hostname the target keeps.
-/

namespace Peretum.ControlPlane

open Go Config Cluster Api

variable {R : Type}

/-- Where a call of `UpdateTarget` or `PatchTarget` is. -/
inductive CallPhase where
  | idle
  /-- The new contents are known, `os.WriteFile` comes next. -/
  | writing (file data : Str)
  | truncated (file data : Str)
  | returned
  deriving DecidableEq

/-- Where the publisher is. -/
inductive SyncPhase (R : Type) where
  | idle
  /-- In the loop of `LoadTargets`: the entries left and the targets so far. -/
  | loading (left : List DirEntry) (targets : List (TargetConfig R))

/-- The directory, the API calls and the publisher. -/
structure Shared (R : Type) where
  /-- The directory in the order `os.ReadDir` lists it. -/
  files : List DirEntry
  calls : Nat → CallPhase
  byName : Map Str Str
  sync : SyncPhase R
  /-- The events that reached the stream, in order. -/
  published : List TargetEvent

/-- The steps of the system. -/
inductive SharedAction (R : Type) where
  /-- A call of `UpdateTarget` starts. -/
  | update (call : Nat) (serverName : Str) (target : TargetConfig R)
  /-- A call of `PatchTarget` starts and reads the file. -/
  | patch (call : Nat) (serverName data : Str)
  /-- `os.WriteFile` truncates the file. -/
  | truncate (call : Nat)
  /-- `os.WriteFile` writes the contents. -/
  | write (call : Nat)
  /-- A sync lists the directory. -/
  | readDir
  /-- The sync goes on to the next entry, and reads it if it is a target file. -/
  | readFile
  | publish (order : RangeOrder) (outcome : Nat → PublishOutcome)

/-- The entry of a name. -/
def entryOf (files : List DirEntry) (name : Str) : Option DirEntry :=
  files.find? (fun e => e.name = name)

/-- What `os.ReadFile` returns for a name. -/
def contentsOf (files : List DirEntry) (name : Str) : Option Str :=
  (entryOf files name).bind DirEntry.contents

/-- The directory after one step of `os.WriteFile` on a name; a new file is listed in
the order of the names. -/
def setContents (files : List DirEntry) (name data : Str) : List DirEntry :=
  if (entryOf files name).isSome then
    files.map fun e => if e.name = name then { e with contents := some data } else e
  else
    files.takeWhile (fun e => decide (e.name < name)) ++ ⟨name, false, some data⟩ ::
      files.dropWhile (fun e => decide (e.name < name))

/-- The phase of a call that knows what to write, or fails. -/
def CallPhase.started : Except TargetError (Str × Str) → CallPhase
  | .ok (file, data) => .writing file data
  | .error _ => .returned

/-- A call goes on. -/
def Shared.goOn (s : Shared R) (call : Nat) (phase : CallPhase) : Shared R :=
  { s with calls := Function.update s.calls call phase }

/-- The end of a sync that has loaded these targets. -/
def Shared.finish (codec : Codec R) (s : Shared R) (order : RangeOrder)
    (outcome : Nat → PublishOutcome) (targets : List (TargetConfig R)) : Shared R :=
  let r := syncLoaded codec order outcome (loaded targets) s.byName
  { s with sync := .idle, byName := r.byName, published := s.published ++ r.stored }

/-- One step of the system. -/
def sharedStep (codec : Codec R) (docs : DocumentCodec) (s : Shared R) :
    SharedAction R → Option (Shared R)
  | .update call serverName target =>
      match s.calls call with
      | .idle => some (s.goOn call (.started (updateTarget codec serverName target)))
      | _ => none
  | .patch call serverName data =>
      match s.calls call with
      | .idle => some (s.goOn call (.started
          (patchTarget docs serverName (contentsOf s.files (filename serverName)) data)))
      | _ => none
  | .truncate call =>
      match s.calls call with
      | .writing file data =>
          -- Opening a directory for writing fails.
          if (entryOf s.files file).any DirEntry.isDir then some (s.goOn call .returned)
          else some { s.goOn call (.truncated file data) with files := setContents s.files file [] }
      | _ => none
  | .write call =>
      match s.calls call with
      | .truncated file data =>
          some { s.goOn call .returned with files := setContents s.files file data }
      | _ => none
  | .readDir =>
      match s.sync with
      | .idle => some { s with sync := .loading s.files [] }
      | _ => none
  | .readFile =>
      match s.sync with
      | .loading (entry :: left) targets =>
          if isTargetFile entry then
            match loadTarget codec { entry with contents := contentsOf s.files entry.name } with
            | .ok t => some { s with sync := .loading left (targets ++ [t]) }
            | .error _ => some { s with sync := .idle }
          else some { s with sync := .loading left targets }
      | _ => none
  | .publish order outcome =>
      match s.sync with
      | .loading [] targets => some (s.finish codec order outcome targets)
      | _ => none

/-- In a directory, `os.ReadFile` on an entry's name reads that entry. -/
theorem contentsOf_of_mem {files : List DirEntry} (hnames : (files.map DirEntry.name).Nodup)
    {entry : DirEntry} (hmem : entry ∈ files) : contentsOf files entry.name = entry.contents := by
  have hentry : entryOf files entry.name = some entry := by
    cases hfind : entryOf files entry.name with
    | none =>
      have hne := List.find?_eq_none.mp hfind entry hmem
      simp at hne
    | some e =>
      have hname : e.name = entry.name := by simpa using List.find?_some hfind
      rw [List.inj_on_of_nodup_map hnames (List.mem_of_find?_eq_some hfind) hmem hname]
  rw [contentsOf, hentry, Option.bind_some]

variable {s t : Shared R} {file name : Str} {codec : Codec R}

/-- The steps of a sync over the entries it has left: it reads one after another until one cannot
be loaded, and publishes after the last. -/
def readSteps (codec : Codec R) (order : RangeOrder) (outcome : Nat → PublishOutcome) :
    List DirEntry → List (SharedAction R)
  | [] => [.publish order outcome]
  | entry :: left =>
      .readFile ::
        if isTargetFile entry && !(loadTarget codec entry).isOk then []
        else readSteps codec order outcome left

/-- The steps of a sync over a directory. -/
def syncSteps (codec : Codec R) (order : RangeOrder) (outcome : Nat → PublishOutcome)
    (files : List DirEntry) : List (SharedAction R) :=
  .readDir :: readSteps codec order outcome files

/-- A sync that nobody disturbs reads the rest of the directory and publishes. -/
theorem exec_readSteps (codec : Codec R) (docs : DocumentCodec) (hsync : s.sync = .idle)
    (hnames : (s.files.map DirEntry.name).Nodup) (order : RangeOrder)
    (outcome : Nat → PublishOutcome) {left : List DirEntry} (hleft : left ⊆ s.files)
    (targets : List (TargetConfig R)) :
    Runs.exec (sharedStep codec docs) { s with sync := .loading left targets }
        (readSteps codec order outcome left) =
      some (match loadEntries codec left with
        | .error _ => s
        | .ok found => s.finish codec order outcome (targets ++ found)) := by
  induction left generalizing targets with
  | nil => simp [Runs.exec, readSteps, sharedStep, loadEntries, Shared.finish]
  | cons entry left ih =>
    obtain ⟨hentry, hrest⟩ := List.cons_subset.mp hleft
    have hcontents := contentsOf_of_mem hnames hentry
    by_cases hfile : isTargetFile entry = true
    · cases hload : loadTarget codec entry with
      | error e =>
        simp [Runs.exec, readSteps, sharedStep, loadEntries, hfile, hcontents, hload, ← hsync,
          Except.isOk, Except.toBool]
      | ok t =>
        simp only [Runs.exec, readSteps, sharedStep, loadEntries, hfile, hcontents, hload, if_true,
          Option.bind_some, Except.isOk, Except.toBool, Bool.not_true, Bool.and_false,
          Bool.false_eq_true, if_false, ih hrest (targets ++ [t])]
        cases loadEntries codec left <;> simp
    · simp only [Runs.exec, readSteps, sharedStep, loadEntries, hfile, Bool.false_and,
        Bool.false_eq_true, if_false, Option.bind_some, ih hrest targets]

/-- The steps of a sync that nobody disturbs have the effect of `syncAll`. -/
theorem exec_syncAll (codec : Codec R) (docs : DocumentCodec) (hsync : s.sync = .idle)
    (hnames : (s.files.map DirEntry.name).Nodup) (order : RangeOrder)
    (outcome : Nat → PublishOutcome) :
    Runs.exec (sharedStep codec docs) s (syncSteps codec order outcome s.files) =
      some { s with
        byName := (syncAll codec order outcome (some s.files) s.byName).byName
        published := s.published ++
          (syncAll codec order outcome (some s.files) s.byName).stored } := by
  have hexec := exec_readSteps codec docs hsync hnames order outcome (List.Subset.refl s.files) []
  obtain ⟨files, calls, byName, sync, published⟩ := s
  obtain rfl : sync = .idle := hsync
  simp only [syncSteps, Runs.exec, sharedStep, Option.bind_some, hexec, List.nil_append]
  cases hload : loadEntries codec files with
  | error e => simp [syncAll, syncLoaded, loadTargets, hload]
  | ok targets =>
    rw [syncAll, loadTargets_eq_loaded hload]
    rfl

/-- File contents that claim a hostname. -/
def Claims (codec : Codec R) (name data : Str) : Prop :=
  ∃ t, codec.unmarshalYAML data = some t ∧ name ∈ t.names

/-- The API calls that write a file leave a hostname to its target. -/
def StillClaimed (codec : Codec R) (file name : Str) (s : Shared R) : SharedAction R → Prop
  | .write call => ∀ data, s.calls call = .truncated file data → Claims codec name data
  | _ => True

/-- In addition, a sync does not read the file while it is truncated. -/
def NotTorn (codec : Codec R) (file name : Str) (s : Shared R) : SharedAction R → Prop
  | .readFile => ∀ entry left targets, s.sync = .loading (entry :: left) targets →
      entry.name = file → contentsOf s.files file ≠ some []
  | a => StillClaimed codec file name s a

theorem contentsOf_setContents (files : List DirEntry) (name data file : Str) :
    contentsOf (setContents files name data) file =
      if file = name then some data else contentsOf files file := by
  unfold contentsOf setContents
  split
  · next hsome =>
    have hname : ∀ e : DirEntry,
        (if e.name = name then { e with contents := some data } else e).name = e.name := by
      intro e
      split <;> rfl
    have hfind : entryOf (files.map fun e =>
          if e.name = name then { e with contents := some data } else e) file =
        (entryOf files file).map fun e =>
          if e.name = name then { e with contents := some data } else e := by
      simp only [entryOf, List.find?_map, Function.comp_def, hname]
    rw [hfind]
    cases hentry : entryOf files file with
    | none =>
      have hne : file ≠ name := by
        rintro rfl
        simp [hentry] at hsome
      simp [hne]
    | some e =>
      have hfile : e.name = file := by simpa using List.find?_some hentry
      by_cases heq : file = name
      · simp [hfile, heq]
      · simp [hfile, heq]
  · next hnone =>
    have habsent : ∀ e ∈ files, e.name ≠ name := by
      simpa [entryOf] using hnone
    unfold entryOf
    by_cases heq : file = name
    · subst heq
      have hbefore : (files.takeWhile fun e => decide (e.name < file)).find?
          (fun e => decide (e.name = file)) = none := by
        rw [List.find?_eq_none]
        intro e he
        simpa using habsent e ((List.takeWhile_sublist _).subset he)
      simp [List.find?_append, hbefore]
    · rw [List.find?_append, List.find?_cons_of_neg (by simpa using Ne.symm heq),
        ← List.find?_append, List.takeWhile_append_dropWhile, if_neg heq]

theorem listed_setContents {files : List DirEntry}
    (hlisted : ∃ e ∈ files, e.name = file ∧ isTargetFile e = true) (name data : Str) :
    ∃ e ∈ setContents files name data, e.name = file ∧ isTargetFile e = true := by
  obtain ⟨e, hmem, hname, htarget⟩ := hlisted
  unfold setContents
  split
  · refine ⟨_, List.mem_map_of_mem hmem, ?_⟩
    split
    · exact ⟨hname, htarget⟩
    · exact ⟨hname, htarget⟩
  · refine ⟨e, ?_, hname, htarget⟩
    rw [← List.takeWhile_append_dropWhile (p := fun e => decide (e.name < name)) (l := files)]
      at hmem
    rcases List.mem_append.mp hmem with hmem | hmem
    · exact List.mem_append_left _ hmem
    · exact List.mem_append_right _ (List.mem_cons_of_mem _ hmem)

theorem mem_of_mem_publishAll {events : List TargetEvent} {outcome : Nat → PublishOutcome}
    {e : TargetEvent} (hmem : e ∈ (publishAll events outcome).1) : e ∈ events := by
  induction events generalizing outcome with
  | nil => exact hmem
  | cons e' events ih =>
    rw [publishAll] at hmem
    cases houtcome : outcome 0 with
    | acked =>
      simp only [houtcome, List.mem_cons] at hmem
      rcases hmem with rfl | hmem
      · exact List.mem_cons_self
      · exact List.mem_cons_of_mem _ (ih hmem)
    | rejected => simp [houtcome] at hmem
    | unacknowledged =>
      obtain rfl : e = e' := by simpa [houtcome] using hmem
      exact List.mem_cons_self

/-- The end of a sync deletes no hostname that one of the targets claims. -/
theorem tombstone_of_finish {codec : Codec R} {s : Shared R} {order : RangeOrder}
    {outcome : Nat → PublishOutcome} {targets : List (TargetConfig R)} {name : Str}
    (hclaimed : ∃ t ∈ targets, name ∈ t.names)
    (hmem : .tombstone name ∈ (s.finish codec order outcome targets).published) :
    .tombstone name ∈ s.published := by
  refine (List.mem_append.mp hmem).resolve_right fun hstored => ?_
  cases targets with
  | nil => cases hstored
  | cons first others =>
    simp only [loaded, syncLoaded] at hstored
    split at hstored
    · cases hstored
    · next next hnext =>
      have hplanned : .tombstone name ∈ plan order s.byName next := by
        split at hstored
        all_goals
          next hpublish =>
          exact mem_of_mem_publishAll (by rwa [hpublish])
      have hgone := (tombstone_mem_plan_iff.mp hplanned).2
      have hsome := (directoryMap_isSome_iff (fun t ht => Option.isSome_iff_exists.mpr
        (marshalled_of_nextMap hnext t ht)) name).mpr hclaimed
      rw [lookup_nextMap hnext name] at hgone
      simp_all

/-- A hostname is safe with the target of a file. -/
structure Kept (codec : Codec R) (file name : Str) (s : Shared R) : Prop where
  listed : ∃ e ∈ s.files, e.name = file ∧ isTargetFile e = true
  contents : ∃ data, contentsOf s.files file = some data ∧ (data = [] ∨ Claims codec name data)
  loading : ∀ left targets, s.sync = .loading left targets →
    (∃ t ∈ targets, name ∈ t.names) ∨ ∃ e ∈ left, e.name = file ∧ isTargetFile e = true
  live : .tombstone name ∉ s.published

theorem Kept.of_same (hs : Kept codec file name s) (hfiles : t.files = s.files)
    (hsync : t.sync = s.sync) (hpublished : t.published = s.published) : Kept codec file name t :=
  ⟨hfiles ▸ hs.listed, hfiles ▸ hs.contents, fun left targets h => hs.loading left targets
    (hsync ▸ h), hpublished ▸ hs.live⟩

/-- Writing a file keeps the hostname safe, if the file is another one or is left
truncated or with a config that claims the hostname. -/
theorem Kept.setContents (hs : Kept codec file name s) {f data : Str}
    (hdata : f = file → data = [] ∨ Claims codec name data)
    (hfiles : t.files = ControlPlane.setContents s.files f data) (hsync : t.sync = s.sync)
    (hpublished : t.published = s.published) : Kept codec file name t := by
  refine ⟨hfiles ▸ listed_setContents hs.listed f data, ?_, fun left targets h =>
    hs.loading left targets (hsync ▸ h), hpublished ▸ hs.live⟩
  rw [hfiles, contentsOf_setContents]
  by_cases hf : file = f
  · exact ⟨data, if_pos hf, hdata hf.symm⟩
  · rw [if_neg hf]
    exact hs.contents

/-- A sync that reads the file, which is not truncated, finds the hostname. -/
theorem Kept.readFile {docs : DocumentCodec} (hs : Kept codec file name s)
    (hwhole : NotTorn codec file name s .readFile)
    (hstep : sharedStep codec docs s .readFile = some t) : Kept codec file name t := by
  cases hsync : s.sync with
  | idle => simp [sharedStep, hsync] at hstep
  | loading left targets =>
    cases left with
    | nil => simp [sharedStep, hsync] at hstep
    | cons entry left =>
      have hloading := hs.loading _ _ hsync
      simp only [sharedStep, hsync] at hstep
      split at hstep
      · next htarget =>
        split at hstep
        · next loaded hload =>
          cases hstep
          refine ⟨hs.listed, hs.contents, ?_, hs.live⟩
          intro left' targets' h
          obtain ⟨rfl, rfl⟩ : left = left' ∧ targets ++ [loaded] = targets' := by simpa using h
          rcases hloading with ⟨u, hu, hname⟩ | ⟨e, he, hfile, hetarget⟩
          · exact .inl ⟨u, List.mem_append_left _ hu, hname⟩
          · rcases List.mem_cons.mp he with rfl | he
            · -- This is the file: what it holds is not empty, so it claims the hostname.
              obtain ⟨data, hdata, hclaims⟩ := hs.contents
              have hne : data ≠ [] := by
                rintro rfl
                exact hwhole e left targets hsync hfile hdata
              obtain ⟨u, hu, hname⟩ := hclaims.resolve_left hne
              have heq : u = loaded := by
                rw [hfile] at hload
                simpa [loadTarget, hdata, hu] using hload
              exact .inl ⟨loaded, List.mem_append_right _ (by simp), heq ▸ hname⟩
            · exact .inr ⟨e, he, hfile, hetarget⟩
        · cases hstep
          refine ⟨hs.listed, hs.contents, ?_, hs.live⟩
          intro left' targets' h
          cases h
      · next hother =>
        cases hstep
        refine ⟨hs.listed, hs.contents, ?_, hs.live⟩
        intro left' targets' h
        obtain ⟨rfl, rfl⟩ : left = left' ∧ targets = targets' := by simpa using h
        rcases hloading with hfound | ⟨e, he, hfile, hetarget⟩
        · exact .inl hfound
        · rcases List.mem_cons.mp he with rfl | he
          · exact absurd hetarget hother
          · exact .inr ⟨e, he, hfile, hetarget⟩

/-- Every step that does not read a truncated file keeps the hostname safe. -/
theorem Kept.step {docs : DocumentCodec} (s : Shared R) (a : SharedAction R) (t : Shared R)
    (hs : Kept codec file name s) (hguard : NotTorn codec file name s a)
    (hstep : sharedStep codec docs s a = some t) : Kept codec file name t := by
  cases a with
  | update call serverName target | patch call serverName data =>
    simp only [sharedStep] at hstep
    split at hstep
    · cases hstep
      exact hs.of_same rfl rfl rfl
    · cases hstep
  | truncate call =>
    simp only [sharedStep] at hstep
    split at hstep
    · split at hstep
      · cases hstep
        exact hs.of_same rfl rfl rfl
      · cases hstep
        exact hs.setContents (fun _ => .inl rfl) rfl rfl rfl
    · cases hstep
  | write call =>
    simp only [sharedStep] at hstep
    split at hstep
    · next f data hcall =>
      cases hstep
      refine hs.setContents (fun hf => .inr ?_) rfl rfl rfl
      subst hf
      exact hguard data hcall
    · cases hstep
  | readDir =>
    simp only [sharedStep] at hstep
    split at hstep
    · cases hstep
      refine ⟨hs.listed, hs.contents, ?_, hs.live⟩
      intro left targets h
      obtain ⟨rfl, -⟩ : s.files = left ∧ [] = targets := by simpa using h
      exact .inr hs.listed
    · cases hstep
  | readFile => exact hs.readFile hguard hstep
  | publish order outcome =>
    simp only [sharedStep] at hstep
    split at hstep
    · next targets hsync =>
      cases hstep
      have hclaimed : ∃ t ∈ targets, name ∈ t.names :=
        (hs.loading _ _ hsync).resolve_right (by simp)
      exact ⟨hs.listed, hs.contents, nofun, fun hmem => hs.live (tombstone_of_finish hclaimed hmem)⟩
    · cases hstep

/-- No sync is under way, nothing is published, and the file claims the hostname. -/
structure Claimed (codec : Codec R) (file name : Str) (s : Shared R) : Prop where
  listed : ∃ e ∈ s.files, e.name = file ∧ isTargetFile e = true
  contents : ∃ data, contentsOf s.files file = some data ∧ Claims codec name data
  idle : s.sync = .idle
  nothing : s.published = []

theorem Claimed.kept (hs : Claimed codec file name s) : Kept codec file name s := by
  obtain ⟨data, hdata, hclaims⟩ := hs.contents
  refine ⟨hs.listed, ⟨data, hdata, .inr hclaims⟩, ?_, ?_⟩
  · intro left targets h
    rw [hs.idle] at h
    cases h
  · rw [hs.nothing]
    exact List.not_mem_nil

/-- If every API call leaves a hostname to the target of a file and no sync reads that
file while it is truncated, no deletion of the hostname is published. -/
theorem tombstone_not_mem_published {codec : Codec R} {docs : DocumentCodec} {file name : Str}
    {s₀ s : Shared R} (hstart : Claimed codec file name s₀)
    (hreach : Runs.Reaches (sharedStep codec docs) (NotTorn codec file name) s₀ s) :
    .tombstone name ∉ s.published :=
  (hreach.invariant Kept.step hstart.kept).live

/-- A decoder of documents that a run without patches does not use. -/
def noDocuments : DocumentCodec := ⟨fun _ => none, fun _ => none⟩

def sharedStart : Shared Unit where
  files := [targetFile "a.example.yaml" "a.example"]
  calls _ := .idle
  byName := ∅
  sync := .idle
  published := []

/-- The first sync of the directory publishes its target. -/
theorem sharedStart_syncAll :
    (Runs.exec (sharedStep nameCodec noDocuments) sharedStart
      (syncSteps nameCodec .entries allAcked sharedStart.files)).map Shared.published =
        some [⟨str "a.example", false, some (str "a.example")⟩] := by
  rw [exec_syncAll nameCodec noDocuments (show sharedStart.sync = .idle from rfl) (by decide)
    .entries allAcked]
  rfl

theorem sharedStart_claimed :
    Claimed nameCodec (str "a.example.yaml") (str "a.example") sharedStart := by
  refine ⟨⟨_, List.mem_cons_self, rfl, by decide⟩, ⟨str "a.example", by decide, ?_⟩, rfl, rfl⟩
  exact ⟨_, rfl, by decide⟩

/-- A target is synced, and then its file is truncated by a call that changes nothing. -/
def tornStart : List (SharedAction Unit) :=
  [.readDir, .readFile, .publish .entries allAcked,
    .update 0 (str "a.example") ⟨str "a.example", ()⟩, .truncate 0]

/-- The next sync runs before the call writes the file. -/
def tornSchedule : List (SharedAction Unit) :=
  tornStart ++ [.readDir, .readFile, .publish .entries allAcked, .write 0]

/-- The next sync runs after the call has written the file. -/
def wholeSchedule : List (SharedAction Unit) :=
  tornStart ++ [.readDir, .write 0, .readFile, .publish .entries allAcked]

/-- The system after the sync that reads the truncated file. -/
def tornState : Shared Unit :=
  (Runs.exec (sharedStep nameCodec noDocuments) sharedStart tornSchedule).get rfl

/-- The system after the sync that reads the whole file. -/
def wholeState : Shared Unit :=
  (Runs.exec (sharedStep nameCodec noDocuments) sharedStart wholeSchedule).get rfl

/-- A call that leaves the hostname to its target makes a sync delete the hostname. -/
theorem tombstone_mem_tornState :
    Claimed nameCodec (str "a.example.yaml") (str "a.example") sharedStart ∧
    Runs.Reaches (sharedStep nameCodec noDocuments)
      (StillClaimed nameCodec (str "a.example.yaml") (str "a.example")) sharedStart tornState ∧
    contentsOf tornState.files (str "a.example.yaml") = some (str "a.example") ∧
    .tombstone (str "a.example") ∈ tornState.published := by
  refine ⟨sharedStart_claimed, Runs.reaches_get ?_, by decide,
    by decide⟩
  refine .cons trivial rfl (.cons trivial rfl (.cons trivial rfl (.cons trivial rfl
    (.cons trivial rfl (.cons trivial rfl (.cons trivial rfl (.cons trivial rfl
    (.cons ?_ rfl trivial))))))))
  intro data hcall
  have hphase : CallPhase.truncated _ (str "a.example") = .truncated _ data := hcall
  obtain rfl := (CallPhase.truncated.inj hphase).2
  exact ⟨_, rfl, by decide⟩

/-- A sync that starts while the file is truncated and reads it afterwards deletes
nothing. -/
theorem tombstone_not_mem_wholeState :
    .tombstone (str "a.example") ∉ wholeState.published := by
  refine tombstone_not_mem_published sharedStart_claimed
    (Runs.reaches_get ?_)
  refine .cons trivial rfl (.cons ?_ rfl (.cons trivial rfl (.cons trivial rfl
    (.cons trivial rfl (.cons trivial rfl (.cons ?_ rfl (.cons ?_ rfl (.cons trivial rfl
    trivial))))))))
  · exact fun _ _ _ _ _ => by decide
  · intro data hcall
    have hphase : CallPhase.truncated _ (str "a.example") = .truncated _ data := hcall
    obtain rfl := (CallPhase.truncated.inj hphase).2
    exact ⟨_, rfl, by decide⟩
  · exact fun _ _ _ _ _ => by decide

end Peretum.ControlPlane
