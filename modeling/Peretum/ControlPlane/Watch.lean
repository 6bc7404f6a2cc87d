import Peretum.ControlPlane.HalfWritten

/-!
# Watching the config directory

`Run` publishes the directory once and then watches it. The loop of `watchConfigDir`
takes the events of the file system one by one; an event of a target file marks the
state dirty and sets the timer back, and when the timer expires the directory is
published again. Files may change at any time, also between two reads of one sync.
This file embeds the directory, the queue of events, the loop with its timer and the
steps of a sync as one system. A publisher with nothing left to do has published the
directory as it is, unless the last change gave no event.
-/

namespace Peretum.ControlPlane

open Go Config Cluster

variable {R : Type}

instance decidableEqDirEntry : DecidableEq DirEntry := fun a b =>
  decidable_of_iff (a.name = b.name ∧ a.isDir = b.isDir ∧ a.contents = b.contents) (by
    cases a; cases b; simp)

/-- An event of `fsnotify`: an entry of the directory and the bits of `fsnotify.Op`. -/
structure FsEvent where
  name : Str
  op : UInt32
  deriving DecidableEq

/-- The bits `Create`, `Write`, `Remove` and `Rename`. -/
def changeOps : UInt32 := 0xF

/-- The names the loop looks at. -/
def isTargetName (name : Str) : Bool := fileExt name == str ".yaml" || fileExt name == str ".yml"

/-- The events that mark the state dirty. -/
def FsEvent.relevant (e : FsEvent) : Bool := isTargetName e.name && e.op &&& changeOps != 0

/-- The debounce interval in milliseconds. -/
def debounce : Nat := 500

/-- Where the publisher is. -/
inductive WatchPhase (R : Type) where
  | waiting
  /-- `syncAll` is called and has not read the directory. -/
  | listing
  /-- In the loop of `LoadTargets`: the entries left and the targets so far. -/
  | loading (left : List DirEntry) (targets : List (TargetConfig R))

/-- The directory, the watcher and the publisher. -/
structure Watched (R : Type) where
  /-- The clock in milliseconds. -/
  now : Nat
  files : List DirEntry
  events : List FsEvent
  /-- A target file changed without an event since the directory was last listed. -/
  unnoticed : Bool
  /-- `watcher.Add` has returned. -/
  added : Bool
  phase : WatchPhase R
  dirty : Bool
  timer : Option Nat
  /-- What the last sync returned. -/
  result : Option (Except SyncError Unit)
  published : Published

/-- `Run` calls `syncAll` before it watches the directory. -/
def Watched.start (files : List DirEntry) : Watched R :=
  ⟨0, files, [], false, false, .listing, false, none, none, .init⟩

/-- The steps of the system. -/
inductive WatchAction where
  /-- Time passes. -/
  | pass (ms : Nat)
  /-- An entry is created, written, renamed or removed. There is no event for it when
  the directory is not watched yet or the queue of the kernel overflows. -/
  | change (name : Str) (files : List DirEntry) (op : UInt32) (noticed : Bool)
  /-- The mode of an entry changes. -/
  | chmod (name : Str)
  /-- `watcher.Add` returns. -/
  | add
  /-- The loop takes an event. -/
  | takeEvent
  /-- The loop receives from the channel of the timer. -/
  | takeTimer
  /-- The sync lists the directory. -/
  | readDir (fails : Bool)
  /-- The sync goes on to the next entry, and reads it if it is a target file. -/
  | readFile (fails : Bool)
  | publish (order : RangeOrder) (outcome : Nat → PublishOutcome)

/-- The sync returns to the loop. -/
def Watched.returned (s : Watched R) (r : SyncResult) : Watched R :=
  { s with
    phase := .waiting
    result := some r.result
    published := ⟨r.byName, Stream.storeAll s.published.stream r.stored⟩ }

/-- `LoadTargets` fails; nothing is published in any order. -/
def Watched.failed (codec : Codec R) (s : Watched R) (e : LoadError) : Watched R :=
  s.returned (syncLoaded codec .entries allAcked (.error e) s.published.byName)

/-- One step of the system. -/
def watchStep (codec : Codec R) (s : Watched R) : WatchAction → Option (Watched R)
  | .pass ms => some { s with now := s.now + ms }
  | .change name files op noticed =>
      -- Entries of other names stay as they are.
      if (files.map DirEntry.name).Nodup ∧
          files.filter (fun e => e.name ≠ name) = s.files.filter (fun e => e.name ≠ name) ∧
          op &&& changeOps ≠ 0 then
        if s.added && noticed then
          some { s with files := files, events := s.events ++ [⟨name, op⟩] }
        else some { s with files := files, unnoticed := s.unnoticed || isTargetName name }
      else none
  | .chmod name => some (if s.added then { s with events := s.events ++ [⟨name, 0x10⟩] } else s)
  | .add =>
      match s.phase, s.added, s.result with
      | .waiting, false, some (.ok ()) => some { s with added := true }
      | _, _, _ => none
  | .takeEvent =>
      match s.phase, s.added, s.events with
      | .waiting, true, e :: events =>
          if e.relevant then
            some { s with events := events, dirty := true, timer := some (s.now + debounce) }
          else some { s with events := events }
      | _, _, _ => none
  | .takeTimer =>
      match s.phase, s.added, s.timer with
      | .waiting, true, some deadline =>
          if deadline ≤ s.now then
            if s.dirty then some { s with timer := none, dirty := false, phase := .listing }
            else some { s with timer := none }
          else none
      | _, _, _ => none
  | .readDir fails =>
      match s.phase with
      | .listing =>
          if fails then some (s.failed codec .readDir)
          else some { s with unnoticed := false, phase := .loading s.files [] }
      | _ => none
  | .readFile fails =>
      match s.phase with
      | .loading (entry :: left) targets =>
          if isTargetFile entry then
            let contents := if fails then none else contentsOf s.files entry.name
            match loadTarget codec { entry with contents := contents } with
            | .ok t => some { s with phase := .loading left (targets ++ [t]) }
            | .error e => some (s.failed codec e)
          else some { s with phase := .loading left targets }
      | _ => none
  | .publish order outcome =>
      match s.phase with
      | .loading [] targets =>
          some (s.returned (syncLoaded codec order outcome (loaded targets) s.published.byName))
      | _ => none

/-- No file operation fails and every publish is acknowledged. -/
def NothingFails (_ : Watched R) : WatchAction → Prop
  | .readDir fails => fails = false
  | .readFile fails => fails = false
  | .publish _ outcome => outcome = allAcked
  | _ => True

/-- Nothing fails, and the directory is left alone. -/
def Undisturbed (s : Watched R) : WatchAction → Prop
  | .change .. => False
  | .chmod _ => False
  | a => NothingFails s a

/-- No change went unnoticed or waits for the loop. -/
structure Watched.Clean (s : Watched R) : Prop where
  noticed : s.unnoticed = false
  taken : ∀ e ∈ s.events, e.relevant = false
  settled : s.dirty = false

/-- The publisher waits for an event, and no sync is due. -/
structure Watched.Quiet (s : Watched R) : Prop extends s.Clean where
  added : s.added = true
  waiting : s.phase = .waiting

/-- The entries `LoadTargets` reads. -/
def targetFiles (files : List DirEntry) : List DirEntry := files.filter isTargetFile

variable {codec : Codec R} {s t : Watched R} {files left : List DirEntry}
  {targets : List (TargetConfig R)}

theorem isTargetFile_eq (entry : DirEntry) :
    isTargetFile entry = (!entry.isDir && isTargetName entry.name) := rfl

theorem loadEntries_targetFiles (codec : Codec R) (files : List DirEntry) :
    loadEntries codec (targetFiles files) = loadEntries codec files := by
  induction files with
  | nil => rfl
  | cons entry files ih =>
    by_cases hfile : isTargetFile entry = true
    · simp only [targetFiles, List.filter_cons_of_pos hfile, loadEntries, hfile, if_true]
      rw [show files.filter isTargetFile = targetFiles files from rfl, ih]
    · simp only [targetFiles, List.filter_cons_of_neg hfile, loadEntries, hfile, Bool.false_eq_true,
        if_false]
      exact ih

/-- A change of another name leaves the target files alone. -/
theorem targetFiles_of_same {name : Str} {files' : List DirEntry}
    (hname : isTargetName name = false)
    (hsame : files'.filter (fun e => e.name ≠ name) = files.filter (fun e => e.name ≠ name)) :
    targetFiles files' = targetFiles files := by
  have hsplit : ∀ l : List DirEntry,
      targetFiles l = targetFiles (l.filter fun e => e.name ≠ name) := by
    intro l
    rw [targetFiles, targetFiles, List.filter_filter]
    refine List.filter_congr fun e _ => ?_
    by_cases he : e.name = name
    · simp [isTargetFile_eq, he, hname]
    · simp [he]
  rw [hsplit files', hsame, ← hsplit]

/-- The sync in progress, or else the last one, has read what is in the directory. -/
def Watched.UpToDate (codec : Codec R) (s : Watched R) : Prop :=
  match s.phase with
  | .waiting => ∃ order byName, s.published.byName =
      (syncLoaded codec order allAcked (loadTargets codec (some s.files)) byName).byName
  | .listing => True
  | .loading left targets =>
      loadEntries codec s.files = (loadEntries codec left).map (targets ++ ·) ∧
        targetFiles left ⊆ s.files

/-- What holds in every state. -/
structure Watched.Inv (codec : Codec R) (s : Watched R) : Prop where
  names : (s.files.map DirEntry.name).Nodup
  /-- The timer is running exactly when the state is dirty. -/
  armed : s.timer.isSome = s.dirty
  /-- It expires within the debounce interval. -/
  deadline : ∀ d, s.timer = some d → d ≤ s.now + debounce
  live : ∀ name, Stream.live s.published.stream (targetSubject name) =
    s.published.byName.lookup name
  addressed : Stream.Addressed s.published.stream
  fresh : s.Clean → s.UpToDate codec

theorem Watched.Inv.start (codec : Codec R) (hnames : (files.map DirEntry.name).Nodup) :
    (Watched.start files : Watched R).Inv codec where
  names := hnames
  armed := rfl
  deadline := by simp [Watched.start]
  live := by simp [Watched.start, Published.init, Stream.live]
  addressed := Stream.addressed_empty
  fresh := fun _ => trivial

/-- A sync whose publishes are acknowledged leaves the stream with what it remembers. -/
theorem live_syncLoaded (codec : Codec R) (order : RangeOrder)
    (load : Except LoadError (List (TargetConfig R))) {p : Published}
    (hlive : ∀ name, Stream.live p.stream (targetSubject name) = p.byName.lookup name)
    (name : Str) :
    Stream.live (Stream.storeAll p.stream (syncLoaded codec order allAcked load p.byName).stored)
        (targetSubject name) =
      (syncLoaded codec order allAcked load p.byName).byName.lookup name := by
  unfold syncLoaded
  split
  · exact hlive name
  · split
    · exact hlive name
    · next next _ =>
      rw [publishAll_allAcked]
      rw [live_storeAll_plan, hlive]
      split
      · next hsame => exact hsame.symm
      · rfl

theorem Watched.Inv.returned (hs : s.Inv codec) {order : RangeOrder}
    {load : Except LoadError (List (TargetConfig R))}
    (hload : s.Clean → loadTargets codec (some s.files) = load) :
    (s.returned (syncLoaded codec order allAcked load s.published.byName)).Inv codec where
  names := hs.names
  armed := hs.armed
  deadline := hs.deadline
  live := live_syncLoaded codec order load hs.live
  addressed := hs.addressed.storeAll _
  fresh hclean := ⟨order, s.published.byName, by rw [← hload { hclean with }]; rfl⟩

/-- A change that gives no event the loop looks at touches no target file. -/
theorem Watched.UpToDate.change (hs : s.UpToDate codec) {name : Str}
    (hname : isTargetName name = false)
    (hsame : files.filter (fun e => e.name ≠ name) = s.files.filter (fun e => e.name ≠ name)) :
    ({ s with files := files } : Watched R).UpToDate codec := by
  have hfiles := targetFiles_of_same hname hsame
  have hload : loadEntries codec files = loadEntries codec s.files := by
    rw [← loadEntries_targetFiles, hfiles, loadEntries_targetFiles]
  unfold UpToDate at hs ⊢
  split at hs
  · next hphase =>
    simp only [hphase, loadTargets, hload]
    exact hs
  · next hphase => simp [hphase]
  · next hphase =>
    simp only [hphase, hload]
    refine ⟨hs.1, fun e he => ?_⟩
    -- An entry the sync will read is a target file, and those are the same.
    have hmem : e ∈ targetFiles files := by
      rw [hfiles]
      exact List.mem_filter.mpr ⟨hs.2 he, (List.mem_filter.mp he).2⟩
    exact (List.mem_filter.mp hmem).1

theorem Watched.Inv.change (hs : s.Inv codec) {name : Str} {op : UInt32} {noticed : Bool}
    (hstep : watchStep codec s (.change name files op noticed) = some t) : t.Inv codec := by
  obtain ⟨⟨hnames, hsame, hop⟩, hstep⟩ := Option.ite_none_right_eq_some.mp hstep
  split at hstep
  · cases hstep
    refine { hs with names := hnames, fresh := fun hclean => ?_ }
    have hname : isTargetName name = false := by
      have hirrelevant := hclean.taken ⟨name, op⟩ (List.mem_append_right _ List.mem_cons_self)
      simpa [FsEvent.relevant, hop] using hirrelevant
    have htaken : ∀ e ∈ s.events, e.relevant = false :=
      fun e he => hclean.taken e (List.mem_append_left _ he)
    exact (hs.fresh { hclean with taken := htaken }).change hname hsame
  · cases hstep
    refine { hs with names := hnames, fresh := fun hclean => ?_ }
    obtain ⟨hnoticed, hname⟩ := Bool.or_eq_false_iff.mp hclean.noticed
    exact (hs.fresh { hclean with noticed := hnoticed }).change hname hsame

/-- The next entry of a sync that is up to date is the one in the directory. -/
theorem Watched.Inv.readFile (hs : s.Inv codec)
    (hstep : watchStep codec s (.readFile false) = some t) : t.Inv codec := by
  simp only [watchStep] at hstep
  split at hstep
  · next entry left targets hphase =>
    have hfresh := hs.fresh
    simp only [UpToDate, hphase, loadEntries] at hfresh
    by_cases hfile : isTargetFile entry = true
    · simp only [hfile, if_true, Bool.false_eq_true, if_false] at hstep hfresh
      have hcontents : s.Clean → { entry with contents := contentsOf s.files entry.name } =
        entry := by
        intro hclean
        have hmem : entry ∈ s.files :=
          (hfresh hclean).2 (List.mem_filter.mpr ⟨List.mem_cons_self, hfile⟩)
        rw [contentsOf_of_mem hs.names hmem]
      split at hstep
      · next u hload =>
        cases hstep
        refine { hs with fresh := fun hclean => ?_ }
        obtain ⟨hdone, hsub⟩ := hfresh { hclean with }
        rw [hcontents { hclean with }] at hload
        refine ⟨?_, fun e he => hsub ?_⟩
        · rw [hdone, hload]
          cases loadEntries codec left <;> simp [Except.map]
        · rw [targetFiles, List.filter_cons_of_pos hfile]
          exact List.mem_cons_of_mem _ he
      · next e hload =>
        cases hstep
        refine hs.returned fun hclean => ?_
        rw [hcontents hclean] at hload
        simp [loadTargets, (hfresh hclean).1, hload, Except.map]
    · simp only [hfile, Bool.false_eq_true, if_false] at hstep hfresh
      cases hstep
      refine { hs with fresh := fun hclean => ?_ }
      have hdone := hfresh { hclean with }
      rwa [targetFiles, List.filter_cons_of_neg hfile] at hdone
  · cases hstep

theorem Watched.Inv.step (s : Watched R) (a : WatchAction) (t : Watched R) (hs : s.Inv codec)
    (hguard : NothingFails s a) (hstep : watchStep codec s a = some t) : t.Inv codec := by
  cases a with
  | pass ms =>
    cases hstep
    exact { hs with
      deadline := fun d hd => Nat.le_trans (hs.deadline d hd) (by simp)
      fresh := fun hclean => hs.fresh { hclean with } }
  | change name files op noticed => exact hs.change hstep
  | chmod name =>
    cases hstep
    split
    · exact { hs with
        fresh := fun hclean => hs.fresh
          { hclean with taken := fun e he => hclean.taken e (List.mem_append_left _ he) } }
    · exact hs
  | add =>
    simp only [watchStep] at hstep
    split at hstep
    · cases hstep
      exact { hs with fresh := fun hclean => hs.fresh { hclean with } }
    · cases hstep
  | takeEvent =>
    simp only [watchStep] at hstep
    split at hstep
    · next e events _ _ hevents =>
      split at hstep
      · cases hstep
        exact { hs with
          armed := rfl
          deadline := fun d hd => Nat.le_of_eq (Option.some.inj hd).symm
          fresh := fun hclean => absurd hclean.settled (by simp) }
      · next hother =>
        cases hstep
        refine { hs with fresh := fun hclean => hs.fresh { hclean with taken := ?_ } }
        rw [hevents]
        exact List.forall_mem_cons.mpr ⟨by simpa using hother, hclean.taken⟩
    · cases hstep
  | takeTimer =>
    simp only [watchStep] at hstep
    split at hstep
    · next deadline _ _ htimer =>
      have hdirty : s.dirty = true := by rw [← hs.armed, htimer]; rfl
      split at hstep
      · cases hstep
        exact { hs with armed := rfl, deadline := by simp, fresh := fun _ => trivial }
      · cases hstep
    · cases hstep
  | readDir fails =>
    obtain rfl : fails = false := hguard
    simp only [watchStep] at hstep
    split at hstep
    · cases hstep
      refine { hs with fresh := fun _ => ⟨?_, fun e he => (List.mem_filter.mp he).1⟩ }
      cases loadEntries codec s.files <;> rfl
    · cases hstep
  | readFile fails =>
    obtain rfl : fails = false := hguard
    exact hs.readFile hstep
  | publish order outcome =>
    obtain rfl : outcome = allAcked := hguard
    simp only [watchStep] at hstep
    split at hstep
    · next targets hphase =>
      cases hstep
      refine hs.returned fun hclean => loadTargets_eq_loaded ?_
      have hfresh := hs.fresh hclean
      simp only [UpToDate, hphase] at hfresh
      simpa [loadEntries, Except.map] using hfresh.1
    · cases hstep

theorem result_of_loaded {order : RangeOrder} {dir : Directory} {byName : Map Str Str}
    (hload : loadTargets codec dir = .ok targets)
    (hmarshal : ∀ t ∈ targets, (codec.marshalJSON t).isSome) :
    (syncAll codec order allAcked dir byName).result = .ok () := by
  obtain ⟨next, hnext⟩ := exists_nextMap hmarshal ∅
  simp [syncAll, syncLoaded, hload, hnext, publishAll_allAcked]

theorem Watched.Inv.reconciled (hs : s.Inv codec) (hquiet : s.Quiet)
    (hload : loadTargets codec (some s.files) = .ok targets)
    (hmarshal : ∀ t ∈ targets, (codec.marshalJSON t).isSome) :
    Reconciled codec targets s.published.stream := by
  have hfresh := hs.fresh hquiet.toClean
  simp only [Watched.UpToDate, hquiet.waiting] at hfresh
  obtain ⟨order, byName, hmemory⟩ := hfresh
  rw [reconciled_iff hs.addressed]
  intro name
  rw [hs.live, hmemory]
  exact lookup_byName_of_syncAll_ok hload (result_of_loaded hload hmarshal) name

/-- In every run in which no operation fails, whatever is changed in the directory and
whenever, a publisher that waits for events has the stream reconciled with the
directory, unless a target file changed without an event since the directory was
last listed. -/
theorem reconciled_of_quiet {codec : Codec R} {files : List DirEntry} {s : Watched R}
    (hnames : (files.map DirEntry.name).Nodup)
    (hreach : Runs.Reaches (watchStep codec) NothingFails (Watched.start files) s)
    (hquiet : s.Quiet) {targets : List (TargetConfig R)}
    (hload : loadTargets codec (some s.files) = .ok targets)
    (hmarshal : ∀ t ∈ targets, (codec.marshalJSON t).isSome) :
    Reconciled codec targets s.published.stream :=
  (hreach.invariant Watched.Inv.step (Watched.Inv.start codec hnames)).reconciled hquiet hload
    hmarshal

/-- A file changes after the first sync. -/
def watchSchedule : List WatchAction :=
  [.readDir false, .readFile false, .publish .entries allAcked, .add,
    .change (str "a.yaml") [targetFile "a.yaml" "b.example"] 2 true]

/-- The debounce interval passes and the directory is synced. -/
def settleSchedule : List WatchAction :=
  [.takeEvent, .pass debounce, .takeTimer, .readDir false, .readFile false,
    .publish .entries allAcked]

def watchStart : Watched Unit := .start [targetFile "a.yaml" "a.example"]

/-- The system after the sync of the change. -/
def settledState : Watched Unit :=
  (Runs.exec (watchStep nameCodec) watchStart (watchSchedule ++ settleSchedule)).get rfl

theorem nothingFails_schedule :
    ∀ a ∈ watchSchedule ++ settleSchedule, ∀ s : Watched Unit, NothingFails s a := by
  simp [watchSchedule, settleSchedule, NothingFails]

/-- The change is published and the old hostname is deleted. -/
theorem settledState_reconciled :
    Reconciled nameCodec [⟨str "b.example", ()⟩] settledState.published.stream := by
  have hnames : ([targetFile "a.yaml" "a.example"].map DirEntry.name).Nodup := by decide
  refine reconciled_of_quiet hnames (Runs.reaches_get
    (Runs.admitted_of_forall _ _ nothingFails_schedule)) ⟨⟨rfl, ?_, rfl⟩, rfl, rfl⟩ rfl ?_
  · intro e he
    cases he
  · exact fun t _ => rfl

end Peretum.ControlPlane
