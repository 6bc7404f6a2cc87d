import Peretum.Runs
import Peretum.ControlPlane.Sync

/-!
# Reconciling the stream with the directory

After a successful sync the stream should hold exactly the configs of the
directory. The publisher compares the directory with its own memory and never
with the stream, so this depends on how the two came apart: the memory is lost
at a restart, and it is not updated by a sync that fails halfway. For both this
file determines exactly which hostnames end up wrong.
-/

namespace Peretum.ControlPlane

open Go Config Cluster

variable {R : Type}

/-- The subjects with a config are those of the hostnames the targets claim, each with the config of
its target. -/
def Reconciled (codec : Codec R) (targets : List (TargetConfig R)) (stream : Stream) : Prop :=
  ∀ subject data, Stream.live stream subject = some data ↔
    ∃ name, subject = targetSubject name ∧ directoryMap codec targets name = some data

variable {codec : Codec R} {targets : List (TargetConfig R)}

/-- On a stream of addressed messages this is a statement about hostnames. -/
theorem reconciled_iff {stream : Stream} (haddressed : Stream.Addressed stream) :
    Reconciled codec targets stream ↔
      ∀ name, Stream.live stream (targetSubject name) = directoryMap codec targets name := by
  constructor
  · intro hreconciled name
    ext data
    rw [hreconciled]
    simp
  · intro hnames subject data
    constructor
    · intro hlive
      obtain ⟨name, rfl⟩ := haddressed.exists_of_live hlive
      exact ⟨name, rfl, by rw [← hnames name, hlive]⟩
    · rintro ⟨name, rfl, hdata⟩
      rw [hnames name, hdata]

/-- The publisher's memory and the stream. -/
structure Published where
  /-- The memory of the running publisher. -/
  byName : Map Str Str
  stream : Stream

namespace Published

/-- Nothing is published. -/
def init : Published := ⟨∅, ∅⟩

/-- The effect of one call of `syncAll`. -/
def sync (codec : Codec R) (order : RangeOrder) (outcome : Nat → PublishOutcome) (dir : Directory)
    (s : Published) : Published :=
  let r := syncAll codec order outcome dir s.byName
  ⟨r.byName, Stream.storeAll s.stream r.stored⟩

end Published

/-! ### Restarts -/

/-- The steps of a control plane whose publishes all succeed. -/
inductive RestartAction where
  /-- The process starts again with an empty memory. -/
  | restart
  | sync (order : RangeOrder) (dir : Directory)

/-- One step of a control plane whose publishes all succeed. -/
def restartStep (codec : Codec R) (s : Published) : RestartAction → Option Published
  | .restart => some ⟨∅, s.stream⟩
  | .sync order dir => some (s.sync codec order allAcked dir)

/-- The memory agrees with the stream. -/
structure Remembers (s : Published) : Prop where
  addressed : Stream.Addressed s.stream
  live : ∀ name data, s.byName.lookup name = some data →
    Stream.live s.stream (targetSubject name) = some data

/-- A sync whose publishes all succeed either succeeds or changes nothing. -/
theorem syncAll_allAcked {codec : Codec R} {order : RangeOrder} {dir : Directory}
    {byName : Map Str Str} :
    (syncAll codec order allAcked dir byName).result = .ok () ∨
      ((syncAll codec order allAcked dir byName).byName = byName ∧
        (syncAll codec order allAcked dir byName).stored = []) := by
  unfold syncAll syncLoaded
  split
  · exact .inr ⟨rfl, rfl⟩
  · split
    · exact .inr ⟨rfl, rfl⟩
    · rw [publishAll_allAcked]
      exact .inl rfl

/-- What the stream holds after a successful sync over an agreeing memory: the
directory, and whatever it held for hostnames that neither the memory nor the
directory knows. -/
theorem Remembers.live_sync {s : Published} (hs : Remembers s) {order : RangeOrder}
    {outcome : Nat → PublishOutcome} {dir : Directory} (hload : loadTargets codec dir = .ok targets)
    (hok : (syncAll codec order outcome dir s.byName).result = .ok ()) (name : Str) :
    Stream.live (s.sync codec order outcome dir).stream (targetSubject name) =
      if directoryMap codec targets name = none ∧ s.byName.lookup name = none then
        Stream.live s.stream (targetSubject name)
      else directoryMap codec targets name := by
  simp only [Published.sync]
  rw [live_storeAll_of_syncAll_ok hload hok]
  cases hmemory : s.byName.lookup name with
  | none => cases directoryMap codec targets name <;> simp
  | some data =>
    by_cases hsame : directoryMap codec targets name = some data
    · simp [hsame, hs.live name data hmemory]
    · simp [hsame]

theorem Remembers.step (s : Published) (a : RestartAction) (t : Published) (hs : Remembers s)
    (_ : Runs.Unrestricted s a) (hstep : restartStep codec s a = some t) : Remembers t := by
  cases a with
  | restart =>
    cases hstep
    exact ⟨hs.addressed, by simp⟩
  | sync order dir =>
    cases hstep
    refine ⟨hs.addressed.storeAll _, ?_⟩
    intro name data hmemory
    rcases @syncAll_allAcked R codec order dir s.byName with hok | ⟨hbyName, hstored⟩
    · obtain ⟨targets, -, hload, -, -, -⟩ := exists_of_syncAll_ok hok
      have hdirectory : directoryMap codec targets name = some data :=
        (lookup_byName_of_syncAll_ok hload hok name).symm.trans hmemory
      rw [hs.live_sync hload hok, if_neg (by simp [hdirectory]), hdirectory]
    · simp only [Published.sync, hbyName, hstored] at hmemory ⊢
      exact hs.live name data hmemory

/-- In every history of restarts and syncs whose publishes all succeed, a sync that
returns nil leaves the stream reconciled with the directory exactly when every
hostname that is live in the stream and unknown to the running publisher is
claimed by the directory. -/
theorem reconciled_after_restarts_iff {codec : Codec R} {s : Published}
    (hreach : Runs.Reaches (restartStep codec) Runs.Unrestricted Published.init s)
    {order : RangeOrder} {dir : Directory} {targets : List (TargetConfig R)}
    (hload : loadTargets codec dir = .ok targets)
    (hok : (syncAll codec order allAcked dir s.byName).result = .ok ()) :
    Reconciled codec targets (s.sync codec order allAcked dir).stream ↔
      ∀ name, (Stream.live s.stream (targetSubject name)).isSome →
        s.byName.lookup name = none → ∃ t ∈ targets, name ∈ t.names := by
  have hs : Remembers s := hreach.invariant Remembers.step
    ⟨Stream.addressed_empty, by simp [Published.init]⟩
  have hclaimed := directoryMap_eq_none_iff hload hok
  have haddressed : Stream.Addressed (s.sync codec order allAcked dir).stream :=
    hs.addressed.storeAll _
  rw [reconciled_iff haddressed]
  constructor
  · intro hreconciled name hlive hunknown
    by_contra hfree
    have hnone := (hclaimed name).mpr hfree
    have hafter := hreconciled name
    rw [hs.live_sync hload hok, if_pos ⟨hnone, hunknown⟩, hnone] at hafter
    simp [hafter] at hlive
  · intro hcond name
    rw [hs.live_sync hload hok]
    split
    · next hboth =>
      obtain ⟨hnone, hunknown⟩ := hboth
      rw [hnone]
      by_contra hlive
      exact (hclaimed name).mp hnone (hcond name (Option.isSome_iff_ne_none.mpr hlive) hunknown)
    · rfl

/-- An encoding for configs that consist of their server name. -/
def nameCodec : Codec Unit where
  marshalJSON t := some t.serverName
  unmarshalJSON data := some ⟨data, ()⟩
  marshalYAML t := some t.serverName
  unmarshalYAML data := some ⟨data, ()⟩

theorem nameCodec_lossless : nameCodec.Lossless :=
  ⟨fun t _ => ⟨t.serverName, rfl, rfl⟩, fun t _ => ⟨t.serverName, rfl, rfl⟩⟩

/-- A target file that contains its server name. -/
def targetFile (name serverName : String) : DirEntry := ⟨str name, false, some (str serverName)⟩

/-- A directory with two targets. -/
def twoTargets (first second : String) : Directory :=
  some [targetFile "a.yaml" first, targetFile "b.yaml" second]

/-- Two targets are synced, one is removed while no publisher runs, and the process
starts again. -/
def restartHistory : List RestartAction :=
  [.sync .entries (twoTargets "a.example" "b.example"), .restart]

def restartState : Published :=
  (Runs.exec (restartStep nameCodec) Published.init restartHistory).get rfl

theorem reaches_restartState : Runs.Reaches (restartStep nameCodec) Runs.Unrestricted
    Published.init restartState :=
  Runs.reaches_exec _

def remainingDirectory : Directory := some [targetFile "b.yaml" "b.example"]

/-- The first sync after the restart returns nil and leaves the removed target live. -/
theorem restart_keeps_removed_target :
    Runs.Reaches (restartStep nameCodec) Runs.Unrestricted Published.init restartState ∧
    (syncAll nameCodec .entries allAcked remainingDirectory restartState.byName).result = .ok () ∧
    loadTargets nameCodec remainingDirectory = .ok [⟨str "b.example", ()⟩] ∧
    ¬ Reconciled nameCodec [⟨str "b.example", ()⟩]
      (restartState.sync nameCodec .entries allAcked remainingDirectory).stream := by
  refine ⟨reaches_restartState, rfl, rfl, ?_⟩
  intro hreconciled
  obtain ⟨name, hsubject, hdata⟩ :=
    (hreconciled (targetSubject (str "a.example")) (str "a.example")).mp (by decide)
  obtain rfl := targetSubject_inj.mp hsubject
  exact absurd hdata (by decide)

/-- Without a removal the sync after the restart reconciles. -/
theorem restart_reconciles_same_targets :
    Reconciled nameCodec [⟨str "a.example", ()⟩, ⟨str "b.example", ()⟩]
      (restartState.sync nameCodec .entries allAcked
        (twoTargets "a.example" "b.example")).stream := by
  refine (reconciled_after_restarts_iff reaches_restartState rfl rfl).mpr ?_
  intro name hlive _
  obtain ⟨data, hdata⟩ := Option.isSome_iff_exists.mp hlive
  obtain ⟨e, he, -⟩ := Option.bind_eq_some_iff.mp hdata
  have hkeys : restartState.stream.keys =
      [targetSubject (str "a.example"), targetSubject (str "b.example")] := by decide
  have hkey := AList.mem_keys.mp (Map.mem_of_lookup he)
  simp only [hkeys, List.mem_cons, List.not_mem_nil, or_false, targetSubject_inj] at hkey
  rcases hkey with rfl | rfl
  · exact ⟨_, List.mem_cons_self, by decide⟩
  · exact ⟨_, List.mem_cons_of_mem _ List.mem_cons_self, by decide⟩

/-! ### Failed publishes -/

/-- One lifetime of a publisher, with what its history says about the stream. -/
structure Lifetime (R : Type) where
  published : Published
  last : List (TargetConfig R)
  /-- The events stored by failed syncs that no successful sync has replaced. -/
  unsettled : List TargetEvent

/-- A publisher that starts with an empty stream. -/
def Lifetime.init : Lifetime R := ⟨.init, [], []⟩

/-- One call of `syncAll` with everything it depends on. -/
structure Attempt where
  order : RangeOrder
  outcome : Nat → PublishOutcome
  dir : Directory

/-- The call on the memory of a lifetime. -/
def Attempt.run (codec : Codec R) (a : Attempt) (s : Lifetime R) : SyncResult :=
  syncAll codec a.order a.outcome a.dir s.published.byName

/-- One step of a lifetime. -/
def attemptStep (codec : Codec R) (s : Lifetime R) (a : Attempt) : Option (Lifetime R) :=
  let published := s.published.sync codec a.order a.outcome a.dir
  match (a.run codec s).result, loadTargets codec a.dir with
  | .ok (), .ok targets => some ⟨published, targets, s.unsettled.filter fun e =>
      (Stream.lastFor (a.run codec s).stored e.serverName).isNone⟩
  | _, _ => some ⟨published, s.last, s.unsettled ++ (a.run codec s).stored⟩

/-- What the history says about the memory and the stream. -/
structure Accounted (codec : Codec R) (s : Lifetime R) : Prop where
  addressed : Stream.Addressed s.published.stream
  memory : ∀ name, s.published.byName.lookup name = directoryMap codec s.last name
  /-- The stream has what failed syncs left behind, and otherwise that directory. -/
  live : ∀ name, Stream.live s.published.stream (targetSubject name) =
    match Stream.lastFor s.unsettled name with
    | some e => e.value
    | none => directoryMap codec s.last name

theorem accounted_init (codec : Codec R) : Accounted codec (Lifetime.init : Lifetime R) := by
  refine ⟨Stream.addressed_empty, ?_, ?_⟩
  · intro name
    simp [Lifetime.init, Published.init, directoryMap, owner]
  · intro name
    simp [Lifetime.init, Published.init, directoryMap, owner, Stream.live, Stream.lastFor]

/-- After a successful sync a hostname has its config in the directory, unless that
is the config it had at the last successful sync and failed syncs left another. -/
theorem Accounted.live_sync {s : Lifetime R} (hs : Accounted codec s) {a : Attempt}
    (hload : loadTargets codec a.dir = .ok targets) (hok : (a.run codec s).result = .ok ())
    (name : Str) :
    Stream.live (s.published.sync codec a.order a.outcome a.dir).stream (targetSubject name) =
      if directoryMap codec targets name = directoryMap codec s.last name then
        Stream.live s.published.stream (targetSubject name)
      else directoryMap codec targets name := by
  rw [← hs.memory]
  exact live_storeAll_of_syncAll_ok hload hok _ name

theorem Accounted.step (s : Lifetime R) (a : Attempt) (t : Lifetime R) (hs : Accounted codec s)
    (_ : Runs.Unrestricted s a) (hstep : attemptStep codec s a = some t) : Accounted codec t := by
  have haddressed : Stream.Addressed (s.published.sync codec a.order a.outcome a.dir).stream :=
    hs.addressed.storeAll _
  cases hresult : (a.run codec s).result with
  | error e =>
    obtain rfl : _ = t := by simpa [attemptStep, hresult] using hstep
    refine ⟨haddressed, ?_, ?_⟩
    · intro name
      rw [← hs.memory name]
      exact congrArg (AList.lookup name) (byName_of_syncAll_error hresult)
    · intro name
      simp only [Published.sync]
      rw [Stream.live_storeAll, Stream.lastFor_append, hs.live name]
      change (match Stream.lastFor (a.run codec s).stored name with
        | some e => e.value
        | none => _) = _
      cases Stream.lastFor (a.run codec s).stored name <;> rfl
  | ok u =>
    obtain ⟨targets, -, hload, -, -, -⟩ := exists_of_syncAll_ok hresult
    obtain rfl : _ = t := by simpa [attemptStep, hresult, hload] using hstep
    refine ⟨haddressed, lookup_byName_of_syncAll_ok hload hresult, ?_⟩
    intro name
    have hevent : Stream.lastFor (a.run codec s).stored name = none ↔
        directoryMap codec targets name = directoryMap codec s.last name := by
      rw [← hs.memory]
      exact lastFor_stored_eq_none_iff hload hresult name
    rw [hs.live_sync hload hresult, Stream.lastFor_filter s.unsettled
      (fun name => (Stream.lastFor (a.run codec s).stored name).isNone)]
    by_cases hsame : directoryMap codec targets name = directoryMap codec s.last name
    · simp [hevent.mpr hsame, hsame, hs.live name]
    · have hsome : (Stream.lastFor (a.run codec s).stored name).isNone = false := by
        simpa [Option.isSome_iff_ne_none] using mt hevent.mp hsame
      simp [hsame, hsome]

/-- In every lifetime that starts with an empty stream, whatever its publishes
return, a sync that returns nil leaves the stream reconciled with the directory
exactly when every hostname whose config is the same as at the last successful
sync was left with that config by the failed syncs that touched it since. -/
theorem reconciled_after_failures_iff {codec : Codec R} {s : Lifetime R}
    (hreach : Runs.Reaches (attemptStep codec) Runs.Unrestricted Lifetime.init s) {a : Attempt}
    {targets : List (TargetConfig R)} (hload : loadTargets codec a.dir = .ok targets)
    (hok : (a.run codec s).result = .ok ()) :
    Reconciled codec targets (s.published.sync codec a.order a.outcome a.dir).stream ↔
      ∀ name, directoryMap codec targets name = directoryMap codec s.last name →
        ∀ e, Stream.lastFor s.unsettled name = some e →
          e.value = directoryMap codec targets name := by
  have hs := hreach.invariant Accounted.step (accounted_init codec)
  have haddressed : Stream.Addressed (s.published.sync codec a.order a.outcome a.dir).stream :=
    hs.addressed.storeAll _
  rw [reconciled_iff haddressed]
  constructor
  · intro hreconciled name hsame e hlast
    have hafter := hreconciled name
    rw [hs.live_sync hload hok, if_pos hsame, hs.live name, hlast] at hafter
    exact hafter
  · intro hcond name
    rw [hs.live_sync hload hok]
    split
    · next hsame =>
      rw [hs.live name]
      cases hlast : Stream.lastFor s.unsettled name with
      | none => exact hsame.symm
      | some e => exact hcond name hsame e hlast
    · rfl

/-- Two targets are synced; then both change, and the second publish of the sync
that follows fails. -/
def failureHistory : List Attempt :=
  [⟨.entries, allAcked, twoTargets "a.example" "b.example"⟩,
    ⟨.entries, fun i => if i = 0 then .acked else .rejected,
      twoTargets "a.example,a.example" "b.example,b.example"⟩]

def failureState : Lifetime Unit :=
  (Runs.exec (attemptStep nameCodec) Lifetime.init failureHistory).get rfl

theorem reaches_failureState : Runs.Reaches (attemptStep nameCodec) Runs.Unrestricted
    Lifetime.init failureState :=
  Runs.reaches_exec _

/-- The sync after both changes are taken back returns nil, publishes nothing, and
leaves one of the changes in the stream. -/
theorem reverted_change_stays_published :
    Runs.Reaches (attemptStep nameCodec) Runs.Unrestricted Lifetime.init failureState ∧
    (Attempt.run nameCodec ⟨.entries, allAcked, twoTargets "a.example" "b.example"⟩
      failureState).result = .ok () ∧
    loadTargets nameCodec (twoTargets "a.example" "b.example") =
      .ok [⟨str "a.example", ()⟩, ⟨str "b.example", ()⟩] ∧
    ¬ Reconciled nameCodec [⟨str "a.example", ()⟩, ⟨str "b.example", ()⟩]
      (failureState.published.sync nameCodec .entries allAcked
        (twoTargets "a.example" "b.example")).stream := by
  refine ⟨reaches_failureState, rfl, rfl, ?_⟩
  intro hreconciled
  obtain ⟨name, hsubject, hdata⟩ := (hreconciled (targetSubject (str "b.example"))
    (str "b.example,b.example")).mp (by decide)
  obtain rfl := targetSubject_inj.mp hsubject
  exact absurd hdata (by decide)

/-- The sync that repeats the changes reconciles. -/
theorem repeated_change_reconciles :
    Reconciled nameCodec [⟨str "a.example,a.example", ()⟩, ⟨str "b.example,b.example", ()⟩]
      (failureState.published.sync nameCodec .entries allAcked
        (twoTargets "a.example,a.example" "b.example,b.example")).stream := by
  refine (reconciled_after_failures_iff
    (a := ⟨.entries, allAcked, twoTargets "a.example,a.example" "b.example,b.example"⟩)
    reaches_failureState rfl rfl).mpr ?_
  intro name hsame e hlast
  have hunsettled : failureState.unsettled =
      [.upsert (str "b.example") (str "b.example,b.example")] := rfl
  rw [hunsettled] at hlast
  obtain ⟨hmem, rfl⟩ := Stream.mem_of_lastFor hlast
  obtain rfl := List.mem_singleton.mp hmem
  exact absurd hsame (by decide)

end Peretum.ControlPlane
