import Peretum.Runs
import Peretum.Cache.Accounting

/-!
# The size counter under concurrency

The shards have a mutex each, but the total size is one atomic counter that every
operation changes in a step of its own, after the step on the shard. An `Add` can
come late without harm, as what is still to be added can be counted with the
operation that owes it. The `Store` of `PurgeAll` cannot: it also forgets what was
put since the walk passed a shard, and what others are about to add.
-/

namespace Peretum.Cache.Counter

open Go DiskCache

/-- What an operation still has to do. -/
inductive Work where
  | finished
  /-- `touch`, before its put. -/
  | touch (key : Key) (size : Nat)
  /-- `remove`, before its removal. -/
  | remove (key : Key)
  /-- `evict`, with the shards still to be tried. -/
  | evict (shards : List (Fin shardCount))
  /-- `sweep`, with the shards still to be swept. -/
  | sweep (shards : List (Fin shardCount))
  /-- `PurgeAll`, with the shards still to be reset; at the end it stores zero. -/
  | purgeAll (shards : List (Fin shardCount))
  /-- The `Add` of a change already made to a shard, with the shards a sweep goes on
  with. -/
  | add (delta : Int) (rest : Option (List (Fin shardCount)))
  deriving DecidableEq

namespace Work

/-- What an operation owes the counter. -/
def delta : Work → Int
  | add delta _ => delta
  | _ => 0

/-- A `PurgeAll` that has not stored zero yet. -/
def purging : Work → Bool
  | purgeAll _ => true
  | _ => false

end Work

/-- An operation that can run concurrently with others. -/
inductive Operation where
  | touch (key : Key) (size : Nat)
  | remove (key : Key)
  | evict
  | sweep
  | purgeAll

/-- All an operation has to do. -/
def Operation.work : Operation → Work
  | touch key size => .touch key size
  | remove key => .remove key
  | evict => .evict (List.finRange shardCount)
  | sweep => .sweep (List.finRange shardCount)
  | purgeAll => .purgeAll (List.finRange shardCount)

/-- The shards, the counter and the operations in progress. -/
structure State (n : Nat) where
  shards : Fin shardCount → LruShard
  currentSize : Int
  ops : Fin n → Work

/-- The operation that moves, with the times it reads: that of a put, the expiry of its
entry, and the time of a sweep are observed. -/
structure Action (n : Nat) where
  op : Fin n
  now : Int
  /-- The expiry of an entry it puts. -/
  expiresAt : Option Int

variable {n : Nat}

namespace State

/-- Operations about to start over an index whose counter is right. -/
def init (shards : Fin shardCount → LruShard) (ops : Fin n → Operation) : State n :=
  ⟨shards, ∑ i, (shards i).size, fun j => (ops j).work⟩

/-- The sum of the sizes of the shards. -/
def shardSizes (s : State n) : Int := ∑ i, (s.shards i).size

/-- The sum of what the operations owe the counter. -/
def outstanding (s : State n) : Int := ∑ j, (s.ops j).delta

/-- Replace a shard and what an operation has to do. -/
def update (s : State n) (i : Fin shardCount) (shard : LruShard) (j : Fin n) (work : Work) :
    State n :=
  ⟨Function.update s.shards i shard, s.currentSize, Function.update s.ops j work⟩

/-- Only go on with an operation. -/
def goOn (s : State n) (j : Fin n) (work : Work) : State n :=
  { s with ops := Function.update s.ops j work }

/-- One atomic step of an operation: one section under the mutex of a shard, one `Add` or
one `Store`. -/
def step (s : State n) (a : Action n) : Option (State n) :=
  match s.ops a.op with
  | .finished => none
  | .touch key size =>
      let i := DiskCache.shardIndex key
      let (delta, shard) := (s.shards i).put a.now key size a.expiresAt
      some (s.update i shard a.op (.add delta none))
  | .remove key =>
      let i := DiskCache.shardIndex key
      match (s.shards i).remove key with
      | (some size, shard) => some (s.update i shard a.op (.add (-size) none))
      | (none, _) => some (s.goOn a.op .finished)
  | .evict [] => some (s.goOn a.op .finished)
  | .evict (i :: rest) =>
      match (s.shards i).evict with
      | (some (_, size), shard) => some (s.update i shard a.op (.add (-size) none))
      | (none, _) => some (s.goOn a.op (.evict rest))
  | .sweep [] => some (s.goOn a.op .finished)
  | .sweep (i :: rest) =>
      let (_, size, shard) := (s.shards i).findExpired a.now
      some (s.update i shard a.op (if 0 < size then .add (-size) (some rest) else .sweep rest))
  | .purgeAll [] => some { s.goOn a.op .finished with currentSize := 0 }
  | .purgeAll (i :: rest) =>
      some (s.update i { s.shards i with lru := ∅, lruList := [], size := 0 } a.op
        (.purgeAll rest))
  | .add delta none => some { s.goOn a.op .finished with currentSize := s.currentSize + delta }
  | .add delta (some rest) =>
      some { s.goOn a.op (.sweep rest) with currentSize := s.currentSize + delta }

/-- A `PurgeAll` stores zero only when the changes still to be added make up all that is
in the shards. -/
def Settled (s : State n) (a : Action n) : Prop :=
  s.ops a.op = .purgeAll [] → s.shardSizes = s.outstanding

/-- Every operation has finished. -/
def AllFinished (s : State n) : Prop := ∀ j, s.ops j = .finished

/-- By how much the shards exceed the counter and what is owed to it. -/
def drift (s : State n) : Int := s.shardSizes - s.currentSize - s.outstanding

theorem outstanding_goOn (s : State n) (j : Fin n) (work : Work) :
    (s.goOn j work).outstanding = s.outstanding + (work.delta - (s.ops j).delta) :=
  Sums.sum_update (fun _ (work : Work) => work.delta) s.ops j work

variable {s t : State n} {i : Fin shardCount} {shard : LruShard} {j : Fin n} {work : Work}
  {a : Action n} {shards : List (Fin shardCount)}

/-- A change of a shard that the operation owes to the counter causes no drift. -/
theorem drift_update (hdelta : shard.size - (s.shards i).size = work.delta - (s.ops j).delta) :
    (s.update i shard j work).drift = s.drift := by
  have hshards : (s.update i shard j work).shardSizes =
      s.shardSizes + (shard.size - (s.shards i).size) :=
    Sums.sum_update (fun _ (shard : LruShard) => shard.size) s.shards i shard
  have howed : (s.update i shard j work).outstanding =
      s.outstanding + (work.delta - (s.ops j).delta) := outstanding_goOn s j work
  have hcurrent : (s.update i shard j work).currentSize = s.currentSize := rfl
  unfold drift
  omega

theorem drift_goOn (hdelta : work.delta = (s.ops j).delta) : (s.goOn j work).drift = s.drift := by
  have howed := outstanding_goOn s j work
  have hshards : (s.goOn j work).shardSizes = s.shardSizes := rfl
  have hcurrent : (s.goOn j work).currentSize = s.currentSize := rfl
  unfold drift
  omega

theorem drift_add {delta : Int} (hdelta : (s.ops j).delta = delta) (hwork : work.delta = 0) :
    { s.goOn j work with currentSize := s.currentSize + delta }.drift = s.drift := by
  have howed := outstanding_goOn s j work
  change s.shardSizes - (s.currentSize + delta) - (s.goOn j work).outstanding = s.drift
  unfold drift
  omega

theorem purging_of_ne {ops : Fin n → Work} (hj : (ops j).purging = false) (work : Work) {k : Fin n}
    (hk : (ops k).purging = true) : (Function.update ops j work k).purging = true := by
  have hne : k ≠ j := by
    rintro rfl
    exact absurd hk (by simp [hj])
  rw [Function.update_of_ne hne]
  exact hk

/-- What a step can do to the totals: cause no drift, be the step of a purge that goes on,
or store zero. -/
inductive Effect (s : State n) (a : Action n) (t : State n) : Prop where
  /-- The step causes no drift and ends no purge. -/
  | level (hdrift : t.drift = s.drift)
      (hpurging : ∀ j, (s.ops j).purging = true → (t.ops j).purging = true)
  | reset (hpurging : (t.ops a.op).purging = true)
  /-- The step stores zero. -/
  | store (hop : s.ops a.op = .purgeAll []) (hshards : t.shardSizes = s.shardSizes)
      (howed : t.outstanding = s.outstanding) (hcurrent : t.currentSize = 0)

theorem Effect.of_update (hop : (s.ops a.op).purging = false)
    (hdelta : shard.size - (s.shards i).size = work.delta - (s.ops a.op).delta) :
    Effect s a (s.update i shard a.op work) :=
  .level (drift_update hdelta) fun _ hj => purging_of_ne hop work hj

theorem Effect.of_goOn (hop : (s.ops a.op).purging = false)
    (hdelta : work.delta = (s.ops a.op).delta) : Effect s a (s.goOn a.op work) :=
  .level (drift_goOn hdelta) fun _ hj => purging_of_ne hop work hj

section effects

variable (hnonneg : NonnegSizes s.shards) (hstep : s.step a = some t)

include hnonneg hstep

theorem touch_effect {key : Key} {size : Nat} (hop : s.ops a.op = .touch key size) :
    NonnegSizes t.shards ∧ Effect s a t := by
  obtain ⟨hdelta, hsize, e, he, hlru⟩ :=
    (s.shards (DiskCache.shardIndex key)).put_spec a.now key size a.expiresAt
  rw [step, hop] at hstep
  obtain rfl : s.update (DiskCache.shardIndex key)
      ((s.shards (DiskCache.shardIndex key)).put a.now key size a.expiresAt).2 a.op
      (.add ((s.shards (DiskCache.shardIndex key)).put a.now key size a.expiresAt).1 none) = t :=
    Option.some.inj hstep
  refine ⟨hnonneg.update _ ((hnonneg _).of_insert (by omega) hlru), .of_update ?_ ?_⟩
  · simp [hop, Work.purging]
  · simp only [hop, hsize, Work.delta, hdelta]
    omega

/-- The removal of a `remove`. -/
theorem remove_effect {key : Key} (hop : s.ops a.op = .remove key) :
    NonnegSizes t.shards ∧ Effect s a t := by
  have hsize := (s.shards (DiskCache.shardIndex key)).remove_size key
  have hlru := (s.shards (DiskCache.shardIndex key)).remove_lru key
  rw [step, hop] at hstep
  cases hlookup : (s.shards (DiskCache.shardIndex key)).lru.lookup key with
  | none =>
    obtain rfl : s.goOn a.op .finished = t := by
      simpa [LruShard.remove, hlookup] using hstep
    exact ⟨hnonneg, .of_goOn (by simp [hop, Work.purging]) (by simp [hop, Work.delta])⟩
  | some e =>
    obtain rfl : s.update (DiskCache.shardIndex key)
        ((s.shards (DiskCache.shardIndex key)).remove key).2 a.op (.add (-e.size) none) = t := by
      simpa [LruShard.remove, hlookup] using hstep
    refine ⟨hnonneg.update _ ((hnonneg _).of_erase hlru), .of_update ?_ ?_⟩
    · simp [hop, Work.purging]
    · rw [hop, hsize]
      simp [LruShard.weight, hlookup, Work.delta]

/-- One shard of an `evict`, or its end. -/
theorem evict_effect (hop : s.ops a.op = .evict shards) : NonnegSizes t.shards ∧ Effect s a t := by
  have hother : (s.ops a.op).purging = false := by simp [hop, Work.purging]
  have howed : (s.ops a.op).delta = 0 := by simp [hop, Work.delta]
  rw [step, hop] at hstep
  cases shards with
  | nil =>
    cases hstep
    exact ⟨hnonneg, .of_goOn hother howed.symm⟩
  | cons i rest =>
    rcases (s.shards i).evict_cases with hnone | ⟨key, e, -, hfst, hlru, hsize, -⟩
    · obtain rfl : s.goOn a.op (.evict rest) = t := by simpa [hnone] using hstep
      exact ⟨hnonneg, .of_goOn hother howed.symm⟩
    · have hpair : (s.shards i).evict = (some (key, e.size), (s.shards i).evict.2) :=
        Prod.ext hfst rfl
      dsimp only at hstep
      rw [hpair] at hstep
      cases hstep
      refine ⟨hnonneg.update _ ((hnonneg _).of_erase hlru), .of_update hother ?_⟩
      rw [howed, hsize]
      simp only [Work.delta]
      omega

/-- One shard of a `sweep`, or its end. -/
theorem sweep_effect (hop : s.ops a.op = .sweep shards) : NonnegSizes t.shards ∧ Effect s a t := by
  have hother : (s.ops a.op).purging = false := by simp [hop, Work.purging]
  have howed : (s.ops a.op).delta = 0 := by simp [hop, Work.delta]
  rw [step, hop] at hstep
  cases shards with
  | nil =>
    cases hstep
    exact ⟨hnonneg, .of_goOn hother howed.symm⟩
  | cons i rest =>
    cases hstep
    have hsize := (s.shards i).dropAll_size ((s.shards i).findExpired_nodup a.now)
    have hexpired := LruShard.findExpired_nonneg (hnonneg i) a.now
    rw [← (s.shards i).findExpired_total a.now] at hsize
    refine ⟨hnonneg.update _ ((hnonneg i).dropAll _), .of_update hother ?_⟩
    change ((s.shards i).dropAll ((s.shards i).findExpired a.now).1).size - _ =
      (if 0 < ((s.shards i).findExpired a.now).2.1 then
        Work.add (-((s.shards i).findExpired a.now).2.1) (some rest) else .sweep rest).delta - _
    rw [howed, hsize]
    -- Nothing is owed for a shard without expired entries, where the total is zero.
    split <;> simp only [Work.delta] <;> omega

theorem purgeAll_effect (hop : s.ops a.op = .purgeAll shards) :
    NonnegSizes t.shards ∧ Effect s a t := by
  rw [step, hop] at hstep
  cases shards with
  | nil =>
    cases hstep
    have howed := outstanding_goOn s a.op .finished
    simp only [hop, Work.delta, Int.sub_zero, Int.add_zero] at howed
    exact ⟨hnonneg, .store hop rfl howed rfl⟩
  | cons i rest =>
    cases hstep
    refine ⟨hnonneg.update _ (fun key e hlookup => ?_), .reset ?_⟩
    · cases hlookup
    · simp [update, Work.purging]

theorem add_effect {delta : Int} {rest : Option (List (Fin shardCount))}
    (hop : s.ops a.op = .add delta rest) : NonnegSizes t.shards ∧ Effect s a t := by
  have hother : (s.ops a.op).purging = false := by simp [hop, Work.purging]
  have howed : (s.ops a.op).delta = delta := by simp [hop, Work.delta]
  rw [step, hop] at hstep
  cases rest with
  | none | some rest =>
    cases hstep
    exact ⟨hnonneg, .level (drift_add howed rfl) fun _ hj => purging_of_ne hother _ hj⟩

theorem step_effect : NonnegSizes t.shards ∧ Effect s a t := by
  cases hop : s.ops a.op with
  | finished => exact absurd hstep (by simp [step, hop])
  | touch key size => exact touch_effect hnonneg hstep hop
  | remove key => exact remove_effect hnonneg hstep hop
  | evict shards => exact evict_effect hnonneg hstep hop
  | sweep shards => exact sweep_effect hnonneg hstep hop
  | purgeAll shards => exact purgeAll_effect hnonneg hstep hop
  | add delta rest => exact add_effect hnonneg hstep hop

end effects

/-- Unless a purge is in progress, the shards hold what the counter says and what is owed
to it. -/
structure Tallied (s : State n) : Prop where
  nonneg : NonnegSizes s.shards
  drift : (∃ j, (s.ops j).purging = true) ∨ s.drift = 0

/-- Every step keeps this when zero is stored only over settled shards. -/
theorem Tallied.step (htallied : s.Tallied) (hguard : s.Settled a) (hstep : s.step a = some t) :
    t.Tallied := by
  obtain ⟨hnonneg, heffect⟩ := step_effect htallied.nonneg hstep
  refine ⟨hnonneg, ?_⟩
  cases heffect with
  | level hdrift hpurging =>
    rcases htallied.drift with ⟨j, hj⟩ | hzero
    · exact .inl ⟨j, hpurging j hj⟩
    · exact .inr (hdrift.trans hzero)
  | reset hpurging => exact .inl ⟨a.op, hpurging⟩
  | store hop hshards howed hcurrent =>
    have hsettled := hguard hop
    unfold State.drift
    omega

theorem init_tallied {shards : Fin shardCount → LruShard} (ops : Fin n → Operation)
    (hnonneg : NonnegSizes shards) : (init shards ops).Tallied := by
  refine ⟨hnonneg, .inr ?_⟩
  have howed : (init shards ops).outstanding = 0 := by
    refine Finset.sum_eq_zero fun j _ => ?_
    change ((ops j).work).delta = 0
    cases ops j <;> rfl
  have hcurrent : (init shards ops).currentSize = (init shards ops).shardSizes := rfl
  unfold State.drift
  omega

end State

/-- Any number of concurrent operations, started over an index whose counter is right,
leave the counter right when they have all finished, provided a `PurgeAll` stores zero
only when the changes still to be added make up all that is in the shards. -/
theorem currentSize_eq_of_settled {shards : Fin shardCount → LruShard} {ops : Fin n → Operation}
    (hnonneg : NonnegSizes shards) {s : State n}
    (hreach : Runs.Reaches State.step State.Settled (.init shards ops) s)
    (hfinished : s.AllFinished) : s.currentSize = s.shardSizes := by
  have htallied : s.Tallied :=
    hreach.invariant (fun _ _ _ hs hguard hstep => hs.step hguard hstep)
      (State.init_tallied ops hnonneg)
  have howed : s.outstanding = 0 := by
    refine Finset.sum_eq_zero fun j _ => ?_
    simp [hfinished j, Work.delta]
  rcases htallied.drift with ⟨j, hj⟩ | hzero
  · rw [hfinished j] at hj
    cases hj
  · unfold State.drift at hzero
    omega

instance (s : State n) : Decidable s.AllFinished :=
  inferInstanceAs (Decidable (∀ j, s.ops j = .finished))

instance (s : State n) (a : Action n) : Decidable (s.Settled a) :=
  inferInstanceAs (Decidable (s.ops a.op = .purgeAll [] → s.shardSizes = s.outstanding))

def purgeAndTouch : State 2 :=
  .init (fun _ => .empty) fun j => if j = 0 then .purgeAll else .touch zeroKey 10

/-- The steps of a schedule of turns. -/
def inTurns : List (Fin 2 × Nat) → List (Action 2) := Runs.inTurn fun j => ⟨j, 0, none⟩

/-- The purge has reset every shard when the put comes, and stores zero after it. -/
def putBeforeStore : State 2 :=
  (Runs.exec State.step purgeAndTouch (inTurns [(0, 32), (1, 2), (0, 1)])).get (by decide)

/-- A put between the reset of its shard and the `Store` is lost to the counter: the shard
holds ten bytes and the counter says zero. -/
theorem putBeforeStore_miscounts :
    Runs.Reaches State.step Runs.Unrestricted purgeAndTouch putBeforeStore ∧
      putBeforeStore.AllFinished ∧ putBeforeStore.currentSize = 0 ∧
      putBeforeStore.shardSizes = 10 :=
  ⟨Runs.reaches_exec _,
    by decide, by decide, by decide⟩

/-- The put comes while the purge is at work but has its `Add` still to make at the
`Store`. -/
def addAfterStore : State 2 :=
  (Runs.exec State.step purgeAndTouch (inTurns [(0, 32), (1, 1), (0, 1), (1, 1)])).get
    (by decide)

/-- A put whose `Add` comes after the `Store` is counted. -/
theorem addAfterStore_counts :
    addAfterStore.AllFinished ∧ addAfterStore.shardSizes = 10 ∧
      addAfterStore.currentSize = addAfterStore.shardSizes := by
  have hallowed : Runs.Admitted State.step State.Settled purgeAndTouch
      (inTurns [(0, 32), (1, 1), (0, 1), (1, 1)]) := by decide +kernel
  refine ⟨by decide, by decide, currentSize_eq_of_settled ?_
    (Runs.reaches_get hallowed) (by decide)⟩
  intro i key e hlookup
  cases hlookup

end Peretum.Cache.Counter
