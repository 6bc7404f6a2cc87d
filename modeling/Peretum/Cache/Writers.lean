import Peretum.Runs
import Peretum.Cache.Accounting

/-!
# Concurrent writers and the size limit

`SetResponseToCache` looks at the counter when it makes space and changes it when
it puts the entry, with two file writes in between. Calls that run at the same time
can all find the same space. The limit holds in every run in which a call is let
through only when its response fits together with those of the calls that were let
through before and have not put their entry yet.
-/

namespace Peretum.Cache.Writers

open Go DiskCache

/-- Where a call of `SetResponseToCache` is. -/
inductive Phase where
  | ready
  /-- Before a check of the loop of `ensureSpace`. -/
  | checking
  | evicting
  /-- Space was found, and the sidecar is to be written. -/
  | writingMeta
  | writingBody
  | touching
  | finished
  deriving DecidableEq

/-- The call is between the check that let it through and its put. -/
def Phase.through : Phase → Bool
  | writingMeta | writingBody | touching => true
  | _ => false

/-- The cache and the calls in progress. -/
structure State (n : Nat) where
  cache : DiskCache
  calls : Fin n → Phase

/-- The call that moves and the time it reads. -/
structure Action (n : Nat) where
  call : Fin n
  now : Int

variable {n : Nat}

/-- Calls that are about to start. -/
def State.init (d : DiskCache) : State n := ⟨d, fun _ => .ready⟩

/-- A call goes on with the given cache. -/
def State.goOn (s : State n) (i : Fin n) (d : DiskCache) (phase : Phase) : State n :=
  ⟨d, Function.update s.calls i phase⟩

/-- One atomic step of one call. -/
def step (writes : Fin n → Write) (s : State n) (a : Action n) : Option (State n) :=
  let w := writes a.call
  let d := s.cache
  match s.calls a.call with
  | .ready =>
      some (s.goOn a.call d
        (if DiskCache.storable w.statusCode w.body then .checking else .finished))
  | .checking =>
      some (s.goOn a.call d
        (if d.maxSize ≠ 0 ∧ d.currentSize + w.size > d.maxSize then .evicting else .writingMeta))
  | .evicting =>
      match d.evict with
      | some d' => some (s.goOn a.call d' .checking)
      | none => some (s.goOn a.call d .finished)
  | .writingMeta =>
      if w.io.metaWritten then
        some (s.goOn a.call
          { d with disk := Disk.write d.disk (cachePath w.key metaExt) w.sidecar a.now }
          .writingBody)
      else some (s.goOn a.call d .finished)
  | .writingBody =>
      if w.io.bodyWritten then
        some (s.goOn a.call
          { d with disk := Disk.write d.disk (cachePath w.key bodyExt) w.body a.now } .touching)
      else
        some (s.goOn a.call { d with disk := Disk.remove d.disk (cachePath w.key metaExt) }
          .finished)
  | .touching => some (s.goOn a.call (d.touch a.now w.key w.size) .finished)
  | .finished => none

/-- What a call in a phase still has to put. -/
def reservation (w : Write) (phase : Phase) : Int := if phase.through then w.size else 0

/-- What the calls that were let through still have to put. -/
def reserved (writes : Fin n → Write) (s : State n) : Int :=
  ∑ i, reservation (writes i) (s.calls i)

/-- A check lets a call through only when its response fits together with what the calls
let through before it still have to put. -/
def Reserves (writes : Fin n → Write) (s : State n) (a : Action n) : Prop :=
  s.calls a.call = .checking → s.cache.currentSize + (writes a.call).size ≤ s.cache.maxSize →
    s.cache.currentSize + (writes a.call).size + reserved writes s ≤ s.cache.maxSize

theorem size_nonneg (w : Write) : 0 ≤ w.size := by
  unfold Write.size
  omega

variable {d : DiskCache} {writes : Fin n → Write} {s : State n}

/-- A put raises the counter by the size at most. -/
theorem touch_currentSize_le (hnonneg : NonnegSizes d.shards) (now : Int) (w : Write) :
    (d.touch now w.key w.size).currentSize ≤ d.currentSize + w.size ∧
      NonnegSizes (d.touch now w.key w.size).shards := by
  obtain ⟨s, e, he, hlru, -, htouch⟩ := d.touch_spec now w.key w.size
  have hold : 0 ≤ (d.shard w.key).sizeOf w.key := by
    unfold LruShard.sizeOf LruShard.weight
    cases hlookup : (d.shard w.key).lru.lookup w.key with
    | none => simp
    | some e => exact hnonneg _ w.key e hlookup
  have hsize := size_nonneg w
  rw [htouch]
  refine ⟨by dsimp only; omega, ?_⟩
  exact hnonneg.update _ ((hnonneg _).of_insert (by omega) hlru)

theorem evict_currentSize_le {d' : DiskCache} (hnonneg : NonnegSizes d.shards)
    (hevict : d.evict = some d') : d'.currentSize ≤ d.currentSize ∧ d'.maxSize = d.maxSize ∧
      NonnegSizes d'.shards := by
  obtain ⟨i, s, key, e, hlookup, hlru, -, -, rfl⟩ := DiskCache.evict_spec hevict
  have hsize : 0 ≤ e.size := hnonneg i key e hlookup
  refine ⟨by dsimp only; omega, rfl, ?_⟩
  exact hnonneg.update i ((hnonneg i).of_erase hlru)

theorem reserved_goOn (writes : Fin n → Write) (s : State n) (i : Fin n) (d : DiskCache)
    (phase : Phase) :
    reserved writes (s.goOn i d phase) = reserved writes s +
      (reservation (writes i) phase - reservation (writes i) (s.calls i)) :=
  Sums.sum_update (fun i => reservation (writes i)) s.calls i phase

/-- The calls that were let through fit into the limit together. -/
structure Fits (writes : Fin n → Write) (maxSize : Int) (s : State n) : Prop where
  nonneg : NonnegSizes s.cache.shards
  limit : s.cache.maxSize = maxSize
  /-- What is on record and what is still to be put are within the limit. -/
  fits : s.cache.currentSize + reserved writes s ≤ maxSize

/-- A call goes on without raising the counter by more than it had reserved. -/
theorem Fits.goOn {maxSize : Int} (hfits : Fits writes maxSize s) {i : Fin n} {phase : Phase}
    (hnonneg : NonnegSizes d.shards) (hlimit : d.maxSize = s.cache.maxSize)
    (hcurrent : d.currentSize + reservation (writes i) phase ≤
      s.cache.currentSize + reservation (writes i) (s.calls i)) :
    Fits writes maxSize (s.goOn i d phase) := by
  have hreserved := reserved_goOn writes s i d phase
  have hsum := hfits.fits
  refine ⟨hnonneg, hlimit.trans hfits.limit, ?_⟩
  change d.currentSize + _ ≤ maxSize
  omega

/-- A call goes on without changing the index, having reserved no more than before. -/
theorem Fits.along {maxSize : Int} (hfits : Fits writes maxSize s) {i : Fin n} {phase : Phase}
    (hshards : d.shards = s.cache.shards) (hcurrent : d.currentSize = s.cache.currentSize)
    (hlimit : d.maxSize = s.cache.maxSize)
    (hthrough : phase.through = true → (s.calls i).through = true) :
    Fits writes maxSize (s.goOn i d phase) := by
  have hsize := size_nonneg (writes i)
  refine hfits.goOn (hshards ▸ hfits.nonneg) hlimit ?_
  unfold reservation
  rw [hcurrent]
  split
  · next hphase => rw [if_pos (hthrough hphase)]
  · split <;> omega

/-- Every step keeps the calls within the limit when each check reserves. -/
theorem Fits.step {maxSize : Int} (hmax : 0 < maxSize) {t : State n} {a : Action n}
    (hfits : Fits writes maxSize s) (hguard : Reserves writes s a)
    (hstep : step writes s a = some t) : Fits writes maxSize t := by
  have hlimit := hfits.limit
  unfold Writers.step at hstep
  cases hphase : s.calls a.call with
  | ready =>
    simp only [hphase, Option.some.injEq] at hstep
    subst hstep
    exact hfits.along rfl rfl rfl (by split <;> simp [Phase.through])
  | checking =>
    simp only [hphase, Option.some.injEq] at hstep
    subst hstep
    split
    · exact hfits.along rfl rfl rfl (by simp [Phase.through])
    · next hfound =>
      -- The guard makes room for the call beside those that were let through before.
      have hroom := hguard hphase (by omega)
      have hreserved := reserved_goOn writes s a.call s.cache .writingMeta
      simp only [hphase, reservation, Phase.through, if_true, Bool.false_eq_true, if_false]
        at hreserved
      refine ⟨hfits.nonneg, hlimit, ?_⟩
      change s.cache.currentSize + _ ≤ maxSize
      omega
  | evicting =>
    cases hevict : s.cache.evict with
    | none =>
      simp only [hphase, hevict, Option.some.injEq] at hstep
      subst hstep
      exact hfits.along rfl rfl rfl (by simp [Phase.through])
    | some d =>
      simp only [hphase, hevict, Option.some.injEq] at hstep
      subst hstep
      obtain ⟨hcurrent, hmaxSize, hnonneg⟩ := evict_currentSize_le hfits.nonneg hevict
      refine hfits.goOn hnonneg hmaxSize ?_
      simpa [hphase, reservation, Phase.through] using hcurrent
  | writingMeta | writingBody =>
    simp only [hphase] at hstep
    split at hstep
    · cases hstep
      exact hfits.along rfl rfl rfl (by simp [hphase, Phase.through])
    · cases hstep
      exact hfits.along rfl rfl rfl (by simp [Phase.through])
  | touching =>
    simp only [hphase, Option.some.injEq] at hstep
    subst hstep
    obtain ⟨hcurrent, hnonneg⟩ := touch_currentSize_le hfits.nonneg a.now (writes a.call)
    refine hfits.goOn hnonneg rfl ?_
    simpa [hphase, reservation, Phase.through] using hcurrent
  | finished => simp [hphase] at hstep

/-- No call is between the check that let it through and its put. -/
def Quiet (s : State n) : Prop := ∀ i, (s.calls i).through = false

/-- Any number of concurrent calls keep the counter within the limit, provided a check lets
a call through only when its response fits together with what the calls let through
before it still have to put. This includes every state in which no call is between its
check and its put. -/
theorem currentSize_le_of_reserves {writes : Fin n → Write} {d : DiskCache}
    (hmax : 0 < d.maxSize) (hnonneg : NonnegSizes d.shards) (hstart : d.currentSize ≤ d.maxSize)
    {s : State n} (hreach : Runs.Reaches (step writes) (Reserves writes) (.init d) s) :
    s.cache.currentSize ≤ d.maxSize := by
  have hinit : Fits writes d.maxSize (.init d) := by
    refine ⟨hnonneg, rfl, ?_⟩
    have hreserved : reserved writes (State.init d) = 0 := by
      simp [reserved, State.init, reservation, Phase.through]
    rw [hreserved]
    simpa [State.init] using hstart
  have hfits : Fits writes d.maxSize s :=
    hreach.invariant (fun _ _ _ hs hguard hstep => hs.step hmax hguard hstep) hinit
  have hreserved : 0 ≤ reserved writes s := by
    refine Finset.sum_nonneg fun i _ => ?_
    unfold reservation
    split
    · exact size_nonneg _
    · exact le_refl _
  have hsum := hfits.fits
  omega

def firstCall : Fin 2 := ⟨0, Nat.zero_lt_two⟩

def secondCall : Fin 2 := ⟨1, Nat.one_lt_two⟩

/-- Two writes of a response that fills a cache of 40 bytes. -/
def fullWrites (i : Fin 2) : Write :=
  ⟨0, ⟨true, true⟩, if i = firstCall then zeroKey else onesKey, [], [], 200, ∅,
    List.replicate 25 0x78⟩

def smallCache : DiskCache := .new ∅ 40 0

/-- The steps of a schedule of turns. -/
def inTurns : List (Fin 2 × Nat) → List (Action 2) := Runs.inTurn fun i => ⟨i, 0⟩

/-- Both calls check before either of them puts its entry. -/
def checkTogether : State 2 :=
  (Runs.exec (step fullWrites) (.init smallCache)
    (inTurns [(firstCall, 2), (secondCall, 2), (firstCall, 3), (secondCall, 3)])).get (by decide)

/-- Two calls that check together put 80 bytes on record in a cache limited to 40. -/
theorem checkTogether_exceeds :
    smallCache.currentSize ≤ smallCache.maxSize ∧
      Runs.Reaches (step fullWrites) Runs.Unrestricted (.init smallCache) checkTogether ∧
      Quiet checkTogether ∧ smallCache.maxSize = 40 ∧ checkTogether.cache.currentSize = 80 :=
  ⟨by decide, Runs.reaches_exec _,
    by unfold Quiet; decide, rfl, by decide⟩

instance (writes : Fin n → Write) (s : State n) (a : Action n) :
    Decidable (Reserves writes s a) := by
  unfold Reserves
  infer_instance

def oneAfterAnother : State 2 :=
  (Runs.exec (step fullWrites) (.init smallCache) (inTurns [(firstCall, 5), (secondCall, 7)])).get
    (by decide)

/-- One call after the other keeps within the limit. -/
theorem oneAfterAnother_within :
    (0 : Int) < smallCache.maxSize ∧ smallCache.currentSize ≤ smallCache.maxSize ∧
      oneAfterAnother.cache.currentSize ≤ smallCache.maxSize := by
  have hallowed : Runs.Admitted (step fullWrites) (Reserves fullWrites) (.init smallCache)
      (inTurns [(firstCall, 5), (secondCall, 7)]) := by decide
  refine ⟨by decide, by decide, currentSize_le_of_reserves (by decide) ?_ (by decide)
    (Runs.reaches_get hallowed)⟩
  intro i key e hlookup
  cases hlookup

/-- Only the given call moves. -/
def Alone (i : Fin n) (_ : State n) (a : Action n) : Prop := a.call = i

theorem reaches_alone {i : Fin n} {d' : DiskCache} {phase phase' : Phase} (now : Int)
    (hstep : step writes (s.goOn i d phase) ⟨i, now⟩ = some (s.goOn i d' phase')) :
    Runs.Reaches (step writes) (Alone i) (s.goOn i d phase) (s.goOn i d' phase') :=
  .single ⟨⟨i, now⟩, rfl, hstep⟩

/-- A call on its own goes through the loop of `ensureSpace` as the loop does. -/
theorem reaches_ensureSpaceLoop (writes : Fin n → Write) (s : State n) (i : Fin n) {fuel : Nat}
    (hmax : d.maxSize ≠ 0) (hfuel : d.tracked < fuel) :
    Runs.Reaches (step writes) (Alone i) (s.goOn i d .checking)
      (s.goOn i (DiskCache.ensureSpaceLoop fuel d (writes i).size).2
        (if (DiskCache.ensureSpaceLoop fuel d (writes i).size).1 then .writingMeta
        else .finished)) := by
  induction fuel generalizing d with
  | zero => omega
  | succ fuel ih =>
    unfold DiskCache.ensureSpaceLoop
    by_cases hlarge : d.currentSize + (writes i).size > d.maxSize
    · have hcheck : Runs.Reaches (step writes) (Alone i) (s.goOn i d .checking)
          (s.goOn i d .evicting) := by
        refine reaches_alone 0 ?_
        simp [step, State.goOn, hmax, hlarge]
      rw [if_pos hlarge]
      cases hevict : d.evict with
      | none =>
        refine hcheck.trans (reaches_alone 0 ?_)
        simp [step, State.goOn, hevict]
      | some d' =>
        have hlt := DiskCache.tracked_lt_of_evict hevict
        have hevicted : Runs.Reaches (step writes) (Alone i) (s.goOn i d .evicting)
            (s.goOn i d' .checking) := by
          refine reaches_alone 0 ?_
          simp [step, State.goOn, hevict]
        obtain ⟨_, _, _, _, -, -, -, -, hd'⟩ := DiskCache.evict_spec hevict
        have hmax' : d'.maxSize ≠ 0 := by
          rw [hd']
          exact hmax
        exact (hcheck.trans hevicted).trans (ih hmax' (by omega))
    · rw [if_neg hlarge]
      refine reaches_alone 0 ?_
      simp [step, State.goOn, hlarge]

/-- A call on its own that was let through writes its files and puts its entry. -/
theorem reaches_writes (writes : Fin n → Write) (s : State n) (i : Fin n) (d : DiskCache) :
    Runs.Reaches (step writes) (Alone i) (s.goOn i d .writingMeta)
      (s.goOn i (if !(writes i).io.metaWritten then d
        else if !(writes i).io.bodyWritten then (writes i).withdraw d
        else ((writes i).writeFiles d).touch (writes i).now (writes i).key (writes i).size)
        .finished) := by
  cases hmeta : (writes i).io.metaWritten with
  | false =>
    refine reaches_alone (writes i).now ?_
    simp [step, State.goOn, hmeta]
  | true =>
    have hsidecar : Runs.Reaches (step writes) (Alone i) (s.goOn i d .writingMeta)
        (s.goOn i ((writes i).writeSidecar d) .writingBody) := by
      refine reaches_alone (writes i).now ?_
      simp [step, State.goOn, hmeta, Write.writeSidecar]
    refine hsidecar.trans ?_
    cases hbody : (writes i).io.bodyWritten with
    | false =>
      refine reaches_alone (writes i).now ?_
      simp [step, State.goOn, hbody, Write.withdraw, Write.writeSidecar]
    | true =>
      have hboth : Runs.Reaches (step writes) (Alone i)
          (s.goOn i ((writes i).writeSidecar d) .writingBody)
          (s.goOn i ((writes i).writeFiles d) .touching) := by
        refine reaches_alone (writes i).now ?_
        simp [step, State.goOn, hbody, Write.writeFiles, Write.writeSidecar]
      refine hboth.trans (reaches_alone (writes i).now ?_)
      simp [step, State.goOn]

/-- A call on its own makes space as `ensureSpace` does. -/
theorem reaches_ensureSpace (writes : Fin n → Write) (s : State n) (i : Fin n) (d : DiskCache) :
    Runs.Reaches (step writes) (Alone i) (s.goOn i d .checking)
      (s.goOn i (d.ensureSpace (writes i).size).2
        (if (d.ensureSpace (writes i).size).1 then .writingMeta else .finished)) := by
  unfold DiskCache.ensureSpace
  by_cases hmax : d.maxSize = 0
  · rw [if_pos hmax]
    refine reaches_alone 0 ?_
    simp [step, State.goOn, hmax]
  · rw [if_neg hmax]
    exact reaches_ensureSpaceLoop writes s i hmax (Nat.lt_succ_self _)

/-- A call on its own ends with the cache that `SetResponseToCache` leaves. -/
theorem reaches_run (writes : Fin n → Write) (s : State n) (i : Fin n)
    (hready : s.calls i = .ready) :
    Runs.Reaches (step writes) (Alone i) s
      (s.goOn i ((writes i).run s.cache).2 .finished) := by
  have hself : s.goOn i s.cache .ready = s := by
    simp [State.goOn, ← hready]
  have hstart : Runs.Reaches (step writes) (Alone i) (s.goOn i s.cache .ready) (s.goOn i s.cache
      (if DiskCache.storable (writes i).statusCode (writes i).body then .checking
      else .finished)) := by
    refine reaches_alone 0 ?_
    simp [step, State.goOn]
  rw [hself] at hstart
  have hspace := reaches_ensureSpace writes s i s.cache
  have hfiles := reaches_writes writes s i (s.cache.ensureSpace (writes i).size).2
  have hsize : ((writeMetadata (writes i).statusCode (writes i).host (writes i).path
      (writes i).headers).length + (writes i).body.length : Int) = (writes i).size := rfl
  unfold Write.run DiskCache.setResponseToCache
  cases hstorable : DiskCache.storable (writes i).statusCode (writes i).body with
  | false => simpa [hstorable] using hstart
  | true =>
    rw [hstorable, if_pos rfl] at hstart
    simp only [Bool.not_true, Bool.false_eq_true, if_false, hsize]
    generalize s.cache.ensureSpace (writes i).size = r at hspace hfiles
    obtain ⟨ok, d⟩ := r
    cases ok with
    | false => exact hstart.trans hspace
    | true =>
      refine (hstart.trans hspace).trans ?_
      cases hmeta : (writes i).io.metaWritten with
      | false =>
        rw [hmeta] at hfiles
        exact hfiles
      | true =>
        rw [hmeta] at hfiles
        cases hbody : (writes i).io.bodyWritten with
        | false | true =>
          rw [hbody] at hfiles
          exact hfiles

theorem fullWrites_alone : Runs.Reaches (step fullWrites) (Alone 0) (.init smallCache)
    ((State.init smallCache).goOn 0 ((fullWrites 0).run smallCache).2 .finished) :=
  reaches_run fullWrites (.init smallCache) 0 rfl

end Peretum.Cache.Writers
