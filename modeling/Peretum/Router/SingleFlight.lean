import Peretum.Flights
import Peretum.Router.Flight

/-!
# The flight table runs one load for each host

`FlightTable.materialize` claims a flight under its mutex, loads without it and
publishes under it again. Here the requests are shown to follow the single-flight
protocol: a load that is claimed and not published is an owned flight, and its
publication closes the channel and takes the flight off the table in one step. A
panic of the load counts as a failed load, because `runLoad` recovers from it.
-/

namespace Peretum.Router

open Cluster Function

variable {K D H : Type}

/-- The key and the channel of a load that is claimed and not yet published. -/
def Caller.load : Caller K D H → Option (K × Nat)
  | .claimed key call | .loading key call _ | .loaded key call _ => some (key, call)
  | _ => none

/-- The flight a request owns. -/
def Caller.flight (c : Caller K D H) : Option (Flights.Flight K) :=
  c.load.map fun l => ⟨l.1, l.2, false⟩

variable {c p : Caller K D H} {s t : State K D H} {i call : Nat} {build : D → Option H} {key : K}

theorem Caller.flight_eq_some_iff {f : Flights.Flight K} :
    c.flight = some f ↔ c.load = some (f.key, f.channel) ∧ f.closed = false := by
  unfold Caller.flight
  constructor
  · intro h
    obtain ⟨l, hl, rfl⟩ := Option.map_eq_some_iff.mp h
    exact ⟨hl, rfl⟩
  · rintro ⟨hload, hclosed⟩
    rw [hload, Option.map_some, ← hclosed]

/-- The table as the single-flight protocol sees it. -/
def State.flights (s : State K D H) : Flights.State Nat K :=
  ⟨s.calls, s.nextCall, s.closes, fun i => (s.callers i).flight⟩

theorem State.flights_setCaller (s : State K D H) (i : Nat) (c : Caller K D H) :
    (s.setCaller i c).flights =
      { s.flights with owned := update s.flights.owned i c.flight } := by
  have howned : (fun j => (update s.callers i c j).flight) =
      update (fun j => (s.callers j).flight) i c.flight := by
    funext j
    exact Function.apply_update (fun _ c => Caller.flight c) s.callers i c j
  simp only [State.flights, State.setCaller, howned]

/-- Moving a request without claiming or publishing changes no flight. -/
theorem State.flights_setCaller_eq (hflight : c.flight = (s.callers i).flight) :
    (s.setCaller i c).flights = s.flights := by
  have howned : s.flights.owned i = c.flight := hflight.symm
  rw [State.flights_setCaller, ← howned, update_eq_self]

/-- The flight a request waits for. -/
def Caller.waitsOn : Caller K D H → Option Nat
  | .waiting _ call => some call
  | _ => none

theorem Caller.waitsOn_eq_some_iff : c.waitsOn = some call ↔ ∃ key, c = .waiting key call := by
  cases c <;> simp [Caller.waitsOn]

/-- The request has not returned, waits for nobody and has no result to publish. -/
def Caller.Plain : Caller K D H → Prop
  | .idle | .resolved _ | .missed _ | .claimed .. | .loading .. => True
  | _ => False

variable [DecidableEq K]

/-- Everything a step of a request can do. -/
inductive CallerMove (s : State K D H) (i : Nat) : Caller K D H → State K D H → Prop where
  /-- Go on alone, after a look into the cache at most. -/
  | along {p c : Caller K D H} (lru : LRUCache K H) (hplain : p.Plain)
      (hfind : ∀ k, lru.find k = s.lru.find k) (hload : c.load = p.load)
      (hwait : c.waitsOn = none) : CallerMove s i p ({ s with lru := lru }.setCaller i c)
  | join {key : K} {call : Nat} {lru : LRUCache K H} (hfind : ∀ k, lru.find k = s.lru.find k)
      (hcall : s.calls key = some call) :
      CallerMove s i (.missed key) ({ s with lru := lru }.setCaller i (.waiting key call))
  | claim {key : K} {lru : LRUCache K H} (hfind : ∀ k, lru.find k = s.lru.find k)
      (hfree : s.calls key = none) :
      CallerMove s i (.missed key) ({ s with
        lru := lru
        calls := update s.calls key (some s.nextCall)
        nextCall := s.nextCall + 1 }.setCaller i (.claimed key s.nextCall))
  | publish {key : K} {call : Nat} {result : Option (D × H)} {r : Except FlightError H}
      {lru : LRUCache K H} (hput : ∀ data h, result = some (data, h) → lru = s.lru.put key h)
      (hkeep : result = none → lru = s.lru) :
      CallerMove s i (.loaded key call result) ({ s with
        lru := lru
        calls := update s.calls key none
        closes := update s.closes call (s.closes call + 1) }.setCaller i (.done key r))
  | wake {key : K} {call : Nat} {r : Except FlightError H} {lru : LRUCache K H}
      (hfind : ∀ k, lru.find k = s.lru.find k) (hclosed : s.closes call ≠ 0)
      (hresult : ∀ h, s.lru.find key = some h → r = .ok h) :
      CallerMove s i (.waiting key call) ({ s with lru := lru }.setCaller i (.done key r))
  /-- Give up waiting. -/
  | cancel {key : K} {call : Nat} :
      CallerMove s i (.waiting key call) (s.setCaller i (.done key (.error .canceled)))

theorem callerStep_move {a : CallerStep K} (hstep : callerStep build s i p a = some t) :
    CallerMove s i p t := by
  unfold callerStep at hstep
  split at hstep
  case h_1 key =>
    cases hstep
    exact .along s.lru trivial (fun _ => rfl) (by split <;> rfl) (by split <;> rfl)
  case h_2 key =>
    split at hstep <;> cases hstep <;>
      exact .along _ trivial (LRUCache.find_get s.lru key) rfl rfl
  case h_3 key =>
    split at hstep
    · cases hstep
      exact .along _ trivial (LRUCache.find_get s.lru key) rfl rfl
    · next call _ hcall =>
      cases hstep
      exact .join (LRUCache.find_get s.lru key) hcall
    · next hfree =>
      cases hstep
      exact .claim (LRUCache.find_get s.lru key) hfree
  case h_4 key call =>
    split at hstep <;> cases hstep <;>
      exact .along s.lru trivial (fun _ => rfl) rfl rfl
  case h_8 key call result =>
    cases hstep
    exact .publish (by rintro data h rfl; rfl) (by rintro rfl; rfl)
  case h_9 key call =>
    split at hstep
    · cases hstep
    · next hclosed =>
      split at hstep <;> cases hstep <;>
        refine .wake (LRUCache.find_get s.lru key) hclosed ?_
      · next h hget =>
        intro h' hfind
        rw [← LRUCache.get_fst, hget] at hfind
        rw [Option.some.inj hfind]
      · next hget =>
        intro h' hfind
        rw [← LRUCache.get_fst, hget] at hfind
        cases hfind
  case h_10 key call =>
    cases hstep
    exact .cancel
  case h_11 => cases hstep
  all_goals
    cases hstep
    exact .along s.lru trivial (fun _ => rfl) rfl rfl

/-- A step of a request moves this request only. It starts to wait on a flight that is
on the table, and stops waiting when it gives up or finds its flight finished. -/
theorem CallerMove.callers (hmove : CallerMove s i p t) :
    ∃ c, t.callers = update s.callers i c ∧
      (∀ key call, c = .waiting key call → p = .missed key ∧ s.calls key = some call) ∧
      (∀ key r, p ≠ .done key r) ∧
      ∀ key call, p = .waiting key call → ∃ r, c = .done key r ∧ (r = .error .canceled ∨
        s.closes call ≠ 0 ∧ ∀ h, s.lru.find key = some h → r = .ok h) := by
  cases hmove with
  | along lru hplain hfind hload hwait =>
    refine ⟨_, rfl, ?_, ?_, ?_⟩
    · rintro key call rfl
      cases hwait
    · rintro key r rfl
      exact hplain
    · rintro key call rfl
      exact hplain.elim
  | join hfind hcall =>
    refine ⟨_, rfl, ?_, by simp, by simp⟩
    rintro key call ⟨⟩
    exact ⟨rfl, hcall⟩
  | claim hfind hfree | publish hput hkeep => exact ⟨_, rfl, by simp, by simp, by simp⟩
  | wake hfind hclosed hresult =>
    refine ⟨_, rfl, by simp, by simp, ?_⟩
    rintro key call ⟨⟩
    exact ⟨_, rfl, .inr ⟨hclosed, hresult⟩⟩
  | cancel =>
    refine ⟨_, rfl, by simp, by simp, ?_⟩
    rintro key call ⟨⟩
    exact ⟨_, rfl, .inl rfl⟩

/-- Publishing closes the channel of the owned flight and takes the flight off the table. -/
theorem reaches_publish {result : Option (D × H)} (hp : s.callers i = .loaded key call result)
    (lru : LRUCache K H) (hc : c.flight = none) :
    Runs.Reaches Flights.step Runs.Unrestricted s.flights
      ({ s with
        lru := lru
        calls := update s.calls key none
        closes := update s.closes call (s.closes call + 1) }.setCaller i c).flights := by
  have howned : s.flights.owned i = some ⟨key, call, false⟩ := by
    simp [State.flights, hp, Caller.flight, Caller.load]
  let closed : Flights.State Nat K := { s.flights with
    closes := update s.closes call (s.closes call + 1)
    owned := update s.flights.owned i (some ⟨key, call, true⟩) }
  have hclose : Runs.Reaches Flights.step Runs.Unrestricted s.flights closed :=
    Flights.reaches_close howned rfl rfl rfl rfl
  refine hclose.trans (Flights.reaches_remove (update_self ..) rfl rfl rfl ?_)
  rw [State.flights_setCaller, hc]
  exact (update_idem ..).symm

theorem CallerMove.flights (hp : s.callers i = p) (hmove : CallerMove s i p t) :
    Runs.Reaches Flights.step Runs.Unrestricted s.flights t.flights := by
  -- Most steps only move the request, after a look into the cache at most.
  have hlevel : ∀ (lru : LRUCache K H) (c : Caller K D H), c.load = p.load →
      Runs.Reaches Flights.step Runs.Unrestricted s.flights
        ({ s with lru := lru }.setCaller i c).flights := by
    intro lru c hload
    have heq : ({ s with lru := lru }.setCaller i c).flights = s.flights :=
      State.flights_setCaller_eq (s := { s with lru := lru }) (by
        rw [Caller.flight, hload, ← hp, Caller.flight])
    rw [heq]
    exact .refl
  cases hmove with
  | along lru hplain hfind hload hwait => exact hlevel _ _ hload
  | join hfind hcall => exact hlevel _ _ rfl
  | claim hfind hfree =>
    have hnone : s.flights.owned i = none := by
      simp [State.flights, hp, Caller.flight, Caller.load]
    refine Flights.reaches_claim hfree hnone rfl rfl rfl ?_
    rw [State.flights_setCaller]
    rfl
  | publish hput hkeep => exact reaches_publish hp _ rfl
  | wake hfind hclosed hresult => exact hlevel _ _ rfl
  | cancel => exact hlevel s.lru _ rfl

theorem eventStep_flights {e : Nat} {p : Event K D} {a : EventStep K D}
    (hstep : eventStep s e p a = some t) : t.flights = s.flights ∧ t.callers = s.callers := by
  unfold eventStep at hstep
  split at hstep
  case h_6 => cases hstep
  all_goals
    cases hstep
    exact ⟨rfl, rfl⟩

/-- The requests follow the single-flight protocol, and followers wait on flights that
were claimed for their key. -/
structure Coalesced (s : State K D H) : Prop where
  flights : Runs.Reaches Flights.step Runs.Unrestricted .init s.flights
  joined : ∀ i key call, s.callers i = .waiting key call → call < s.nextCall
  sameKey : ∀ i key call, s.callers i = .waiting key call →
    ∀ j key', (s.callers j).load = some (key', call) → key' = key

/-- A follower that is joined stays joined while the flights go on. -/
theorem Coalesced.joined_after (hs : Coalesced s)
    (hrun : Runs.Reaches Flights.step Runs.Unrestricted s.flights t.flights)
    (hi : s.callers i = .waiting key call ∨ s.calls key = some call) :
    call < t.nextCall ∧ ∀ j key', (t.callers j).load = some (key', call) → key' = key := by
  have hsafe := Flights.safe_of_reaches hs.flights
  -- Whoever has the channel before the run has it for the key.
  have hbefore : call < s.nextCall ∧
      ∀ q g, s.flights.owned q = some g → g.channel = call → g.key = key := by
    rcases hi with hwait | hcall
    · refine ⟨hs.joined i key call hwait, ?_⟩
      rintro q g hg rfl
      exact hs.sameKey i key _ hwait q g.key (Caller.flight_eq_some_iff.mp hg).1
    · obtain ⟨p, closed, hp⟩ := hsafe.owner key call hcall
      refine ⟨hsafe.allocated p _ hp, ?_⟩
      intro q g hg hchannel
      obtain rfl := hsafe.unique q p g _ hg hp hchannel
      rw [hg] at hp
      rw [Option.some.inj hp]
  have hle : s.nextCall ≤ t.nextCall := Flights.next_le_of_reaches hrun
  refine ⟨by omega, ?_⟩
  intro j key' hload
  have hf : t.flights.owned j = some ⟨key', call, false⟩ :=
    Caller.flight_eq_some_iff.mpr ⟨hload, rfl⟩
  obtain ⟨q, g, hg, hkey, hchannel⟩ := Flights.owned_of_reaches hrun hf hbefore.1
  exact hkey.symm.trans (hbefore.2 q g hg hchannel)

theorem Coalesced.step (s : State K D H) (a : Action K D) (t : State K D H) (hs : Coalesced s)
    (hstep : Router.step build s a = some t) : Coalesced t := by
  cases a with
  | caller i a =>
    have hmove := callerStep_move hstep
    have hrun := hmove.flights rfl
    obtain ⟨c, hcallers, hwait, -⟩ := hmove.callers
    have hjoined : ∀ j key call, t.callers j = .waiting key call → call < t.nextCall ∧
        ∀ k key', (t.callers k).load = some (key', call) → key' = key := by
      intro j key call hj
      refine hs.joined_after (i := j) hrun ?_
      rw [hcallers] at hj
      by_cases hji : j = i
      · subst hji
        rw [update_self] at hj
        exact .inr (hwait key call hj).2
      · rw [update_of_ne hji] at hj
        exact .inl hj
    exact ⟨hs.flights.trans hrun, fun j key call hj => (hjoined j key call hj).1,
      fun j key call hj => (hjoined j key call hj).2⟩
  | event e a =>
    obtain ⟨hflights, hcallers⟩ := eventStep_flights hstep
    have hnext : t.nextCall = s.nextCall := congrArg Flights.State.next hflights
    refine ⟨hflights ▸ hs.flights, ?_, ?_⟩
    · rw [hcallers, hnext]
      exact hs.joined
    · rw [hcallers]
      exact hs.sameKey

theorem Coalesced.init (capacity : Int) (store : K → Option D) :
    Coalesced (State.init capacity store : State K D H) := by
  refine ⟨.refl, ?_, ?_⟩
  · intro i key call hi
    cases hi
  · intro i key call hi
    cases hi

theorem Coalesced.closes_eq_zero (hs : Coalesced s)
    (hload : (s.callers i).load = some (key, call)) : s.closes call = 0 :=
  (Flights.safe_of_reaches hs.flights).closes i ⟨key, call, false⟩
    (Caller.flight_eq_some_iff.mpr ⟨hload, rfl⟩)

theorem coalesced_of_reaches {capacity : Int} {store : K → Option D}
    (hreach : Runs.Reaches (step build) Runs.Unrestricted (State.init capacity store) s) :
    Coalesced s :=
  hreach.invariant (fun s a t hs _ hstep => Coalesced.step s a t hs hstep)
    (Coalesced.init capacity store)

variable (build : D → Option H)

/-- A load can always be brought to its publication by its own steps. -/
theorem exists_publish (hload : (s.callers i).load = some (key, call)) :
    ∃ t, Runs.Reaches (step build) Runs.Unrestricted s t ∧ (t.callers i).load = none ∧
      t.closes call = s.closes call + 1 := by
  -- A load that has returned is published; the others may fail before that.
  have hpublish : ∀ (s : State K D H) result, s.callers i = .loaded key call result →
      ∃ t, step build s (.caller i .publish) = some t ∧ (t.callers i).load = none ∧
        t.closes call = s.closes call + 1 := by
    intro s result hi
    refine ⟨_, by simp only [step, hi, callerStep]; rfl, ?_, ?_⟩
    · simp [State.setCaller, Caller.load]
    · simp [State.setCaller]
  have hfail : ∀ c, s.callers i = c → callerStep build s i c .failLoad =
      some (s.setCaller i (.loaded key call none)) → ∃ t,
        Runs.Reaches (step build) Runs.Unrestricted s t ∧ (t.callers i).load = none ∧
          t.closes call = s.closes call + 1 := by
    intro c hi hstep
    obtain ⟨t, hnext, ht⟩ := hpublish (s.setCaller i (.loaded key call none)) none
      (update_self ..)
    have hfirst : step build s (.caller i .failLoad) =
        some (s.setCaller i (.loaded key call none)) := by
      simp only [step, hi, hstep]
    exact ⟨t, (Runs.Reaches.of_step trivial hfirst).trans (Runs.Reaches.of_step trivial hnext), ht⟩
  cases hi : s.callers i with
  | claimed k c | loading k c data =>
    obtain ⟨rfl, rfl⟩ : k = key ∧ c = call := by simpa [hi, Caller.load] using hload
    exact hfail _ hi rfl
  | loaded k c result =>
    obtain ⟨rfl, rfl⟩ : k = key ∧ c = call := by simpa [hi, Caller.load] using hload
    obtain ⟨t, hnext, ht⟩ := hpublish s result hi
    exact ⟨t, Runs.Reaches.of_step trivial hnext, ht⟩
  | _ => exact absurd hload (by simp [hi, Caller.load])

theorem wake_isSome (hi : s.callers i = .waiting key call) (hclosed : s.closes call ≠ 0) :
    (step build s (.caller i .wake)).isSome := by
  simp only [step, hi, callerStep, if_neg hclosed]
  split <;> rfl

/-- Single-flight safety of a router. -/
structure SingleFlight (s : State K D H) : Prop where
  unique : ∀ i j key call call', (s.callers i).load = some (key, call) →
    (s.callers j).load = some (key, call') → i = j
  /-- The table has the loads that are claimed and not yet published, and no others. -/
  present : ∀ key call, s.calls key = some call ↔ ∃ i, (s.callers i).load = some (key, call)
  opened : ∀ i key call, (s.callers i).load = some (key, call) → s.closes call = 0
  closed : ∀ call, call < s.nextCall → (∀ i key, (s.callers i).load ≠ some (key, call)) →
    s.closes call = 1
  /-- A load can be brought to its publication, which closes its channel. -/
  finishes : ∀ i key call, (s.callers i).load = some (key, call) → ∃ t,
    Runs.Reaches (step build) Runs.Unrestricted s t ∧ (t.callers i).load = none ∧ t.closes call = 1
  /-- A follower whose flight has no running load can go on. -/
  proceeds : ∀ i key call, s.callers i = .waiting key call →
    (∀ j key', (s.callers j).load ≠ some (key', call)) → (step build s (.caller i .wake)).isSome

/-- For any number of requests and events over any keys, in every interleaving, the
flight table runs at most one load for a key, has a flight exactly while its load is
claimed and not published, closes every channel once and loses no wake-up. -/
theorem singleFlight_of_reaches {build : D → Option H} {capacity : Int} {store : K → Option D}
    {s : State K D H}
    (hreach : Runs.Reaches (step build) Runs.Unrestricted (State.init capacity store) s) :
    SingleFlight build s := by
  have hs := coalesced_of_reaches hreach
  have hsafe := Flights.safe_of_reaches hs.flights
  have howned : ∀ i key call, (s.callers i).load = some (key, call) →
      s.flights.owned i = some ⟨key, call, false⟩ :=
    fun i key call hload => Caller.flight_eq_some_iff.mpr ⟨hload, rfl⟩
  refine ⟨?_, ?_, fun i key call => hs.closes_eq_zero, ?_, ?_, ?_⟩
  · intro i j key call call' hi hj
    exact hsafe.owner_unique (howned i key call hi) (howned j key call' hj) rfl
  · intro key call
    constructor
    · intro hcall
      obtain ⟨i, closed, hi⟩ := hsafe.owner key call hcall
      exact ⟨i, (Caller.flight_eq_some_iff.mp hi).1⟩
    · rintro ⟨i, hload⟩
      exact hsafe.tabled i _ (howned i key call hload)
  · intro call hlt hnone
    refine hsafe.left call hlt fun i f hf heq => ?_
    exact hnone i f.key (heq ▸ (Caller.flight_eq_some_iff.mp hf).1)
  · intro i key call hload
    obtain ⟨t, hrun, hdone, hcloses⟩ := exists_publish build hload
    rw [hs.closes_eq_zero hload] at hcloses
    exact ⟨t, hrun, hdone, hcloses⟩
  · intro i key call hi hnone
    refine wake_isSome build hi fun hopen => ?_
    obtain ⟨j, f, hf, rfl, -⟩ := hsafe.exists_owner (hs.joined i key call hi) hopen
    exact hnone j f.key (Caller.flight_eq_some_iff.mp hf).1

/-- A second request joins the load of the first, which then publishes. -/
def joinedState : State Go.Str Go.Str Go.Str :=
  (Runs.exec (step some) (State.init 8 oneHost)
    (openRequest 0 ++ [.caller 1 (.resolve (Go.str "a.example")), .caller 1 .lookup,
      .caller 1 .enter] ++ closeRequest 0)).get (by decide)

/-- After the load is published its channel is closed and the follower can go on. -/
theorem joinedState_singleFlight : SingleFlight some joinedState ∧
    joinedState.callers 1 = .waiting (Go.str "a.example") 0 ∧ joinedState.closes 0 = 1 ∧
    joinedState.calls (Go.str "a.example") = none :=
  ⟨singleFlight_of_reaches (Runs.reaches_exec _), rfl, rfl, rfl⟩

end Peretum.Router
