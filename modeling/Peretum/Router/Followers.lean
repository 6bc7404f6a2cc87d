import Peretum.Router.SingleFlight

/-!
# What followers of a flight return

A follower gets nothing from the load it waited for but the wake-up: it reads the
cache, and reports a failure when the handler is no longer there. Requests are
watched here for the flight they followed and flights for the outcome of their load.
A follower shares the success of its flight as long as nobody takes the handler out
of the cache before it has read it.
-/

namespace Peretum.Router

open Cluster Function

variable {K D H : Type}

/-- A router, with what is remembered of its flights. -/
structure Watched (K D H : Type) where
  router : State K D H
  /-- The flights whose load returned a handler. -/
  succeeded : Nat → Bool
  /-- The flight each request joined as a follower. -/
  followed : Nat → Option Nat

/-- The flight a request is about to publish with a handler. -/
def Caller.offers : Caller K D H → Option Nat
  | .loaded _ call (some _) => some call
  | _ => none

/-- The flight a step publishes with a handler: a request with a handler to publish has
no other step. -/
def published (s : State K D H) : Action K D → Option Nat
  | .caller i _ => (s.callers i).offers
  | .event _ _ => none

/-- Nothing has happened yet. -/
def Watched.init (capacity : Int) (store : K → Option D) : Watched K D H :=
  ⟨State.init capacity store, fun _ => false, fun _ => none⟩

/-- A follower of a finished flight for the host has not yet read the cache. -/
def Awaited (s : State K D H) (key : K) : Prop :=
  ∃ i call, s.callers i = .waiting key call ∧ s.closes call ≠ 0

/-- The schedules that leave awaited handlers in the cache: no publication pushes one
out, and no event drops one. -/
def KeepsAwaited (w : Watched K D H) : Action K D → Prop
  | .caller i _ => ∀ key call result, w.router.callers i = .loaded key call (some result) →
      ∀ k, Awaited w.router k → ¬ w.router.lru.Evicts key k
  | .event e .dropHandler => ∀ host rest change, w.router.events e = .wrote host rest change →
      ¬ Awaited w.router host
  | _ => True

variable {w w' : Watched K D H} {i call : Nat} {build : D → Option H} {s t : State K D H}
  {p : Caller K D H} {a : CallerStep K}

/-- A request with nothing to publish pushes nothing out. -/
theorem keepsAwaited_of_offers (hnone : (w.router.callers i).offers = none) (a : CallerStep K) :
    KeepsAwaited w (.caller i a) := by
  intro key call result hi
  rw [hi] at hnone
  cases hnone

/-- The follower has a handler, or gave up waiting. -/
def SharesOrCanceled (result : Except FlightError H) : Prop :=
  result = .error .canceled ∨ ∃ h, result = .ok h

theorem Watched.followed_cases
    (hfollowed : w'.followed i = (w'.router.callers i).waitsOn.or (w.followed i))
    (hi : w'.followed i = some call) : (∃ key, w'.router.callers i = .waiting key call) ∨
      (w'.router.callers i).waitsOn = none ∧ w.followed i = some call := by
  rw [hfollowed] at hi
  cases hnow : (w'.router.callers i).waitsOn with
  | some call' =>
    rw [hnow, Option.some_or] at hi
    exact .inl (Caller.waitsOn_eq_some_iff.mp (hnow.trans hi))
  | none =>
    rw [hnow, Option.none_or] at hi
    exact .inr ⟨rfl, hi⟩

variable [DecidableEq K]

/-- One step of the router and what it adds to the memory. -/
def Watched.step (build : D → Option H) (w : Watched K D H) (a : Action K D) :
    Option (Watched K D H) :=
  (Router.step build w.router a).map fun t =>
    ⟨t, fun call => w.succeeded call || decide (published w.router a = some call),
      fun i => (t.callers i).waitsOn.or (w.followed i)⟩

/-- Every follower of a flight whose load returned a handler returns a handler, unless
it was canceled. -/
structure Watched.Shared (build : D → Option H) (w : Watched K D H) : Prop where
  returned : ∀ i call key result, w.followed i = some call → w.succeeded call →
    w.router.callers i = .done key result → SharesOrCanceled result
  /-- Followers that still wait: the wake-up is there and brings a handler. -/
  wakes : ∀ i call key, w.succeeded call → w.router.callers i = .waiting key call →
    ∃ t h, Router.step build w.router (.caller i .wake) = some t ∧ t.callers i = .done key (.ok h)

/-- The invariant behind it. -/
structure Watched.Kept (w : Watched K D H) : Prop where
  coalesced : Coalesced w.router
  closed : ∀ call, w.succeeded call → w.router.closes call ≠ 0
  cached : ∀ i key call, w.succeeded call → w.router.callers i = .waiting key call →
    (w.router.lru.find key).isSome
  /-- A follower waits, has given up, or has woken up and shares the outcome. -/
  follows : ∀ i call, w.followed i = some call → (∃ key, w.router.callers i = .waiting key call) ∨
    ∃ key result, w.router.callers i = .done key result ∧ (result = .error .canceled ∨
      w.router.closes call ≠ 0 ∧ (w.succeeded call → ∃ h, result = .ok h))

theorem Watched.Kept.init (capacity : Int) (store : K → Option D) :
    (Watched.init capacity store : Watched K D H).Kept := by
  refine ⟨Coalesced.init capacity store, ?_, ?_, ?_⟩
  all_goals simp [Watched.init, State.init]

theorem Watched.step_router {a : Action K D} (hstep : w.step build a = some w') :
    Router.step build w.router a = some w'.router ∧
      (∀ call, w'.succeeded call ↔ w.succeeded call ∨ published w.router a = some call) ∧
      ∀ i, w'.followed i = (w'.router.callers i).waitsOn.or (w.followed i) := by
  obtain ⟨t, ht, rfl⟩ := Option.map_eq_some_iff.mp hstep
  exact ⟨ht, fun call => by simp, fun i => rfl⟩

/-- Only the owner of a flight that succeeds stores anything in the cache. -/
theorem CallerMove.find (hmove : CallerMove s i p t) (hnone : p.offers = none) (k : K) :
    t.lru.find k = s.lru.find k := by
  cases hmove with
  | along lru hplain hfind hload hwait | join hfind hcall | claim hfind hfree => exact hfind k
  | @publish key call result r lru hput hkeep =>
    cases result with
    | none => exact congrArg (LRUCache.find · k) (hkeep rfl)
    | some result => cases hnone
  | wake hfind hclosed hresult => exact hfind k
  | cancel => rfl

/-- The owner of a flight that succeeds stores its handler and closes the channel. -/
theorem CallerMove.offers (hmove : CallerMove s i p t) (hoffer : p.offers = some call) :
    ∃ key data h, p = .loaded key call (some (data, h)) ∧ t.lru = s.lru.put key h ∧
      t.closes call ≠ 0 := by
  cases hmove with
  | along lru hplain hfind hload hwait =>
    cases p with
    | loaded key call result => exact hplain.elim
    | _ => cases hoffer
  | @publish key call' result r lru hput hkeep =>
    cases result with
    | none => cases hoffer
    | some result =>
      cases hoffer
      refine ⟨key, result.1, result.2, rfl, hput _ _ rfl, ?_⟩
      simp [State.setCaller]
  | _ => cases hoffer

theorem CallerMove.closes_ne_zero (hmove : CallerMove s i p t) (hclosed : s.closes call ≠ 0) :
    t.closes call ≠ 0 := by
  cases hmove with
  | @publish key call' result r lru hput hkeep =>
    by_cases hcall : call = call'
    · subst hcall
      simp [State.setCaller]
    · change update s.closes call' _ call ≠ 0
      rwa [update_of_ne hcall]
  | _ => exact hclosed

/-- A handler that is awaited stays in the cache when a request moves. -/
theorem find_isSome_of_move (hguard : KeepsAwaited w (.caller i a))
    (hmove : CallerMove w.router i (w.router.callers i) t) {key : K} (hawait : Awaited w.router key)
    (hfind : (w.router.lru.find key).isSome) : (t.lru.find key).isSome := by
  cases hoffer : (w.router.callers i).offers with
  | none => rwa [hmove.find hoffer]
  | some call =>
    obtain ⟨key', data, h, hp, hlru, -⟩ := hmove.offers hoffer
    rw [hlru]
    by_cases hkey : key = key'
    · subst hkey
      simp
    · rwa [LRUCache.find_put_of_not_evicts h hkey (hguard key' call _ hp key hawait)]

theorem Watched.Kept.open_of_published (hw : w.Kept)
    (hmove : CallerMove w.router i (w.router.callers i) t)
    (hpublished : published w.router (.caller i a) = some call) :
    ∃ key, (w.router.callers i).load = some (key, call) ∧ w.router.closes call = 0 := by
  obtain ⟨key, data, h, hp, -, -⟩ := hmove.offers hpublished
  have hload : (w.router.callers i).load = some (key, call) := by
    rw [hp]
    rfl
  exact ⟨key, hload, hw.coalesced.closes_eq_zero hload⟩

/-- The handler of a flight that succeeded is there for its followers after a request has
moved. -/
theorem Watched.Kept.cached_caller (hw : w.Kept) (hguard : KeepsAwaited w (.caller i a))
    (hstep : w.step build (.caller i a) = some w') {j : Nat} {key : K} (hcall : w'.succeeded call)
    (hj : w'.router.callers j = .waiting key call) : (w'.router.lru.find key).isSome := by
  obtain ⟨hrouter, hsucceeded, -⟩ := Watched.step_router hstep
  have hmove := callerStep_move hrouter
  obtain ⟨c, hcallers, hwait, -⟩ := hmove.callers
  rw [hcallers] at hj
  by_cases hji : j = i
  · -- Who joins now joins a flight that is still open.
    subst hji
    rw [update_self] at hj
    obtain ⟨hmissed, htable⟩ := hwait key call hj
    obtain ⟨q, closed, hq⟩ := (Flights.safe_of_reaches hw.coalesced.flights).owner key call htable
    have hzero := hw.coalesced.closes_eq_zero (Caller.flight_eq_some_iff.mp hq).1
    rcases (hsucceeded call).mp hcall with hold | hnew
    · exact absurd hzero (hw.closed call hold)
    · obtain ⟨key', hload, -⟩ := hw.open_of_published hmove hnew
      rw [hmissed] at hload
      cases hload
  · rw [update_of_ne hji] at hj
    rcases (hsucceeded call).mp hcall with hold | hnew
    · exact find_isSome_of_move hguard hmove ⟨j, call, hj, hw.closed call hold⟩
        (hw.cached j key call hold hj)
    · -- The handler has just been stored under the key the follower waits for.
      obtain ⟨key', data, h, hp, hlru, -⟩ := hmove.offers hnew
      obtain rfl := hw.coalesced.sameKey j key call hj i key' (by rw [hp]; rfl)
      rw [hlru]
      simp

/-- A follower waits, has given up, or shares the outcome after a request has moved. -/
theorem Watched.Kept.follows_caller (hw : w.Kept) (hstep : w.step build (.caller i a) = some w')
    {j : Nat} (hj : w'.followed j = some call) : (∃ key, w'.router.callers j = .waiting key call) ∨
      ∃ key result, w'.router.callers j = .done key result ∧ (result = .error .canceled ∨
        w'.router.closes call ≠ 0 ∧ (w'.succeeded call → ∃ h, result = .ok h)) := by
  obtain ⟨hrouter, hsucceeded, hfollowed⟩ := Watched.step_router hstep
  have hmove := callerStep_move hrouter
  obtain ⟨c, hcallers, -, hreturned, hwoken⟩ := hmove.callers
  rcases Watched.followed_cases (hfollowed j) hj with hwaits | ⟨hnow, hjoined⟩
  · exact .inl hwaits
  · right
    -- A finished flight does not succeed later.
    have hold : w'.succeeded call → w.router.closes call ≠ 0 → w.succeeded call := by
      intro hcall hclosed
      rcases (hsucceeded call).mp hcall with hbefore | hnew
      · exact hbefore
      · obtain ⟨-, -, hzero⟩ := hw.open_of_published hmove hnew
        exact absurd hzero hclosed
    rw [hcallers] at hnow ⊢
    rcases hw.follows j call hjoined with ⟨key, hwaited⟩ | ⟨key, result, hdone, hresult⟩
    · -- The follower stops waiting in this step.
      have hji : j = i := by
        by_contra hne
        rw [update_of_ne hne, hwaited] at hnow
        cases hnow
      subst hji
      obtain ⟨r, hc, hr⟩ := hwoken key call hwaited
      refine ⟨key, r, by rw [update_self, hc], ?_⟩
      rcases hr with hcancel | ⟨hclosed, hread⟩
      · exact .inl hcancel
      · refine .inr ⟨hmove.closes_ne_zero hclosed, fun hcall => ?_⟩
        obtain ⟨h, hfind⟩ :=
          Option.isSome_iff_exists.mp (hw.cached j key call (hold hcall hclosed) hwaited)
        exact ⟨h, hread h hfind⟩
    · -- The follower has returned before.
      have hji : j ≠ i := by
        rintro rfl
        exact hreturned key result hdone
      refine ⟨key, result, by rw [update_of_ne hji, hdone], ?_⟩
      rcases hresult with hcancel | ⟨hclosed, hshare⟩
      · exact .inl hcancel
      · exact .inr ⟨hmove.closes_ne_zero hclosed, fun hcall => hshare (hold hcall hclosed)⟩

theorem Watched.Kept.caller (hw : w.Kept) (hguard : KeepsAwaited w (.caller i a))
    (hstep : w.step build (.caller i a) = some w') : w'.Kept := by
  obtain ⟨hrouter, hsucceeded, -⟩ := Watched.step_router hstep
  have hmove := callerStep_move hrouter
  refine ⟨hw.coalesced.step _ _ _ hrouter, ?_, fun j key call => hw.cached_caller hguard hstep,
    fun j call => hw.follows_caller hstep⟩
  intro call hcall
  rcases (hsucceeded call).mp hcall with hold | hnew
  · exact hmove.closes_ne_zero (hw.closed call hold)
  · obtain ⟨-, -, -, -, -, hclosed⟩ := hmove.offers hnew
    exact hclosed

theorem Watched.Kept.event (hw : w.Kept) {e : Nat} {a : EventStep K D}
    (hguard : KeepsAwaited w (.event e a)) (hstep : w.step build (.event e a) = some w') :
    w'.Kept := by
  obtain ⟨hrouter, hsucceeded, hfollowed⟩ := Watched.step_router hstep
  obtain ⟨hflights, hcallers⟩ := eventStep_flights hrouter
  have hcloses : w'.router.closes = w.router.closes := congrArg Flights.State.closes hflights
  have hsame : ∀ call, w'.succeeded call = w.succeeded call := by
    intro call
    rw [Bool.eq_iff_iff, hsucceeded call]
    simp [published]
  refine ⟨hw.coalesced.step _ _ _ hrouter, ?_, ?_, ?_⟩
  · intro call hcall
    rw [hcloses]
    exact hw.closed call (hsame call ▸ hcall)
  · intro i key call hcall hi
    rw [hsame] at hcall
    rw [hcallers] at hi
    have hfind := hw.cached i key call hcall hi
    obtain ⟨-, p', -, hcases⟩ := eventStep_cases hrouter
    rcases hcases with ⟨-, hlru, -⟩ | ⟨-, -, -, hlru, -⟩ | ⟨host, rest, change, rfl, hp, -, hlru⟩
    · rwa [hlru]
    · rwa [hlru]
    · have hne : key ≠ host := by
        rintro rfl
        exact hguard key rest change hp ⟨i, call, hi, hw.closed call hcall⟩
      rw [hlru, LRUCache.find_delete, if_neg hne]
      exact hfind
  · intro i call hi
    rcases Watched.followed_cases (hfollowed i) hi with hwaits | ⟨-, hjoined⟩
    · exact .inl hwaits
    · rw [hcallers, hcloses, hsame]
      exact hw.follows i call hjoined

theorem kept_of_reaches {capacity : Int} {store : K → Option D}
    (hreach : Runs.Reaches (Watched.step build) KeepsAwaited (Watched.init capacity store) w) :
    w.Kept := by
  refine hreach.invariant (fun w a w' hw hguard hstep => ?_) (Watched.Kept.init capacity store)
  cases a with
  | caller i a => exact hw.caller hguard hstep
  | event e a => exact hw.event hguard hstep

/-- In every run in which no publication pushes out and no event drops a handler before
the followers of its flight have read it, every follower of a load that returned a
handler returns a handler, unless it was canceled. -/
theorem shared_of_keepsAwaited {build : D → Option H} {capacity : Int} {store : K → Option D}
    {w : Watched K D H}
    (hreach : Runs.Reaches (Watched.step build) KeepsAwaited (Watched.init capacity store) w) :
    w.Shared build := by
  have hw := kept_of_reaches hreach
  constructor
  · intro i call key result hfollowed hsucceeded hi
    rcases hw.follows i call hfollowed with ⟨key', hwaits⟩ | ⟨key', result', hdone, hresult⟩
    · rw [hi] at hwaits
      cases hwaits
    · obtain ⟨-, rfl⟩ : key = key' ∧ result = result' := by simpa [hi] using hdone
      rcases hresult with hcancel | ⟨-, hshare⟩
      · exact .inl hcancel
      · exact .inr (hshare hsucceeded)
  · intro i call key hsucceeded hi
    obtain ⟨h, hfind⟩ := Option.isSome_iff_exists.mp (hw.cached i key call hsucceeded hi)
    have hclosed := hw.closed call hsucceeded
    refine ⟨(w.router.touched key).setCaller i (.done key (.ok h)), h, ?_, ?_⟩
    · simp only [Router.step, hi, callerStep, if_neg hclosed, LRUCache.get_fst, hfind]
    · exact update_self ..

/-- A store with two hosts. -/
def twoHosts (host : Go.Str) : Option Go.Str :=
  if host = Go.str "b.example" then some (Go.str "v1") else oneHost host

/-- A second request joins the load of the first. -/
def joinRequest : List (Action Go.Str Go.Str) :=
  openRequest 0 ++ [.caller 1 (.resolve (Go.str "a.example")), .caller 1 .lookup, .caller 1 .enter]

/-- A request for the other host, up to its publication. -/
def otherRequest : List (Action Go.Str Go.Str) :=
  [.caller 2 (.resolve (Go.str "b.example")), .caller 2 .lookup, .caller 2 .enter,
    .caller 2 .readStore, .caller 2 .compile, .caller 2 .publish]

/-- With room for one handler, the other host pushes the handler out before the follower
wakes up. -/
def pushedOutState : Watched Go.Str Go.Str Go.Str :=
  (Runs.exec (Watched.step some) (Watched.init 1 twoHosts)
    (joinRequest ++ closeRequest 0 ++ otherRequest ++ [.caller 1 .wake])).get (by decide)

/-- An update drops the handler before the follower wakes up. -/
def droppedState : Watched Go.Str Go.Str Go.Str :=
  (Runs.exec (Watched.step some) (Watched.init 8 twoHosts)
    (joinRequest ++ closeRequest 0 ++ updateHost ++ [.caller 1 .wake])).get (by decide)

/-- In both runs the load returned a handler and its follower, which was not canceled,
reports that the materialization failed. -/
theorem pushedOut_and_dropped_not_shared :
    (Runs.Reaches (Watched.step some) Runs.Unrestricted (Watched.init 1 twoHosts) pushedOutState ∧
      pushedOutState.router.callers 0 = .done (Go.str "a.example") (.ok (Go.str "v1")) ∧
      pushedOutState.router.callers 1 = .done (Go.str "a.example") (.error .materializeFailed) ∧
      ¬ pushedOutState.Shared some) ∧
    Runs.Reaches (Watched.step some) Runs.Unrestricted (Watched.init 8 twoHosts) droppedState ∧
      droppedState.router.callers 0 = .done (Go.str "a.example") (.ok (Go.str "v1")) ∧
      droppedState.router.callers 1 = .done (Go.str "a.example") (.error .materializeFailed) ∧
      ¬ droppedState.Shared some := by
  have hfailed : ¬ SharesOrCanceled (.error .materializeFailed : Except FlightError Go.Str) := by
    simp [SharesOrCanceled]
  refine ⟨⟨Runs.reaches_exec _,
    rfl, rfl, ?_⟩, Runs.reaches_exec _, rfl, rfl, ?_⟩
  · intro hshared
    exact hfailed (hshared.returned 1 0 _ _ rfl rfl rfl)
  · intro hshared
    exact hfailed (hshared.returned 1 0 _ _ rfl rfl rfl)

/-- The follower wakes up at once. -/
def sharedState : Watched Go.Str Go.Str Go.Str :=
  (Runs.exec (Watched.step some) (Watched.init 1 twoHosts)
    (joinRequest ++ closeRequest 0 ++ [.caller 1 .wake])).get (by decide)

theorem sharedState_admitted : Runs.Admitted (Watched.step some) KeepsAwaited
    (Watched.init 1 twoHosts) (joinRequest ++ closeRequest 0 ++ [.caller 1 .wake]) := by
  refine .cons (keepsAwaited_of_offers rfl _) rfl (.cons (keepsAwaited_of_offers rfl _) rfl
    (.cons (keepsAwaited_of_offers rfl _) rfl (.cons (keepsAwaited_of_offers rfl _) rfl
    (.cons (keepsAwaited_of_offers rfl _) rfl (.cons (keepsAwaited_of_offers rfl _) rfl
    (.cons (keepsAwaited_of_offers rfl _) rfl (.cons (keepsAwaited_of_offers rfl _) rfl
    (.cons ?_ rfl (.cons (keepsAwaited_of_offers rfl _) rfl trivial)))))))))
  -- No flight is finished when the load publishes, so nobody awaits a handler yet.
  rintro key call result - k ⟨i, call', -, hclosed⟩
  exact absurd rfl hclosed

/-- The follower of the load then has its handler. -/
theorem sharedState_shared : sharedState.Shared some ∧
    sharedState.followed 1 = some 0 ∧ sharedState.succeeded 0 = true ∧
    sharedState.router.callers 1 = .done (Go.str "a.example") (.ok (Go.str "v1")) :=
  ⟨shared_of_keepsAwaited (Runs.reaches_get sharedState_admitted),
    rfl, rfl, rfl⟩

end Peretum.Router
