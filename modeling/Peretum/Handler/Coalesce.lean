import Peretum.Flights
import Peretum.Handler.Serve

/-!
# Requests for one key share a flight

The owner of a flight leaves `ServeHTTP` through a deferred function that looks its
key up again, closes the flight it finds and deletes the key, while other requests
may join or start flights between these steps. The requests are shown to follow the
single-flight protocol, on every way out: what the deferred function finds is always
the flight of the owner.
-/

namespace Peretum.Handler

open Go Cache Function

/-- The flight a request owns, and whether it has closed the channel. -/
def Phase.flight : Phase → Option (Flights.Flight (Nat × Key))
  | .fetching job (some flight) | .proxied job (some flight) _ | .written job (some flight)
  | .leaving job flight | .closing job flight _ => some ⟨job.flightKey, flight, false⟩
  | .deleting job flight => some ⟨job.flightKey, flight, true⟩
  | _ => none

/-- The flights as the single-flight protocol sees them. -/
def State.flights (s : State) : Flights.State Nat (Nat × Key) :=
  ⟨s.flightMu, s.next, s.closes, fun i => (s.requests i).flight⟩

variable {s t : State} {i flight : Nat} {p' p : Phase} {job : Job}

theorem State.owned_of_requests (hrequests : t.requests = update s.requests i p') :
    t.flights.owned = update s.flights.owned i p'.flight := by
  funext j
  change (t.requests j).flight = _
  rw [hrequests]
  exact Function.apply_update (fun _ p => Phase.flight p) s.requests i p' j

/-- What a step of a request does to the flights. -/
inductive FlightMove (s t : State) (p p' : Phase) : Prop where
  /-- Nothing. Who starts to wait does so on the flight in the table, and the deferred
  function finds the flight in the table. -/
  | level (hmu : t.flightMu = s.flightMu) (hnext : t.next = s.next) (hcloses : t.closes = s.closes)
      (hflight : p'.flight = p.flight)
      (hwaits : ∀ job flight, p' = .waiting job flight → s.flightMu job.flightKey = some flight)
      (hfinds : ∀ job flight found, p' = .closing job flight found →
        s.flightMu job.flightKey = some found)
  | claim {job : Job} (hp : p = .joining job) (hfree : s.flightMu job.flightKey = none)
      (hp' : p' = .fetching job (some s.next))
      (hmu : t.flightMu = update s.flightMu job.flightKey (some s.next))
      (hnext : t.next = s.next + 1) (hcloses : t.closes = s.closes)
  | close {job : Job} {flight found : Nat} (hp : p = .closing job flight found)
      (hp' : p' = .deleting job flight) (hmu : t.flightMu = s.flightMu) (hnext : t.next = s.next)
      (hcloses : t.closes =
        if s.closes found = 0 then update s.closes found 1 else s.closes)
  | delete {job : Job} {flight : Nat} (hp : p = .deleting job flight) (hp' : p' = .done)
      (hmu : t.flightMu = update s.flightMu job.flightKey none) (hnext : t.next = s.next)
      (hcloses : t.closes = s.closes)
  | lost {job : Job} {flight : Nat} (hp : p = .leaving job flight)
      (hnone : s.flightMu job.flightKey = none)

theorem Phase.flight_finish (job : Job) (flight : Option Nat) :
    (Phase.finish job flight).flight = (Phase.fetching job flight).flight := by
  cases flight <;> rfl

variable {sha : Str → Key} {handlers : Nat → TargetHandler}

theorem FlightMove.of_flight (hmu : t.flightMu = s.flightMu) (hnext : t.next = s.next)
    (hcloses : t.closes = s.closes) (hflight : p'.flight = p.flight)
    (hwaits : ∀ job flight, p' ≠ .waiting job flight)
    (hfinds : ∀ job flight found, p' ≠ .closing job flight found) : FlightMove s t p p' :=
  .level hmu hnext hcloses hflight (fun job flight h => absurd h (hwaits job flight))
    (fun job flight found h => absurd h (hfinds job flight found))

/-- The end of a request neither waits nor closes. -/
theorem FlightMove.finish {flight : Option Nat} (hmu : t.flightMu = s.flightMu)
    (hnext : t.next = s.next) (hcloses : t.closes = s.closes)
    (hflight : (Phase.fetching job flight).flight = p.flight) :
    FlightMove s t p (.finish job flight) := by
  refine .of_flight hmu hnext hcloses ((Phase.flight_finish job flight).trans hflight) ?_ ?_
  · cases flight <;> simp [Phase.finish]
  · cases flight <;> simp [Phase.finish]

/-- A read of the cache has nothing to do with flights. -/
theorem ReadsCache.unowned {a : Step} {r : DiskCache.Streamed}
    (hread : ReadsCache handlers s p a job r p') :
    p.flight = none ∧ p'.flight = none ∧ (∀ job flight, p' ≠ .waiting job flight) ∧
      ∀ job flight found, p' ≠ .closing job flight found := by
  cases hread <;> exact ⟨rfl, rfl, by simp, by simp⟩

/-- A request that leaves takes its flight along. -/
theorem Phase.flight_of_leaves {flight : Option Nat} (hleaves : p.leaves = some (job, flight)) :
    (Phase.fetching job flight).flight = p.flight := by
  cases p <;> simp_all [Phase.leaves, Phase.flight] <;> cases flight <;> simp_all

/-- What every step does to the flights. -/
theorem Taken.flightMove {a : Step} (h : Taken sha handlers s i p a p' t) :
    FlightMove s t p p' := by
  cases h with
  | arrive h r hooked =>
    cases hooked with
    | none => exact .of_flight rfl rfl rfl rfl (by simp [arrived]) (by simp [arrived])
    | some r' =>
      simp only [arrived]
      split_ifs <;> exact .of_flight rfl rfl rfl rfl (by simp) (by simp)
  | answer hread hok | panic hread herror =>
    exact .of_flight rfl rfl rfl hread.unowned.1.symm (by simp) (by simp)
  | miss hread herror hother =>
    obtain ⟨hp, hp', hwaits, hfinds⟩ := hread.unowned
    exact .of_flight rfl rfl rfl (hp'.trans hp.symm) hwaits hfinds
  | wait htable =>
    refine .level rfl rfl rfl rfl ?_ (by simp)
    rintro job' flight' ⟨⟩
    exact htable
  | claim hfree => exact .claim rfl hfree rfl rfl rfl rfl
  | @redirect job job' flight captured hjob =>
    subst hjob
    exact .finish rfl rfl rfl (by cases flight <;> rfl)
  | @proxy job job' flight captured hjob =>
    subst hjob
    exact .of_flight rfl rfl rfl (by cases flight <;> rfl) (by simp) (by simp)
  | @store job flight | @skip job flight =>
    exact .of_flight rfl rfl rfl (by cases flight <;> rfl) (by simp) (by simp)
  | @unfit job flight => exact .finish rfl rfl rfl (by cases flight <;> rfl)
  | leave hleaves => exact .finish rfl rfl rfl (Phase.flight_of_leaves hleaves)
  | load htable =>
    refine .level rfl rfl rfl rfl (by simp) ?_
    rintro job' flight' found' ⟨⟩
    exact htable
  | lose htable => exact .lost rfl htable
  | close => exact .close rfl rfl rfl rfl rfl
  | delete => exact .delete rfl rfl rfl rfl rfl
  | _ => exact .of_flight rfl rfl rfl rfl (by simp) (by simp)

/-- The requests follow the single-flight protocol, the deferred functions have found
the flights of their owners, and who waits does so on a flight that was claimed. -/
structure Coalesced (s : State) : Prop where
  flights : Runs.Reaches Flights.step Runs.Unrestricted .init s.flights
  found : ∀ i job flight found, s.requests i = .closing job flight found → found = flight
  joined : ∀ i job flight, s.requests i = .waiting job flight → flight < s.next

theorem Coalesced.init (maxSize maxAge : Int) : Coalesced (State.init maxSize maxAge) := by
  refine ⟨.refl, ?_, ?_⟩
  · intro i job flight found hi
    cases hi
  · intro i job flight hi
    cases hi

theorem Coalesced.tabled (hs : Coalesced s) {f : Flights.Flight (Nat × Key)}
    (hi : (s.requests i).flight = some f) : s.flightMu f.key = some f.channel :=
  (Flights.safe_of_reaches hs.flights).tabled i f hi

theorem Coalesced.tabled_of_leaving (hs : Coalesced s) (hi : s.requests i = .leaving job flight) :
    s.flightMu job.flightKey = some flight :=
  hs.tabled (i := i) (f := ⟨job.flightKey, flight, false⟩) (by rw [hi]; rfl)

theorem FlightMove.flights (hs : Coalesced s)
    (hrequests : t.requests = update s.requests i p')
    (hmove : FlightMove s t (s.requests i) p') :
    Runs.Reaches Flights.step Runs.Unrestricted s.flights t.flights := by
  have howned := State.owned_of_requests hrequests
  cases hmove with
  | level hmu hnext hcloses hflight hwaits hfinds =>
    have hsame : t.flights = s.flights := by
      have hself : s.flights.owned i = p'.flight := hflight.symm
      rw [← hself, update_eq_self] at howned
      exact Flights.State.ext hmu hnext hcloses howned
    rw [hsame]
    exact .refl
  | claim hp hfree hp' hmu hnext hcloses =>
    have hnone : s.flights.owned i = none := by
      simp [State.flights, hp, Phase.flight]
    refine Flights.reaches_claim hfree hnone hmu hnext hcloses ?_
    rw [howned, hp']
    rfl
  | @close job flight found hp hp' hmu hnext hcloses =>
    obtain rfl := hs.found i job flight found hp
    have hself : s.flights.owned i = some ⟨job.flightKey, found, false⟩ := by
      simp [State.flights, hp, Phase.flight]
    -- The channel is still open, so `closeOnce` closes it.
    have hopen : s.closes found = 0 :=
      (Flights.safe_of_reaches hs.flights).closes i _ hself
    refine Flights.reaches_close hself hmu hnext ?_ ?_
    · change t.closes = update s.closes found (s.closes found + 1)
      rw [hcloses, if_pos hopen, hopen]
    · rw [howned, hp']
      rfl
  | @delete job flight hp hp' hmu hnext hcloses =>
    have hself : s.flights.owned i = some ⟨job.flightKey, flight, true⟩ := by
      simp [State.flights, hp, Phase.flight]
    refine Flights.reaches_remove hself hmu hnext hcloses ?_
    rw [howned, hp']
    rfl
  | lost hp hnone => exact absurd ((hs.tabled_of_leaving hp).symm.trans hnone) (by simp)

/-- Who starts to wait does so on the flight in the table, and what `Load` finds is what
the owner has put there. -/
theorem FlightMove.found (hs : Coalesced s) (hmove : FlightMove s t (s.requests i) p') :
    (∀ job flight, p' = .waiting job flight → s.flightMu job.flightKey = some flight) ∧
      ∀ job flight found, p' = .closing job flight found → found = flight := by
  cases hmove with
  | level hmu hnext hcloses hflight hwaits hfinds =>
    refine ⟨hwaits, ?_⟩
    intro job flight found hp'
    have hown := hs.tabled (i := i) (f := ⟨job.flightKey, flight, false⟩) (by
      rw [← hflight, hp']
      rfl)
    exact Option.some.inj ((hfinds job flight found hp').symm.trans hown)
  | claim hp hfree hp' hmu hnext hcloses | close hp hp' hmu hnext hcloses =>
    exact ⟨by simp [hp'], by simp [hp']⟩
  | delete hp hp' hmu hnext hcloses => exact ⟨by simp [hp'], by simp [hp']⟩
  | lost hp hnone => exact absurd ((hs.tabled_of_leaving hp).symm.trans hnone) (by simp)

theorem Coalesced.step {a : Nat × Step} (hs : Coalesced s)
    (hstep : Handler.step sha handlers s a = some t) : Coalesced t := by
  obtain ⟨i, a⟩ := a
  obtain ⟨p', htaken⟩ := requestStep_taken hstep
  have hrequests := htaken.requests
  have hmove := htaken.flightMove
  have hrun := hmove.flights hs hrequests
  have hle : s.next ≤ t.next := Flights.next_le_of_reaches hrun
  have hself : t.requests i = p' := by rw [hrequests, update_self]
  have hother : ∀ j, j ≠ i → t.requests j = s.requests j := by
    intro j hj
    rw [hrequests, update_of_ne hj]
  obtain ⟨hwaits, hfound⟩ := hmove.found hs
  refine ⟨hs.flights.trans hrun, ?_, ?_⟩
  · intro j job flight found hj
    by_cases hji : j = i
    · subst hji
      exact hfound job flight found (hself.symm.trans hj)
    · rw [hother j hji] at hj
      exact hs.found j job flight found hj
  · intro j job flight hj
    by_cases hji : j = i
    · subst hji
      have hsafe := Flights.safe_of_reaches hs.flights
      obtain ⟨q, closed, hq⟩ := hsafe.owner job.flightKey flight
        (hwaits job flight (hself.symm.trans hj))
      have hlt : flight < s.next := hsafe.allocated q _ hq
      omega
    · rw [hother j hji] at hj
      have hlt := hs.joined j job flight hj
      omega

theorem coalesced_of_reaches {maxSize maxAge : Int}
    (hreach : Runs.Reaches (step sha handlers) Runs.Unrestricted (State.init maxSize maxAge) s) :
    Coalesced s :=
  hreach.invariant (fun _ _ _ hs _ hstep => hs.step hstep) (Coalesced.init maxSize maxAge)

/-- The owner of a flight can go to its end by steps of its own, and the channel of its
flight is then closed. -/
def CanFinish (sha : Str → Key) (handlers : Nat → TargetHandler) (s : State) (i flight : Nat) :
    Prop :=
  ∃ t, Runs.Reaches (step sha handlers) (fun _ a => a.1 = i) s t ∧ t.requests i = .done ∧
    t.closes flight = 1

theorem CanFinish.of_step {a : Step} (hstep : step sha handlers s (i, a) = some t)
    (ht : CanFinish sha handlers t i flight) : CanFinish sha handlers s i flight := by
  obtain ⟨u, hrun, hu⟩ := ht
  have hfirst : Runs.Reaches (step sha handlers) (fun _ a => a.1 = i) s t :=
    Runs.Reaches.of_step rfl hstep
  exact ⟨u, hfirst.trans hrun, hu⟩

theorem canFinish_of_deleting (hs : Coalesced s) (hi : s.requests i = .deleting job flight) :
    CanFinish sha handlers s i flight := by
  have hclosed : s.closes flight = 1 :=
    (Flights.safe_of_reaches hs.flights).closes i ⟨job.flightKey, flight, true⟩ (by
      simp [State.flights, hi, Phase.flight])
  let t := { s with flightMu := update s.flightMu job.flightKey none }.move i .done
  have hstep : step sha handlers s (i, .delete) = some t := by
    simp only [step, hi, requestStep, t]
  exact ⟨t, Runs.Reaches.of_step rfl hstep, update_self .., hclosed⟩

theorem canFinish_of_closing (hs : Coalesced s) {found : Nat}
    (hi : s.requests i = .closing job flight found) : CanFinish sha handlers s i flight := by
  let t := { s with
    closes := if s.closes found = 0 then update s.closes found 1 else s.closes }.move i
      (.deleting job flight)
  have hstep : step sha handlers s (i, .close) = some t := by
    simp only [step, hi, requestStep, t]
  exact .of_step hstep (canFinish_of_deleting (hs.step hstep) (update_self ..))

theorem canFinish_of_leaving (hs : Coalesced s) (hi : s.requests i = .leaving job flight) :
    CanFinish sha handlers s i flight := by
  have htable := hs.tabled_of_leaving hi
  have hstep : step sha handlers s (i, .load) = some (s.move i (.closing job flight flight)) := by
    simp only [step, hi, requestStep, htable]
  exact .of_step hstep (canFinish_of_closing (hs.step hstep) (update_self ..))

theorem canFinish_of_leave (hs : Coalesced s) (job : Job)
    (hstep : step sha handlers s (i, .leave) = some (s.move i (.leaving job flight))) :
    CanFinish sha handlers s i flight :=
  .of_step hstep (canFinish_of_leaving (hs.step hstep) (update_self ..))

theorem canFinish_of_flight (hs : Coalesced s) {f : Flights.Flight (Nat × Key)}
    (hf : (s.requests i).flight = some f) : CanFinish sha handlers s i f.channel := by
  cases hi : s.requests i
  case fetching job flight | proxied job flight captured | written job flight =>
    cases flight with
    | none => exact absurd hf (by simp [hi, Phase.flight])
    | some flight =>
      obtain rfl : ⟨job.flightKey, flight, false⟩ = f := by simpa [hi, Phase.flight] using hf
      exact canFinish_of_leave hs job (by simp only [step, hi, requestStep, Phase.finish])
  case leaving job flight =>
    obtain rfl : ⟨job.flightKey, flight, false⟩ = f := by simpa [hi, Phase.flight] using hf
    exact canFinish_of_leaving hs hi
  case closing job flight found =>
    obtain rfl : ⟨job.flightKey, flight, false⟩ = f := by simpa [hi, Phase.flight] using hf
    exact canFinish_of_closing hs hi
  case deleting job flight =>
    obtain rfl : ⟨job.flightKey, flight, true⟩ = f := by simpa [hi, Phase.flight] using hf
    exact canFinish_of_deleting hs hi
  all_goals exact absurd hf (by simp [hi, Phase.flight])

/-- Request coalescing is safe: what holds of the flights in a state. -/
structure FlightSafety (sha : Str → Key) (handlers : Nat → TargetHandler) (s : State) : Prop where
  unique : ∀ i j f g, (s.requests i).flight = some f → (s.requests j).flight = some g →
    f.key = g.key → i = j
  present : ∀ key flight, s.flightMu key = some flight ↔
    ∃ i closed, (s.requests i).flight = some ⟨key, flight, closed⟩
  closesOwn : ∀ i job flight found, s.requests i = .closing job flight found → found = flight
  removesOwn : ∀ i job flight, s.requests i = .deleting job flight →
    s.flightMu job.flightKey = some flight
  closes : ∀ i f, (s.requests i).flight = some f → s.closes f.channel = if f.closed then 1 else 0
  /-- The channel of a flight whose owner has left was closed once. -/
  left : ∀ flight, flight < s.next → (∀ i f, (s.requests i).flight = some f → f.channel ≠ flight) →
    s.closes flight = 1
  /-- An owner can always leave. -/
  finishes : ∀ i f, (s.requests i).flight = some f → CanFinish sha handlers s i f.channel
  /-- Nobody is kept waiting on a flight whose owner has left or has closed it. -/
  proceeds : ∀ i job flight, s.requests i = .waiting job flight →
    (∀ j f, (s.requests j).flight = some f → f.channel = flight → f.closed = true) →
    (step sha handlers s (i, .receive)).isSome

/-- For any number of requests at any handlers, in every interleaving and on every way
out of `ServeHTTP`, a key has at most one flight, owners close and remove their own
flights only, every channel is closed once, and nobody waits for an owner that has left. -/
theorem flightSafety_of_reaches {maxSize maxAge : Int} {s : State}
    (hreach : Runs.Reaches (step sha handlers) Runs.Unrestricted (State.init maxSize maxAge) s) :
    FlightSafety sha handlers s := by
  have hs := coalesced_of_reaches hreach
  have hsafe := Flights.safe_of_reaches hs.flights
  refine ⟨?_, ?_, hs.found, ?_, hsafe.closes, hsafe.left, fun i f => canFinish_of_flight hs, ?_⟩
  · intro i j f g hf hg hkey
    exact hsafe.owner_unique hf hg hkey
  · intro key flight
    constructor
    · exact hsafe.owner key flight
    · rintro ⟨i, closed, hi⟩
      exact hs.tabled hi
  · intro i job flight hi
    exact hs.tabled (i := i) (f := ⟨job.flightKey, flight, true⟩) (by rw [hi]; rfl)
  · intro i job flight hi hclosed
    have hne : s.closes flight ≠ 0 := by
      intro hopen
      obtain ⟨j, f, hf, hchannel, hfalse⟩ := hsafe.exists_owner (hs.joined i job flight hi) hopen
      exact absurd (hclosed j f hf hchannel) (by simp [hfalse])
    simp only [step, hi, requestStep, if_neg hne, Option.isSome_some]

/-- The owner panics while a second request waits, and closes the channel. -/
def panickedState : State :=
  (Runs.exec (step (fun _ => zeroKey) (fun _ => plainHandler)) (State.init 0 0)
    (comes 0 getPage ++ comes 1 getPage ++ [(0, .leave), (0, .load), (0, .close)])).get (by decide)

/-- The waiting request can go on, before the key is deleted. -/
theorem panickedState_flightSafety :
    FlightSafety (fun _ => zeroKey) (fun _ => plainHandler) panickedState ∧
    (∃ job, panickedState.requests 1 = .waiting job 0) ∧ panickedState.closes 0 = 1 ∧
    panickedState.flightMu (0, zeroKey) = some 0 :=
  ⟨flightSafety_of_reaches (Runs.reaches_exec _), ⟨_, rfl⟩, rfl, rfl⟩

end Peretum.Handler
