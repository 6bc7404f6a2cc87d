import Mathlib.Logic.Function.Basic
import Peretum.Go.Strings

/-!
# Choosing an upstream

A load balancer hands out one of its upstreams for each request. It may hand out an
unhealthy one only when all are unhealthy, and then the one that was checked the
longest time ago. This file states that contract and embeds round robin, weighted
round robin and least connections. Slices that run parallel to the upstreams are
functions of the index.
-/

namespace Peretum.LoadBalancer

open Go Function

structure Upstream where
  url : Str
  weight : Int
  /-- Whether requests may go there. -/
  healthy : Bool
  /-- The time of the last `MarkHealthy` in nanoseconds, or zero. -/
  lastCheck : Int
  deriving DecidableEq

/-- The upstream at an index is healthy. -/
def healthyAt (upstreams : List Upstream) (i : Nat) : Bool := (upstreams[i]?).any Upstream.healthy

/-- The upstreams that are healthy. -/
def healthyIndices (upstreams : List Upstream) : List Nat :=
  (List.range upstreams.length).filter (healthyAt upstreams)

/-- What a constructor does to the upstreams. -/
def allHealthy (upstreams : List Upstream) : List Upstream :=
  upstreams.map fun u => { u with healthy := true }

/-- The loop of `MarkHealthy`: the first upstream with the URL is updated. -/
def markHealthy (url : Str) (healthy : Bool) (now : Int) : List Upstream → List Upstream
  | [] => []
  | u :: upstreams =>
      if u.url = url then { u with healthy := healthy, lastCheck := now } :: upstreams
      else u :: markHealthy url healthy now upstreams

/-- The loop of `probeCandidate` from an index on. -/
def probeFrom : Nat → Option (Nat × Int) → List Upstream → Option (Nat × Int)
  | _, candidate, [] => candidate
  | i, none, u :: upstreams => probeFrom (i + 1) (some (i, u.lastCheck)) upstreams
  | i, some (best, nano), u :: upstreams =>
      if u.lastCheck < nano then probeFrom (i + 1) (some (i, u.lastCheck)) upstreams
      else probeFrom (i + 1) (some (best, nano)) upstreams

/-- `probeCandidate`: the upstream whose last check is the oldest. -/
def probeCandidate (upstreams : List Upstream) : Option Nat :=
  (probeFrom 0 none upstreams).map Prod.fst

/-- The contract of `Next`: nothing for an empty list, and otherwise a member that is
healthy, or one with the oldest check when no member is. -/
def Selects (upstreams : List Upstream) : Option Nat → Prop
  | none => upstreams = []
  | some i => ∃ u, upstreams[i]? = some u ∧ (u.healthy = true ∨
      (∀ v ∈ upstreams, v.healthy = false) ∧ ∀ v ∈ upstreams, u.lastCheck ≤ v.lastCheck)

variable {upstreams seen : List Upstream} {i : Nat}

theorem mem_healthyIndices : i ∈ healthyIndices upstreams ↔ healthyAt upstreams i = true := by
  refine ⟨fun hi => (List.mem_filter.mp hi).2, fun hi => List.mem_filter.mpr ⟨?_, hi⟩⟩
  obtain ⟨u, hu, -⟩ := (Option.any_eq_true _ _).mp hi
  exact List.mem_range.mpr (List.getElem?_eq_some_iff.mp hu).1

theorem healthyIndices_ne_nil_iff :
    healthyIndices upstreams ≠ [] ↔ upstreams.any Upstream.healthy = true := by
  constructor
  · intro hne
    obtain ⟨i, hi⟩ := List.exists_mem_of_ne_nil _ hne
    obtain ⟨u, hu, hup⟩ := (Option.any_eq_true _ _).mp (mem_healthyIndices.mp hi)
    exact List.any_eq_true.mpr ⟨u, List.mem_of_getElem? hu, hup⟩
  · intro hhealthy
    obtain ⟨u, hu, hup⟩ := List.any_eq_true.mp hhealthy
    obtain ⟨i, hlt, rfl⟩ := List.mem_iff_getElem.mp hu
    apply List.ne_nil_of_mem (a := i)
    rw [mem_healthyIndices]
    simpa [healthyAt, hlt] using hup

theorem map_url_markHealthy (url : Str) (healthy : Bool) (now : Int) (upstreams : List Upstream) :
    (markHealthy url healthy now upstreams).map Upstream.url = upstreams.map Upstream.url := by
  induction upstreams with
  | nil => rfl
  | cons u upstreams ih =>
    rw [markHealthy]
    split
    · rfl
    · simp [ih]

theorem map_url_allHealthy (upstreams : List Upstream) :
    (allHealthy upstreams).map Upstream.url = upstreams.map Upstream.url := by
  simp [allHealthy, Function.comp_def]

theorem selects_of_healthyAt (hi : healthyAt upstreams i = true) : Selects upstreams (some i) := by
  obtain ⟨u, hu, hhealthy⟩ := (Option.any_eq_true _ _).mp hi
  exact ⟨u, hu, .inl hhealthy⟩

/-- A candidate has the oldest check among the upstreams seen so far. -/
def Oldest (seen : List Upstream) : Option (Nat × Int) → Prop
  | none => seen = []
  | some (best, nano) =>
      ∃ u, seen[best]? = some u ∧ u.lastCheck = nano ∧ ∀ v ∈ seen, nano ≤ v.lastCheck

theorem oldest_append_self {u : Upstream} (hle : ∀ v ∈ seen, u.lastCheck ≤ v.lastCheck) :
    Oldest (seen ++ [u]) (some (seen.length, u.lastCheck)) := by
  refine ⟨u, by simp, rfl, fun v hv => ?_⟩
  rcases List.mem_append.mp hv with hv | hv
  · exact hle v hv
  · obtain rfl := List.mem_singleton.mp hv
    exact Int.le_refl _

theorem Oldest.append {best : Nat} {nano : Int} {u : Upstream}
    (hseen : Oldest seen (some (best, nano))) (hle : nano ≤ u.lastCheck) :
    Oldest (seen ++ [u]) (some (best, nano)) := by
  obtain ⟨old, hold, hnano, hmin⟩ := hseen
  refine ⟨old, ?_, hnano, fun v hv => ?_⟩
  · rw [List.getElem?_append_left (List.getElem?_eq_some_iff.mp hold).1]
    exact hold
  · rcases List.mem_append.mp hv with hv | hv
    · exact hmin v hv
    · rwa [List.mem_singleton.mp hv]

theorem Oldest.probeFrom {candidate : Option (Nat × Int)} (hseen : Oldest seen candidate) :
    Oldest (seen ++ upstreams) (probeFrom seen.length candidate upstreams) := by
  induction upstreams generalizing seen candidate with
  | nil => simpa [LoadBalancer.probeFrom] using hseen
  | cons u upstreams ih =>
    have hassoc : seen ++ u :: upstreams = seen ++ [u] ++ upstreams := by simp
    have hlength : seen.length + 1 = (seen ++ [u]).length := by simp
    rw [hassoc]
    cases candidate with
    | none =>
      rw [LoadBalancer.probeFrom, hlength]
      refine ih (oldest_append_self ?_)
      simp [show seen = [] from hseen]
    | some pair =>
      rw [LoadBalancer.probeFrom, hlength]
      split
      · next hlt =>
        obtain ⟨old, -, -, hmin⟩ := hseen
        exact ih (oldest_append_self fun v hv => Int.le_trans (Int.le_of_lt hlt) (hmin v hv))
      · next hge => exact ih (hseen.append (Int.not_lt.mp hge))

/-- Falling back to the candidate meets the contract when no upstream is healthy. -/
theorem selects_probeCandidate (hdown : ∀ v ∈ upstreams, v.healthy = false) :
    Selects upstreams (probeCandidate upstreams) := by
  have holdest : Oldest ([] ++ upstreams) (probeFrom 0 none upstreams) :=
    Oldest.probeFrom (rfl : Oldest [] none)
  unfold probeCandidate
  cases hprobe : probeFrom 0 none upstreams with
  | none =>
    rw [hprobe] at holdest
    exact holdest
  | some pair =>
    rw [hprobe] at holdest
    obtain ⟨u, hu, hnano, hmin⟩ := holdest
    exact ⟨u, hu, .inr ⟨hdown, hnano ▸ hmin⟩⟩

theorem all_down (hdown : ∀ i < upstreams.length, healthyAt upstreams i = false) :
    ∀ v ∈ upstreams, v.healthy = false := by
  intro v hv
  obtain ⟨i, hi, rfl⟩ := List.mem_iff_getElem.mp hv
  simpa [healthyAt, hi] using hdown i hi

theorem exists_lt_add_mod_eq {n : Nat} (hi : i < n) (start : Nat) :
    ∃ k < n, (start + k) % n = i := by
  have hdiv := Nat.div_add_mod start n
  have hmod := Nat.mod_lt start (Nat.zero_lt_of_lt hi)
  by_cases hle : start % n ≤ i
  · refine ⟨i - start % n, by omega, ?_⟩
    have hsum : start + (i - start % n) = i + n * (start / n) := by omega
    rw [hsum, Nat.add_mul_mod_self_left, Nat.mod_eq_of_lt hi]
  · refine ⟨n + i - start % n, by omega, ?_⟩
    have hsum : start + (n + i - start % n) = i + n * (start / n + 1) := by
      rw [Nat.mul_add]
      omega
    rw [hsum, Nat.add_mul_mod_self_left, Nat.mod_eq_of_lt hi]

theorem all_down_of_rotation {start : Nat} (hdown : ∀ k < upstreams.length,
      healthyAt upstreams ((start + k) % upstreams.length) = false) :
    ∀ v ∈ upstreams, v.healthy = false := by
  refine all_down fun i hi => ?_
  obtain ⟨k, hk, rfl⟩ := exists_lt_add_mod_eq hi start
  exact hdown k hk

structure RoundRobin where
  upstreams : List Upstream
  /-- The counter, which wraps around. -/
  idx : UInt64

namespace RoundRobin

/-- `NewRoundRobin`. -/
def new (upstreams : List Upstream) : RoundRobin := ⟨allHealthy upstreams, 0⟩

/-- The loop of `Next` for a number of turns: the healthy upstream it finds and the
counter. -/
def scan (upstreams : List Upstream) : Nat → UInt64 → Option Nat × UInt64
  | 0, idx => (none, idx)
  | turns + 1, idx =>
      if healthyAt upstreams (idx.toNat % upstreams.length) then
        (some (idx.toNat % upstreams.length), idx + 1)
      else scan upstreams turns (idx + 1)

/-- The number of turns the loop takes. -/
def turnsOf (upstreams : List Upstream) : Nat → UInt64 → Nat
  | 0, _ => 0
  | turns + 1, idx =>
      if healthyAt upstreams (idx.toNat % upstreams.length) then 1
      else turnsOf upstreams turns (idx + 1) + 1

def next (rr : RoundRobin) : Option Nat × RoundRobin :=
  if rr.upstreams = [] then (none, rr)
  else
    match scan rr.upstreams rr.upstreams.length rr.idx with
    | (some i, idx) => (some i, { rr with idx := idx })
    | (none, idx) => (probeCandidate rr.upstreams, { rr with idx := idx })

variable {upstreams : List Upstream} {turns : Nat} {idx : UInt64}

theorem healthyAt_of_scan {i : Nat} (hscan : (scan upstreams turns idx).1 = some i) :
    healthyAt upstreams i = true := by
  induction turns generalizing idx with
  | zero => simp [scan] at hscan
  | succ turns ih =>
    rw [scan] at hscan
    split at hscan
    · next hhealthy =>
      cases hscan
      exact hhealthy
    · exact ih hscan

theorem scan_idx (upstreams : List Upstream) (turns : Nat) (idx : UInt64) :
    (scan upstreams turns idx).2 = idx + UInt64.ofNat (turnsOf upstreams turns idx) := by
  induction turns generalizing idx with
  | zero => simp [scan, turnsOf]
  | succ turns ih =>
    rw [scan, turnsOf]
    split
    · rfl
    · rw [ih, UInt64.ofNat_add, UInt64.add_assoc, UInt64.add_comm 1]
      rfl

/-- A loop that finds nothing takes all its turns. -/
theorem turnsOf_of_scan_none (hscan : (scan upstreams turns idx).1 = none) :
    turnsOf upstreams turns idx = turns := by
  induction turns generalizing idx with
  | zero => rfl
  | succ turns ih =>
    rw [scan] at hscan
    rw [turnsOf]
    split at hscan
    · cases hscan
    · next hdown => rw [if_neg hdown, ih hscan]

theorem scan_of_down (hdown : ∀ i, healthyAt upstreams i = false) (turns : Nat) (idx : UInt64) :
    scan upstreams turns idx = (none, idx + UInt64.ofNat turns) := by
  have hnone : (scan upstreams turns idx).1 = none := by
    induction turns generalizing idx with
    | zero => rfl
    | succ turns ih => simp [scan, hdown, ih]
  refine Prod.ext hnone ?_
  rw [scan_idx, turnsOf_of_scan_none hnone]

/-- A loop that finds nothing and does not wrap the counter has looked at consecutive
positions. -/
theorem down_of_scan_none (hscan : (scan upstreams turns idx).1 = none)
    (hwrap : idx.toNat + turns ≤ 2 ^ 64) :
    ∀ k < turns, healthyAt upstreams ((idx.toNat + k) % upstreams.length) = false := by
  induction turns generalizing idx with
  | zero => simp
  | succ turns ih =>
    rw [scan] at hscan
    split at hscan
    · cases hscan
    · next hdown =>
      intro k hk
      cases k with
      | zero => simpa using hdown
      | succ k =>
        have hsucc : (idx + 1).toNat = idx.toNat + 1 := by
          rw [UInt64.toNat_add, UInt64.toNat_one]
          exact Nat.mod_eq_of_lt (by omega)
        have hrest := ih hscan (by omega) k (by omega)
        rwa [hsucc, Nat.add_assoc, Nat.add_comm 1 k] at hrest

/-- `Next` meets the contract if its turns do not wrap the counter. -/
theorem selects_next {rr : RoundRobin}
    (hwrap : rr.idx.toNat + turnsOf rr.upstreams rr.upstreams.length rr.idx ≤ 2 ^ 64) :
    Selects rr.upstreams rr.next.1 := by
  unfold next
  split
  · next hempty => exact hempty
  · rcases hscan : scan rr.upstreams rr.upstreams.length rr.idx with ⟨_ | i, idx⟩
    · have hnone : (scan rr.upstreams rr.upstreams.length rr.idx).1 = none := by rw [hscan]
      rw [turnsOf_of_scan_none hnone] at hwrap
      exact selects_probeCandidate (all_down_of_rotation (down_of_scan_none hnone hwrap))
    · exact selects_of_healthyAt (healthyAt_of_scan (congrArg Prod.fst hscan))

end RoundRobin

structure WeightedRoundRobin where
  upstreams : List Upstream
  /-- The turns an upstream has left. -/
  weights : Nat → Int
  current : Nat

/-- The weight of an upstream: at least one. -/
def Upstream.turns (u : Upstream) : Int := if u.weight ≤ 0 then 1 else u.weight

namespace WeightedRoundRobin

/-- `NewWeightedRoundRobin`. -/
def new (upstreams : List Upstream) : WeightedRoundRobin where
  upstreams := allHealthy upstreams
  weights i := (upstreams[i]?).elim 1 Upstream.turns
  current := 0

/-- The weights after a turn of an upstream: when it has none left, the healthy
upstreams get theirs back. -/
def spend (upstreams : List Upstream) (weights : Nat → Int) (i : Nat) : Nat → Int :=
  let left := update weights i (weights i - 1)
  if left i = 0 then fun j =>
    if healthyAt upstreams j then (upstreams[j]?).elim 1 Upstream.turns else left j
  else left

/-- The loop of `Next` for a number of turns. -/
def scan (upstreams : List Upstream) (weights : Nat → Int) : Nat → Nat → Option Nat × Nat
  | 0, current => (none, current)
  | turns + 1, current =>
      let current := (current + 1) % upstreams.length
      if healthyAt upstreams current && decide (0 < weights current) then (some current, current)
      else scan upstreams weights turns current

def next (wrr : WeightedRoundRobin) : Option Nat × WeightedRoundRobin :=
  if wrr.upstreams = [] then (none, wrr)
  else
    match scan wrr.upstreams wrr.weights wrr.upstreams.length wrr.current with
    | (some i, current) =>
        (some i, { wrr with weights := spend wrr.upstreams wrr.weights i, current := current })
    | (none, current) => (probeCandidate wrr.upstreams, { wrr with current := current })

/-- Every upstream has a turn left between calls. -/
def Positive (wrr : WeightedRoundRobin) : Prop := ∀ i, 0 < wrr.weights i

theorem turns_pos (upstreams : List Upstream) (i : Nat) :
    0 < (upstreams[i]?).elim 1 Upstream.turns := by
  cases upstreams[i]? with
  | none => exact Int.one_pos
  | some u =>
    simp only [Option.elim_some, Upstream.turns]
    split
    · exact Int.one_pos
    · next hweight => exact Int.not_le.mp hweight

variable {upstreams : List Upstream} {weights : Nat → Int}

/-- A turn leaves every weight positive, because the upstream that takes it is
healthy. -/
theorem spend_pos {i : Nat} (hweights : ∀ j, 0 < weights j) (hi : healthyAt upstreams i = true)
    (j : Nat) : 0 < spend upstreams weights i j := by
  have hself := hweights i
  unfold spend
  split
  · dsimp only
    split
    · exact turns_pos upstreams j
    · next hdown =>
      have hne : j ≠ i := by
        rintro rfl
        exact hdown hi
      rw [update_of_ne hne]
      exact hweights j
  · next hleft =>
    rw [update_self] at hleft
    by_cases hj : j = i
    · subst hj
      rw [update_self]
      omega
    · rw [update_of_ne hj]
      exact hweights j

theorem healthyAt_of_scan {turns current i : Nat}
    (hscan : (scan upstreams weights turns current).1 = some i) : healthyAt upstreams i = true := by
  induction turns generalizing current with
  | zero => simp [scan] at hscan
  | succ turns ih =>
    rw [scan] at hscan
    split at hscan
    · next hhit =>
      cases hscan
      exact (Bool.and_eq_true_iff.mp hhit).1
    · exact ih hscan

/-- A loop that finds nothing has looked at consecutive positions, and their weights
did not stop it. -/
theorem down_of_scan_none {turns current : Nat} (hweights : ∀ i, 0 < weights i)
    (hscan : (scan upstreams weights turns current).1 = none) :
    ∀ k < turns, healthyAt upstreams ((current + 1 + k) % upstreams.length) = false := by
  induction turns generalizing current with
  | zero => simp
  | succ turns ih =>
    rw [scan] at hscan
    split at hscan
    · cases hscan
    · next hmiss =>
      intro k hk
      cases k with
      | zero => simpa [hweights] using hmiss
      | succ k =>
        have hrest := ih hscan k (by omega)
        rwa [Nat.add_assoc, Nat.mod_add_mod, Nat.add_comm 1 k] at hrest

/-- `Next` meets the contract and keeps the weights positive. -/
theorem next_spec {wrr : WeightedRoundRobin} (hpos : wrr.Positive) :
    Selects wrr.upstreams wrr.next.1 ∧ wrr.next.2.Positive ∧
      wrr.next.2.upstreams = wrr.upstreams := by
  unfold next
  split
  · next hempty => exact ⟨hempty, hpos, rfl⟩
  · rcases hscan : scan wrr.upstreams wrr.weights wrr.upstreams.length wrr.current
      with ⟨_ | i, current⟩
    · have hnone : (scan wrr.upstreams wrr.weights wrr.upstreams.length wrr.current).1 = none := by
        rw [hscan]
      exact ⟨selects_probeCandidate (all_down_of_rotation (down_of_scan_none hpos hnone)),
        hpos, rfl⟩
    · have hi := healthyAt_of_scan (congrArg Prod.fst hscan)
      exact ⟨selects_of_healthyAt hi, spend_pos hpos hi, rfl⟩

end WeightedRoundRobin

structure LeastConnections where
  upstreams : List Upstream
  active : Nat → Int

namespace LeastConnections

/-- `NewLeastConnections`. -/
def new (upstreams : List Upstream) : LeastConnections := ⟨allHealthy upstreams, fun _ => 0⟩

/-- The loop of `Next` from an index on; the bound is -1 until an upstream is chosen. -/
def leastFrom (active : Nat → Int) : Nat → Option Nat → Int → List Upstream → Option Nat
  | _, best, _, [] => best
  | i, best, bestActive, u :: upstreams =>
      if !u.healthy then leastFrom active (i + 1) best bestActive upstreams
      else if bestActive = -1 ∨ active i < bestActive then
        leastFrom active (i + 1) (some i) (active i) upstreams
      else leastFrom active (i + 1) best bestActive upstreams

def next (lc : LeastConnections) : Option Nat :=
  match leastFrom lc.active 0 none (-1) lc.upstreams with
  | none => probeCandidate lc.upstreams
  | some i => some i

/-- What the loop has found among the upstreams seen so far. -/
def Found (seen : List Upstream) (bestActive : Int) : Option Nat → Prop
  | none => bestActive = -1 ∧ ∀ v ∈ seen, v.healthy = false
  | some i => healthyAt seen i = true

theorem Found.append {seen : List Upstream} {bestActive : Int} {best : Option Nat} {u : Upstream}
    (hseen : Found seen bestActive best) (hu : best = none → u.healthy = false) :
    Found (seen ++ [u]) bestActive best := by
  cases best with
  | none =>
    refine ⟨hseen.1, fun v hv => ?_⟩
    rcases List.mem_append.mp hv with hv | hv
    · exact hseen.2 v hv
    · rw [List.mem_singleton.mp hv]
      exact hu rfl
  | some i =>
    have hhealthy : healthyAt seen i = true := hseen
    obtain ⟨v, hv, -⟩ := (Option.any_eq_true _ _).mp hhealthy
    have hget : (seen ++ [u])[i]? = seen[i]? :=
      List.getElem?_append_left (List.getElem?_eq_some_iff.mp hv).1
    rwa [Found, healthyAt, hget]

/-- The loop chooses a healthy upstream, or there is none. -/
theorem Found.leastFrom {active : Nat → Int} {seen upstreams : List Upstream} {best : Option Nat}
    {bestActive : Int} (hseen : Found seen bestActive best) :
    ∃ bound, Found (seen ++ upstreams) bound
      (leastFrom active seen.length best bestActive upstreams) := by
  induction upstreams generalizing seen best bestActive with
  | nil => exact ⟨bestActive, by simpa [LeastConnections.leastFrom] using hseen⟩
  | cons u upstreams ih =>
    have hassoc : seen ++ u :: upstreams = seen ++ [u] ++ upstreams := by simp
    have hlength : seen.length + 1 = (seen ++ [u]).length := by simp
    rw [hassoc, LeastConnections.leastFrom, hlength]
    split
    · next hdown => exact ih (hseen.append fun _ => by simpa using hdown)
    · next hup =>
      split
      · refine ih ?_
        simpa [Found, healthyAt] using hup
      · next hbound =>
        refine ih (hseen.append ?_)
        -- The bound is not -1, so an upstream was chosen before.
        rintro rfl
        exact absurd (.inl hseen.1) hbound

/-- `Next` meets the contract. -/
theorem selects_next (lc : LeastConnections) : Selects lc.upstreams lc.next := by
  have hstart : Found [] (-1) none := ⟨rfl, by simp⟩
  obtain ⟨bound, hfound⟩ := @Found.leastFrom lc.active [] lc.upstreams none (-1) hstart
  rw [List.nil_append, List.length_nil] at hfound
  unfold next
  split
  · next hleast =>
    rw [hleast] at hfound
    exact selects_probeCandidate hfound.2
  · next i hleast =>
    rw [hleast] at hfound
    exact selects_of_healthyAt hfound

end LeastConnections

end Peretum.LoadBalancer
