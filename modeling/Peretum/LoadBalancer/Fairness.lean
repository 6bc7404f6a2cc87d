import Peretum.Cycling
import Peretum.LoadBalancer.Selection

/-!
# The fairness of round robin

Every call of `Next` goes on from the position after the last choice and stops at the
first healthy upstream. So the choices of a run are the healthy upstreams among the
positions the counter has passed, whatever the unhealthy ones in between are.
-/

namespace Peretum.LoadBalancer.RoundRobin

open Go

/-- The choices of a number of calls of `Next`. -/
def choices : Nat → RoundRobin → List (Option Nat)
  | 0, _ => []
  | calls + 1, rr => rr.next.1 :: choices calls rr.next.2

/-- How far the calls advance the counter. -/
def advances : Nat → RoundRobin → Nat
  | 0, _ => 0
  | calls + 1, rr =>
      turnsOf rr.upstreams rr.upstreams.length rr.idx + advances calls rr.next.2

theorem turnsOf_pos (upstreams : List Upstream) {turns : Nat} (hturns : 0 < turns) (idx : UInt64) :
    0 < turnsOf upstreams turns idx := by
  cases turns with
  | zero => omega
  | succ turns =>
    rw [turnsOf]
    split <;> omega

theorem toNat_add_ofNat {idx : UInt64} {k : Nat} (hwrap : idx.toNat + k < 2 ^ 64) :
    (idx + UInt64.ofNat k).toNat = idx.toNat + k := by
  rw [UInt64.toNat_add, UInt64.toNat_ofNat', Nat.mod_eq_of_lt (by omega : k < 2 ^ 64)]
  exact Nat.mod_eq_of_lt hwrap

theorem visits_turnsOf {upstreams : List Upstream} {turns : Nat} {idx : UInt64}
    (hwrap : idx.toNat + turnsOf upstreams turns idx ≤ 2 ^ 64) :
    Cycling.visits upstreams.length (healthyAt upstreams) idx.toNat (turnsOf upstreams turns idx) =
      (scan upstreams turns idx).1.toList := by
  induction turns generalizing idx with
  | zero => rfl
  | succ turns ih =>
    rw [turnsOf] at hwrap ⊢
    rw [scan]
    by_cases hhealthy : healthyAt upstreams (idx.toNat % upstreams.length) = true
    · simp [hhealthy, Cycling.visits_one]
    · rw [if_neg hhealthy] at hwrap ⊢
      rw [if_neg hhealthy, Nat.add_comm _ 1, Cycling.visits_add, Cycling.visits_one]
      have hskip : [idx.toNat % upstreams.length].filter (healthyAt upstreams) = [] := by
        simp [hhealthy]
      rw [hskip, List.nil_append]
      by_cases hturns : turns = 0
      · subst hturns
        rfl
      · have hpos := turnsOf_pos upstreams (Nat.pos_of_ne_zero hturns) (idx + 1)
        have hsucc : (idx + 1).toNat = idx.toNat + 1 :=
          toNat_add_ofNat (by omega : idx.toNat + 1 < 2 ^ 64)
        rw [← hsucc]
        apply ih
        omega

/-- While an upstream is healthy, `Next` returns the healthy upstream its loop visits. -/
theorem visits_next {rr : RoundRobin} (hhealthy : healthyIndices rr.upstreams ≠ [])
    (hwrap : rr.idx.toNat + turnsOf rr.upstreams rr.upstreams.length rr.idx ≤ 2 ^ 64) :
    ∃ i, rr.next.1 = some i ∧
      Cycling.visits rr.upstreams.length (healthyAt rr.upstreams) rr.idx.toNat
        (turnsOf rr.upstreams rr.upstreams.length rr.idx) = [i] := by
  obtain ⟨k, hk⟩ := List.exists_mem_of_ne_nil _ hhealthy
  obtain ⟨hlt, hup⟩ := List.mem_filter.mp hk
  have hne : rr.upstreams ≠ [] := by
    intro hempty
    simp [hempty] at hlt
  have hvisits := visits_turnsOf hwrap
  cases hscan : (scan rr.upstreams rr.upstreams.length rr.idx).1 with
  | none =>
    rw [turnsOf_of_scan_none hscan] at hwrap
    have hdown := all_down_of_rotation (down_of_scan_none hscan hwrap)
    obtain ⟨u, hu, hhealthy⟩ := (Option.any_eq_true _ _).mp hup
    rw [hdown u (List.mem_of_getElem? hu)] at hhealthy
    cases hhealthy
  | some i =>
    rw [hscan] at hvisits
    refine ⟨i, ?_, hvisits⟩
    rcases hpair : scan rr.upstreams rr.upstreams.length rr.idx with ⟨result, idx⟩
    rw [hpair] at hscan
    obtain rfl : result = some i := hscan
    simp [next, hne, hpair]

theorem choices_eq_visits {rr : RoundRobin} (hhealthy : healthyIndices rr.upstreams ≠ [])
    {calls : Nat} (hwrap : rr.idx.toNat + advances calls rr ≤ 2 ^ 64) :
    choices calls rr =
      (Cycling.visits rr.upstreams.length (healthyAt rr.upstreams) rr.idx.toNat
        (advances calls rr)).map some := by
  induction calls generalizing rr with
  | zero => rfl
  | succ calls ih =>
    rw [advances] at hwrap ⊢
    obtain ⟨i, hnext, hvisits⟩ := visits_next hhealthy (by omega)
    obtain ⟨hsame, hidx⟩ := Balanced.Serves.roundRobin_next rr
    rw [choices, hnext, Cycling.visits_add, hvisits, List.map_append, List.map_singleton,
      List.singleton_append]
    cases calls with
    | zero => rfl
    | succ calls =>
      -- A further call takes a turn, so the counter has not wrapped around before it.
      have hlength : 0 < rr.next.2.upstreams.length := by
        rw [hsame]
        apply List.length_pos_of_ne_nil
        intro hempty
        simp [hempty, healthyIndices] at hhealthy
      have hpos := turnsOf_pos rr.next.2.upstreams hlength rr.next.2.idx
      have hrest : turnsOf rr.next.2.upstreams rr.next.2.upstreams.length rr.next.2.idx ≤
          advances (calls + 1) rr.next.2 := Nat.le_add_right _ _
      have hcounter : rr.next.2.idx.toNat =
          rr.idx.toNat + turnsOf rr.upstreams rr.upstreams.length rr.idx := by
        rw [hidx]
        apply toNat_add_ofNat
        omega
      rw [ih (hsame ▸ hhealthy) (by omega), hsame, hcounter]

theorem length_choices (calls : Nat) (rr : RoundRobin) : (choices calls rr).length = calls := by
  induction calls generalizing rr with
  | zero => rfl
  | succ calls ih => rw [choices, List.length_cons, ih]

/-- As long as the counter does not wrap around, as many calls as there are healthy
upstreams return each of them exactly once, and any number of calls returns two of them
equally often, up to one call. -/
theorem choices_fair {rr : RoundRobin} (hhealthy : healthyIndices rr.upstreams ≠ []) {calls : Nat}
    (hwrap : rr.idx.toNat + advances calls rr ≤ 2 ^ 64) :
    (calls = (healthyIndices rr.upstreams).length →
        (choices calls rr).Perm ((healthyIndices rr.upstreams).map some)) ∧
      ∀ i ∈ healthyIndices rr.upstreams, ∀ j ∈ healthyIndices rr.upstreams,
        (choices calls rr).count (some i) ≤ (choices calls rr).count (some j) + 1 := by
  have hchoices := choices_eq_visits hhealthy hwrap
  constructor
  · intro hcalls
    have hne : rr.upstreams ≠ [] := by
      intro hempty
      simp [hempty, healthyIndices] at hhealthy
    have hlength := length_choices calls rr
    rw [hchoices, List.length_map] at hlength
    rw [hchoices]
    apply List.Perm.map
    exact Cycling.visits_perm (List.length_pos_of_ne_nil hne) (hlength.trans hcalls)
  · intro i hi j hj
    obtain ⟨hilt, hup⟩ := List.mem_filter.mp hi
    obtain ⟨hjlt, hjup⟩ := List.mem_filter.mp hj
    rw [hchoices, List.count_map_of_injective _ _ (Option.some_injective _),
      List.count_map_of_injective _ _ (Option.some_injective _)]
    exact Cycling.count_visits_le (List.mem_range.mp hilt) (List.mem_range.mp hjlt) hup hjup _ _

def secondDown : RoundRobin := ⟨markHealthy (str "http://b") false 1 threeUpstreams, 1⟩

/-- Two calls return the other two. -/
theorem secondDown_fair : (choices 2 secondDown).Perm [some 0, some 2] := by
  have hwrap : secondDown.idx.toNat + advances 2 secondDown ≤ 2 ^ 64 := by decide
  exact (choices_fair (by decide) hwrap).1 rfl

end Peretum.LoadBalancer.RoundRobin
