import Mathlib.Tactic.Linarith
import Peretum.Cycling
import Peretum.LoadBalancer.Selectors

/-!
# The shares of weighted round robin

The position of weighted round robin moves on with every choice, and all counters are
filled up again when one of them is spent. So no counter is ever empty at the start of
a choice, and while all upstreams are healthy the choices go round the list, whatever
the weights are. This file gives the choices in closed form and compares the shares
with the weights.
-/

namespace Peretum.LoadBalancer.WeightedRoundRobin

/-- The choices of a number of calls of `Next`. -/
def choices : Nat → WeightedRoundRobin → List (Option Nat)
  | 0, _ => []
  | calls + 1, wrr => wrr.next.1 :: choices calls wrr.next.2

/-- How often a new balancer returns an upstream in a number of calls. -/
def returned (upstreams : List Upstream) (calls i : Nat) : Nat :=
  (choices calls (.new upstreams)).count (some i)

/-- The sum of the weights. -/
def totalTurns (upstreams : List Upstream) : Int := (upstreams.map Upstream.turns).sum

/-- After any number of rounds of as many calls as the weights sum up to, every upstream
was returned as often as its weight says, up to the sum of the weights. -/
def FollowsWeights (upstreams : List Upstream) : Prop :=
  ∀ (k i : Nat) (u : Upstream), upstreams[i]? = some u →
    k * u.turns - totalTurns upstreams ≤
        returned upstreams (k * (totalTurns upstreams).toNat) i ∧
      returned upstreams (k * (totalTurns upstreams).toNat) i ≤
        k * u.turns + totalTurns upstreams

theorem next_of_healthy {wrr : WeightedRoundRobin} (hpos : wrr.Positive)
    (hne : wrr.upstreams ≠ [])
    (hhealthy : ∀ i < wrr.upstreams.length, healthyAt wrr.upstreams i = true) :
    wrr.next.1 = some ((wrr.current + 1) % wrr.upstreams.length) ∧
      wrr.next.2.current = (wrr.current + 1) % wrr.upstreams.length := by
  have hlength := List.length_pos_of_ne_nil hne
  have hat := hhealthy _ (Nat.mod_lt (wrr.current + 1) hlength)
  obtain ⟨turns, hturns⟩ : ∃ turns, wrr.upstreams.length = turns + 1 :=
    ⟨wrr.upstreams.length - 1, by omega⟩
  have hscan : scan wrr.upstreams wrr.weights wrr.upstreams.length wrr.current =
      (some ((wrr.current + 1) % wrr.upstreams.length),
        (wrr.current + 1) % wrr.upstreams.length) := by
    conv_lhs => rw [hturns, scan]
    rw [if_pos (by simp [hat, hpos _])]
  simp [next, hne, hscan]

theorem choices_of_healthy {wrr : WeightedRoundRobin} (hpos : wrr.Positive)
    (hne : wrr.upstreams ≠ [])
    (hhealthy : ∀ i < wrr.upstreams.length, healthyAt wrr.upstreams i = true) (calls : Nat) :
    choices calls wrr =
      (List.range calls).map fun j => some ((wrr.current + 1 + j) % wrr.upstreams.length) := by
  induction calls generalizing wrr with
  | zero => rfl
  | succ calls ih =>
    obtain ⟨hnext, hcurrent⟩ := next_of_healthy hpos hne hhealthy
    obtain ⟨-, hpos', hsame⟩ := next_spec hpos
    rw [choices, hnext, ih hpos' (hsame ▸ hne) (hsame ▸ hhealthy), List.range_succ_eq_map,
      List.map_cons, List.map_map, hcurrent, hsame]
    congr 1
    refine List.map_congr_left fun j _ => ?_
    rw [Function.comp_apply, Nat.add_assoc, Nat.mod_add_mod, Nat.succ_eq_add_one,
      Nat.add_comm 1 j]

variable (upstreams : List Upstream)

/-- A new balancer returns every upstream about equally often. -/
theorem returned_bounds {i : Nat} (hi : i < upstreams.length) (calls : Nat) :
    calls / upstreams.length ≤ returned upstreams calls i ∧
      returned upstreams calls i ≤ calls / upstreams.length + 1 := by
  have hlength : (new upstreams).upstreams.length = upstreams.length := by
    simp [new, allHealthy]
  have hne : (new upstreams).upstreams ≠ [] := by
    rw [← List.length_pos_iff_ne_nil, hlength]
    omega
  have hhealthy : ∀ j < (new upstreams).upstreams.length,
      healthyAt (new upstreams).upstreams j = true := by
    intro j hj
    simp only [healthyAt, List.getElem?_eq_getElem hj]
    simp [new, allHealthy]
  have hcount : returned upstreams calls i =
      calls.count (fun j => (0 + 1 + j) % upstreams.length = i) := by
    have hpos : (new upstreams).Positive := turns_pos upstreams
    rw [returned, choices_of_healthy hpos hne hhealthy, hlength, List.count,
      List.countP_map, Nat.count]
    refine List.countP_congr fun j _ => ?_
    simp [new]
  rw [hcount]
  exact Cycling.count_residue hi (0 + 1) calls

theorem turns_pos_of_mem {u : Upstream} : 0 < u.turns := turns_pos [u] 0

/-- The weights sum up to at least the number of upstreams. -/
theorem length_le_totalTurns : (upstreams.length : Int) ≤ totalTurns upstreams := by
  induction upstreams with
  | nil => exact Int.le_refl 0
  | cons u upstreams ih =>
    have hu : 0 < u.turns := turns_pos_of_mem
    have hcons : totalTurns (u :: upstreams) = u.turns + totalTurns upstreams := by
      simp [totalTurns]
    rw [hcons, List.length_cons]
    omega

theorem FollowsWeights.mul_turns_eq {upstreams : List Upstream}
    (hfollows : FollowsWeights upstreams) {i : Nat} {u : Upstream} (hu : upstreams[i]? = some u) :
    upstreams.length * u.turns = totalTurns upstreams := by
  have hi : i < upstreams.length := (List.getElem?_eq_some_iff.mp hu).1
  have htotal := length_le_totalTurns upstreams
  obtain ⟨total, hW⟩ : ∃ total : Nat, totalTurns upstreams = total :=
    Int.eq_ofNat_of_zero_le (by omega)
  -- Enough rounds let any other weight deviate by more than the sum of the weights.
  let k := upstreams.length * (total + 2)
  obtain ⟨hlow, hhigh⟩ := hfollows k i u hu
  obtain ⟨hmin, hmax⟩ := returned_bounds upstreams hi (k * (totalTurns upstreams).toNat)
  have hcalls : k * (totalTurns upstreams).toNat / upstreams.length = (total + 2) * total := by
    rw [hW, Int.toNat_natCast, Nat.mul_assoc]
    exact Nat.mul_div_cancel_left _ (by omega)
  have hk : (k : Int) * u.turns = (total + 2) * (upstreams.length * u.turns) := by
    simp only [k]
    push_cast
    ring
  apply le_antisymm
  · by_contra hlt
    have hstep : (total : Int) + 1 ≤ upstreams.length * u.turns := by omega
    have hmul := Int.mul_le_mul_of_nonneg_left hstep (by omega : (0 : Int) ≤ total + 2)
    linarith
  · by_contra hlt
    have hstep : (upstreams.length * u.turns : Int) ≤ total - 1 := by omega
    have hmul := Int.mul_le_mul_of_nonneg_left hstep (by omega : (0 : Int) ≤ total + 2)
    linarith

theorem totalTurns_of_forall {upstreams : List Upstream} {w : Int}
    (hall : ∀ u ∈ upstreams, u.turns = w) : totalTurns upstreams = upstreams.length * w := by
  have hmap : upstreams.map Upstream.turns = List.replicate upstreams.length w := by
    rw [List.eq_replicate_iff]
    refine ⟨List.length_map _, fun t ht => ?_⟩
    obtain ⟨u, hu, rfl⟩ := List.mem_map.mp ht
    exact hall u hu
  rw [totalTurns, hmap, List.sum_replicate, nsmul_eq_mul]

/-- The shares of weighted round robin follow the weights exactly if all weights are
equal. -/
theorem followsWeights_iff :
    FollowsWeights upstreams ↔ ∀ u ∈ upstreams, ∀ v ∈ upstreams, u.turns = v.turns := by
  constructor
  · intro hfollows u hu v hv
    obtain ⟨i, hi⟩ := List.mem_iff_getElem?.mp hu
    obtain ⟨j, hj⟩ := List.mem_iff_getElem?.mp hv
    have hsame := (hfollows.mul_turns_eq hi).trans (hfollows.mul_turns_eq hj).symm
    have hlength : (upstreams.length : Int) ≠ 0 := by
      have hpos := List.length_pos_of_mem hu
      omega
    exact Int.eq_of_mul_eq_mul_left hlength hsame
  · intro hequal k i u hu
    have hmem := List.mem_of_getElem? hu
    have hi : i < upstreams.length := (List.getElem?_eq_some_iff.mp hu).1
    have htotal := totalTurns_of_forall fun v hv => hequal v hv u hmem
    have hpos : 0 < u.turns := turns_pos_of_mem
    obtain ⟨w, hw⟩ : ∃ w : Nat, u.turns = w := Int.eq_ofNat_of_zero_le (by omega)
    have hle := length_le_totalTurns upstreams
    obtain ⟨hmin, hmax⟩ := returned_bounds upstreams hi (k * (totalTurns upstreams).toNat)
    have hcalls : k * (totalTurns upstreams).toNat / upstreams.length = k * w := by
      have htoNat : (totalTurns upstreams).toNat = upstreams.length * w := by
        rw [htotal, hw]
        exact_mod_cast Int.toNat_natCast _
      rw [htoNat, Nat.mul_left_comm]
      exact Nat.mul_div_cancel_left _ (by omega)
    rw [hw]
    omega

/-- Two upstreams, one with three times the weight of the other. -/
def unevenUpstreams : List Upstream :=
  [⟨[0x61], 3, true, 0⟩, ⟨[0x62], 1, true, 0⟩]

/-- They are returned equally often: after twenty-four rounds of four calls, the lighter one
forty-eight times instead of twenty-four, which is more than four too many. -/
theorem unevenUpstreams_not_followed :
    returned unevenUpstreams (24 * (totalTurns unevenUpstreams).toNat) 1 = 48 ∧
      ¬ FollowsWeights unevenUpstreams := by
  have hcount : returned unevenUpstreams (24 * (totalTurns unevenUpstreams).toNat) 1 = 48 := by
    decide
  refine ⟨hcount, fun hfollows => ?_⟩
  have hhigh := (hfollows 24 1 ⟨[0x62], 1, true, 0⟩ rfl).2
  rw [hcount] at hhigh
  exact absurd hhigh (by decide)

end Peretum.LoadBalancer.WeightedRoundRobin
