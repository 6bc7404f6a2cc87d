import Mathlib.Data.Int.CardIntervalMod
import Mathlib.Data.List.Perm.Subperm

/-!
# Going round a circle

Consecutive numbers go round the residues of a modulus, and some of the residues are
good. The good residues are visited in turn: over any stretch of numbers two of them are
visited equally often, up to one visit, and a stretch with as many visits as there are
good residues visits each of them once.
-/

namespace Cycling

variable {i start len : Nat}

/-- Among consecutive numbers, every residue occurs about equally often. -/
theorem count_residue {n : Nat} (hi : i < n) (start len : Nat) :
    len / n ≤ len.count (fun j => (start + j) % n = i) ∧
      len.count (fun j => (start + j) % n = i) ≤ len / n + 1 := by
  have hn : 0 < n := Nat.zero_lt_of_lt hi
  have hresidue : ∀ j, (start + j) % n = i ↔ start + j ≡ i [MOD n] := by
    intro j
    rw [Nat.ModEq, Nat.mod_eq_of_lt hi]
  simp only [hresidue]
  have hsplit := Nat.count_add (fun j => j ≡ i [MOD n]) start len
  rw [Nat.count_modEq_card _ hn, Nat.count_modEq_card _ hn, Nat.mod_eq_of_lt hi] at hsplit
  have hstart := Nat.mod_lt start hn
  have hlen := Nat.mod_lt len hn
  -- The end of the stretch is in the same round as the sum of the remainders, or in the next.
  by_cases hround : start % n + len % n < n
  · rw [Nat.add_div hn, Nat.add_mod, if_neg (by omega), Nat.mod_eq_of_lt hround] at hsplit
    split_ifs at hsplit <;> omega
  · have hmod : (start % n + len % n) % n = start % n + len % n - n := by
      rw [Nat.mod_eq_sub_mod (by omega), Nat.mod_eq_of_lt (by omega)]
    rw [Nat.add_div hn, Nat.add_mod, if_pos (by omega), hmod] at hsplit
    split_ifs at hsplit <;> omega

/-- The good residues of consecutive numbers, in order. -/
def visits (n : Nat) (good : Nat → Bool) (start len : Nat) : List Nat :=
  ((List.range len).map fun j => (start + j) % n).filter good

variable {n : Nat} {good : Nat → Bool}

theorem visits_add (n : Nat) (good : Nat → Bool) (start first second : Nat) :
    visits n good start (first + second) =
      visits n good start first ++ visits n good (start + first) second := by
  simp [visits, List.range_add, Function.comp_def, Nat.add_assoc]

theorem visits_one (n : Nat) (good : Nat → Bool) (start : Nat) :
    visits n good start 1 = [start % n].filter good := by
  simp [visits]

theorem good_of_mem_visits (hi : i ∈ visits n good start len) :
    good i = true := (List.mem_filter.mp hi).2

theorem lt_of_mem_visits (hn : 0 < n) (hi : i ∈ visits n good start len) : i < n := by
  obtain ⟨j, -, rfl⟩ := List.mem_map.mp (List.mem_filter.mp hi).1
  exact Nat.mod_lt _ hn

theorem count_visits (hgood : good i = true) (start len : Nat) :
    (visits n good start len).count i = len.count fun j => (start + j) % n = i := by
  rw [visits, List.count_filter hgood, List.count, List.countP_map, Nat.count]
  apply List.countP_congr
  simp

/-- Two good residues are visited equally often, up to one visit. -/
theorem count_visits_le {j : Nat} (hi : i < n) (hj : j < n) (hgi : good i = true)
    (hgj : good j = true) (start len : Nat) :
    (visits n good start len).count i ≤ (visits n good start len).count j + 1 := by
  rw [count_visits hgi, count_visits hgj]
  have hupper := (count_residue hi start len).2
  have hlower := (count_residue hj start len).1
  omega

/-- A stretch with as many visits as there are good residues visits each of them once. -/
theorem visits_perm (hn : 0 < n)
    (hlength : (visits n good start len).length = ((List.range n).filter good).length) :
    (visits n good start len).Perm ((List.range n).filter good) := by
  have hsubset : visits n good start len ⊆ (List.range n).filter good := by
    intro i hi
    apply List.mem_filter.mpr
    exact ⟨List.mem_range.mpr (lt_of_mem_visits hn hi), good_of_mem_visits hi⟩
  -- If a residue were left out, no other could be visited twice, and all would be visited.
  have hall : (List.range n).filter good ⊆ visits n good start len := by
    intro i hi
    by_contra hmissing
    obtain ⟨hlt, hgi⟩ := List.mem_filter.mp hi
    have hnodup : (visits n good start len).Nodup := by
      apply List.nodup_iff_count_le_one.mpr
      intro j
      by_cases hj : j ∈ visits n good start len
      · have hle := count_visits_le (lt_of_mem_visits hn hj) (List.mem_range.mp hlt)
          (good_of_mem_visits hj) hgi start len
        rw [List.count_eq_zero_of_not_mem hmissing] at hle
        omega
      · rw [List.count_eq_zero_of_not_mem hj]
        omega
    have hperm := (List.subperm_of_subset hnodup hsubset).perm_of_length_le (by omega)
    exact hmissing (hperm.mem_iff.mpr hi)
  have hnodup : ((List.range n).filter good).Nodup := List.nodup_range.filter _
  exact ((List.subperm_of_subset hnodup hall).perm_of_length_le (by omega)).symm

end Cycling
