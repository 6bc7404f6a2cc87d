import Mathlib.Algebra.BigOperators.Group.Finset.Basic
import Mathlib.Algebra.Order.BigOperators.Group.List
import Mathlib.Algebra.Order.Group.Int
import Mathlib.Algebra.Order.Group.Unbundled.Basic
import Mathlib.Data.Fintype.Basic
import Peretum.Go.Header

/-!
# Sums over maps and families

Two kinds of totals occur in the accounts of a component: the weight of the
entries of a map, and the weight of a finite family with one member for each
party. Both change by the difference at the one place that is updated.
-/

namespace Go.Map

variable {K V M : Type} [AddCommGroup M]

/-- The total weight of the entries of a map. -/
def sum (f : K → V → M) (m : Map K V) : M := (m.entries.map fun e => f e.1 e.2).sum

variable (f : K → V → M)

@[simp] theorem sum_empty : Map.sum f ∅ = 0 := by
  simp [sum]

theorem sum_sub (f g : K → V → M) (m : Map K V) :
    Map.sum (fun k v => f k v - g k v) m = Map.sum f m - Map.sum g m := by
  unfold sum
  induction m.entries with
  | nil => simp
  | cons e l ih =>
    simp only [List.map_cons, List.sum_cons, ih]
    exact (add_sub_add_comm _ _ _ _).symm

variable [DecidableEq K]

private theorem sum_kerase (l : List (Sigma fun _ : K => V)) (k : K) :
    ((l.kerase k).map fun e => f e.1 e.2).sum =
      (l.map fun e => f e.1 e.2).sum - (l.dlookup k).elim 0 (f k) := by
  induction l with
  | nil => simp
  | cons e l ih =>
    obtain ⟨k', v⟩ := e
    by_cases hk : k = k'
    · subst hk
      simp
    · rw [List.kerase_cons_ne hk, List.dlookup_cons_ne _ _ hk, List.map_cons, List.map_cons,
        List.sum_cons, List.sum_cons, ih, add_sub_assoc]

/-- Erasing a key takes its weight away. -/
theorem sum_erase (m : Map K V) (k : K) :
    Map.sum f (m.erase k) = Map.sum f m - (m.lookup k).elim 0 (f k) :=
  sum_kerase f m.entries k

theorem sum_insert (m : Map K V) (k : K) (v : V) :
    Map.sum f (m.insert k v) = Map.sum f m - (m.lookup k).elim 0 (f k) + f k v := by
  rw [← sum_erase]
  unfold sum
  rw [AList.entries_insert, List.map_cons, List.sum_cons, add_comm]
  rfl

theorem sum_congr {f g : K → V → M} {m : Map K V}
    (h : ∀ k v, m.lookup k = some v → f k v = g k v) : Map.sum f m = Map.sum g m := by
  unfold sum
  congr 1
  refine List.map_congr_left fun e he => ?_
  exact h e.1 e.2 (AList.mem_lookup_iff.mpr he)

/-- A map with the images of the entries of another weighs what the images weigh. -/
theorem sum_of_lookup_map {W : Type} {m : Map K V} {m' : Map K W} (g : V → W)
    (h : ∀ k, m'.lookup k = (m.lookup k).map g) (f : K → W → M) :
    Map.sum f m' = Map.sum (fun k v => f k (g v)) m := by
  have hperm := Map.entries_perm_of_lookup_map g h
  have hsum := (hperm.map fun e : Sigma fun _ : K => W => f e.1 e.2).sum_eq
  rw [List.map_map] at hsum
  exact hsum

/-- Entries without a negative weight have no negative total. -/
theorem sum_nonneg [PartialOrder M] [IsOrderedAddMonoid M] {f : K → V → M} {m : Map K V}
    (h : ∀ k v, m.lookup k = some v → 0 ≤ f k v) : 0 ≤ Map.sum f m := by
  refine List.sum_nonneg fun x hx => ?_
  obtain ⟨e, he, rfl⟩ := List.mem_map.mp hx
  exact h e.1 e.2 (AList.mem_lookup_iff.mpr he)

end Go.Map

namespace Sums

variable {ι α M : Type*} [Fintype ι] [DecidableEq ι] [AddCommGroup M]

/-- A family that changes in one place changes its total by the difference there. -/
theorem sum_update (g : ι → α → M) (f : ι → α) (i : ι) (a : α) :
    ∑ k, g k (Function.update f i a k) = ∑ k, g k (f k) + (g i a - g i (f i)) := by
  have hdiff : ∑ k, (g k (Function.update f i a k) - g k (f k)) = g i a - g i (f i) := by
    rw [Finset.sum_eq_single i]
    · rw [Function.update_self]
    · intro k _ hk
      rw [Function.update_of_ne hk, sub_self]
    · intro hi
      exact absurd (Finset.mem_univ i) hi
  rw [← hdiff, Finset.sum_sub_distrib, add_sub_cancel]

end Sums
