import Mathlib.Data.Finset.Card
import Mathlib.Order.Defs.LinearOrder

/-!
# Rotation by age

Each turn goes to a candidate with the oldest stamp, and gives it a new one. As long as
the new stamps are newer than all stamps at the start, no candidate has a second turn
before every candidate has had its first.
-/

namespace Rotation

open Function

variable {ι τ : Type*} [DecidableEq ι] [LinearOrder τ]

/-- Every turn goes to a candidate with the oldest stamp and stamps it. -/
def Turns (candidates : Finset ι) : (ι → τ) → List (ι × τ) → Prop
  | _, [] => True
  | stamp, (i, t) :: turns =>
      (i ∈ candidates ∧ ∀ j ∈ candidates, stamp i ≤ stamp j) ∧
        Turns candidates (update stamp i t) turns

variable {candidates : Finset ι} {stamp : ι → τ} {turns : List (ι × τ)}

/-- While candidates are left whose stamps are older than those of the visited ones and
than the stamps to come, the turns go to different candidates that were not visited. -/
theorem Turns.unvisited (hturns : Turns candidates stamp turns) {visited : Finset ι}
    (hsubset : visited ⊆ candidates)
    (hvisited : ∀ i ∈ visited, ∀ j ∈ candidates, j ∉ visited → stamp j < stamp i)
    (hnew : ∀ turn ∈ turns, ∀ j ∈ candidates, j ∉ visited → stamp j < turn.2)
    (hlength : turns.length + visited.card ≤ candidates.card) :
    (turns.map Prod.fst).Nodup ∧ ∀ turn ∈ turns, turn.1 ∉ visited := by
  induction turns generalizing stamp visited with
  | nil => exact ⟨List.nodup_nil, by simp⟩
  | cons turn turns ih =>
    obtain ⟨i, t⟩ := turn
    obtain ⟨⟨hi, holdest⟩, hrest⟩ := hturns
    rw [List.length_cons] at hlength
    -- A candidate that was not visited is older than the visited ones, so the turn is not theirs.
    have hfresh : i ∉ visited := by
      intro hmem
      obtain ⟨j, hj, hleft⟩ := Finset.exists_mem_notMem_of_card_lt_card
        (show visited.card < candidates.card by omega)
      exact absurd (holdest j hj) (not_le.mpr (hvisited i hmem j hj hleft))
    have hother : ∀ j, j ∉ insert i visited → j ≠ i ∧ j ∉ visited := by
      intro j hj
      rw [Finset.mem_insert, not_or] at hj
      exact hj
    have hnext := ih hrest (Finset.insert_subset hi hsubset) ?_ ?_ ?_
    · obtain ⟨hnodup, hunvisited⟩ := hnext
      refine ⟨List.nodup_cons.mpr ⟨?_, hnodup⟩, ?_⟩
      · intro hmem
        obtain ⟨turn, hturn, rfl⟩ := List.mem_map.mp hmem
        exact hunvisited turn hturn (Finset.mem_insert_self _ _)
      · intro turn hturn
        rcases List.mem_cons.mp hturn with rfl | hturn
        · exact hfresh
        · exact fun hmem => hunvisited turn hturn (Finset.mem_insert_of_mem hmem)
    · intro k hk j hj hleft
      obtain ⟨hne, hleft⟩ := hother j hleft
      rw [update_of_ne hne]
      by_cases hki : k = i
      · rw [hki, update_self]
        exact hnew (i, t) List.mem_cons_self j hj hleft
      · rw [update_of_ne hki]
        exact hvisited k ((Finset.mem_insert.mp hk).resolve_left hki) j hj hleft
    · intro turn hturn j hj hleft
      obtain ⟨hne, hleft⟩ := hother j hleft
      rw [update_of_ne hne]
      exact hnew turn (List.mem_cons_of_mem _ hturn) j hj hleft
    · rw [Finset.card_insert_of_notMem hfresh]
      omega

/-- As many turns as there are candidates, with stamps newer than those at the start, go to
different candidates. -/
theorem Turns.nodup (hturns : Turns candidates stamp turns)
    (hnew : ∀ turn ∈ turns, ∀ j ∈ candidates, stamp j < turn.2)
    (hlength : turns.length ≤ candidates.card) : (turns.map Prod.fst).Nodup := by
  refine (hturns.unvisited (Finset.empty_subset candidates) ?_ ?_ ?_).1
  · simp
  · exact fun turn hturn j hj _ => hnew turn hturn j hj
  · simpa using hlength

theorem Turns.mem (hturns : Turns candidates stamp turns) :
    ∀ turn ∈ turns, turn.1 ∈ candidates := by
  induction turns generalizing stamp with
  | nil => simp
  | cons turn turns ih =>
    intro other hother
    rcases List.mem_cons.mp hother with rfl | hother
    · exact hturns.1.1
    · exact ih hturns.2 other hother

end Rotation
