import Mathlib.Data.List.MinMax

/-!
# The first of the best

`List.argmax` is the first element of the highest rank. It cuts the list into elements of
lower rank before it and elements of no higher rank after it, and a loop that keeps the
best element so far ends with it.
-/

namespace Ranking

variable {α β : Type*} {rank : α → Nat} {l : List α} {a : α} {best : Option α}

/-- A loop that starts from rank 0 takes an element of higher rank than its best so far. -/
theorem argAux_of_lt (hlt : best.elim 0 rank < rank a) :
    List.argAux (fun b c => rank c < rank b) best a = some a := by
  cases best with
  | none => rfl
  | some b => exact if_pos hlt

theorem argAux_of_le (hpos : 0 < rank a) (hle : rank a ≤ best.elim 0 rank) :
    List.argAux (fun b c => rank c < rank b) best a = best := by
  cases best with
  | none =>
    rw [Option.elim_none] at hle
    omega
  | some b => exact if_neg (Nat.not_lt.mpr hle)

/-- An element with lower ranks before it and no higher ranks after it is the first of the
best. -/
theorem argmax_append {before after : List α} (hbefore : ∀ x ∈ before, rank x < rank a)
    (hafter : ∀ x ∈ after, rank x ≤ rank a) : (before ++ a :: after).argmax rank = some a := by
  induction after using List.reverseRecOn with
  | nil =>
    rw [List.argmax_concat]
    cases hbest : before.argmax rank with
    | none => rfl
    | some c => exact if_pos (hbefore c (List.argmax_mem hbest))
  | append_singleton after x ih =>
    have hrest := ih fun y hy => hafter y (List.mem_append_left _ hy)
    have hx := hafter x (by simp)
    rw [← List.cons_append, ← List.append_assoc, List.argmax_concat, hrest]
    exact if_neg (Nat.not_lt.mpr hx)

/-- The first of the best has lower ranks before it and no higher ranks after it. -/
theorem exists_of_argmax (hbest : l.argmax rank = some a) :
    ∃ before after, l = before ++ a :: after ∧ (∀ x ∈ before, rank x < rank a) ∧
      ∀ x ∈ after, rank x ≤ rank a := by
  induction l using List.reverseRecOn with
  | nil => cases hbest
  | append_singleton l x ih =>
    rw [List.argmax_concat] at hbest
    cases hl : l.argmax rank with
    | none =>
      obtain rfl := List.argmax_eq_none.mp hl
      obtain rfl : x = a := by simpa using hbest
      exact ⟨[], [], rfl, by simp, by simp⟩
    | some c =>
      rw [hl] at hbest
      dsimp only at hbest
      split at hbest
      · next hlt =>
        cases hbest
        refine ⟨l, [], rfl, fun y hy => ?_, by simp⟩
        exact Nat.lt_of_le_of_lt (List.le_of_mem_argmax hy hl) hlt
      · next hge =>
        cases hbest
        obtain ⟨before, after, rfl, hbefore, hafter⟩ := ih hl
        refine ⟨before, after ++ [x], by simp, hbefore, fun y hy => ?_⟩
        rcases List.mem_append.mp hy with hy | hy
        · exact hafter y hy
        · obtain rfl := List.mem_singleton.mp hy
          omega

theorem exists_argmax (rank : α → Nat) (hne : l ≠ []) : ∃ a, l.argmax rank = some a := by
  apply Option.ne_none_iff_exists'.mp
  intro hnone
  exact hne (List.argmax_eq_none.mp hnone)

theorem argmax_map {f : β → α} {l : List β} {b : β} (hbest : l.argmax (rank ∘ f) = some b) :
    (l.map f).argmax rank = some (f b) := by
  obtain ⟨before, after, rfl, hbefore, hafter⟩ := exists_of_argmax hbest
  rw [List.map_append, List.map_cons]
  apply argmax_append
  · intro x hx
    obtain ⟨y, hy, rfl⟩ := List.mem_map.mp hx
    exact hbefore y hy
  · intro x hx
    obtain ⟨y, hy, rfl⟩ := List.mem_map.mp hx
    exact hafter y hy

end Ranking
