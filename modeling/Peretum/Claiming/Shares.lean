import Peretum.Claiming.Turns

/-!
# The shares of the claimants

In the end every claimant holds as many cells as it had turns. A claimant other than 0
keeps each cell it claims. Claimant 0 may lose what it claims to others, but holds all the
cells that nobody else has taken, and these are as many as its turns.
-/

namespace Claiming

variable {size : Nat} {prefer : Nat → Nat → Nat} {claimants turns : List Nat} {i : Nat}
  {s t : State}

/-- The cells whose claimant is one of some. -/
def held (size : Nat) (s : State) (p : Nat → Bool) : Finset Nat :=
  (Finset.range size).filter fun cell => p (s.table cell) = true

theorem card_held_claim {p : Nat → Bool} (hp : p 0 = false) {cell j : Nat} (hcell : cell < size)
    (hfree : s.table cell = 0) :
    (held size (s.claim i cell j) p).card = (held size s p).card + if p i then 1 else 0 := by
  have hnot : cell ∉ held size s p := by simp [held, hfree, hp]
  have hsame : ∀ c, c ≠ cell → (s.claim i cell j).table c = s.table c :=
    fun c hc => Function.update_of_ne hc ..
  have hself : (s.claim i cell j).table cell = i := Function.update_self ..
  by_cases hi : p i = true
  · have heq : held size (s.claim i cell j) p = insert cell (held size s p) := by
      ext c
      by_cases hc : c = cell
      · simp [held, hc, hself, hi, hcell]
      · simp [held, hc, hsame c hc]
    rw [heq, Finset.card_insert_of_notMem hnot, if_pos hi]
  · have heq : held size (s.claim i cell j) p = held size s p := by
      ext c
      by_cases hc : c = cell
      · simp [held, hc, hself, hi, hfree, hp]
      · simp [held, hsame c hc]
    rw [heq, if_neg hi, Nat.add_zero]

/-- Some claimants, not 0 among them, hold a cell for each of their turns. -/
theorem card_held_round {p : Nat → Bool} (hp : p 0 = false)
    (hmaps : ∀ i ∈ turns, ∀ j < size, prefer i j < size) (hle : s.filled + turns.length ≤ size)
    (hround : round size prefer turns s = some t) :
    (held size t p).card = (held size s p).card + turns.countP p := by
  induction turns generalizing s with
  | nil =>
    cases hround
    rfl
  | cons i turns ih =>
    obtain ⟨u, hu, hrest⟩ := Option.bind_eq_some_iff.mp hround
    rw [List.length_cons] at hle
    have hclaims := filled_of_turn hu (by omega)
    have hlater := ih (fun l hl => hmaps l (List.mem_cons_of_mem i hl)) (by omega) hrest
    have hclaim : (held size u p).card = (held size s p).card + if p i then 1 else 0 := by
      rcases turn_cases hu with ⟨hfull, -⟩ | ⟨-, k, -, hk, hfree, -, rfl⟩
      · omega
      · exact card_held_claim hp (hmaps i List.mem_cons_self k hk) hfree
    rw [hlater, hclaim, List.countP_cons]
    omega

/-- When the table is filled, every claimant holds a cell for each of its turns. -/
theorem card_held_schedule (hne : claimants ≠ [])
    (hmaps : ∀ i ∈ claimants, ∀ j < size, prefer i j < size)
    (hfill : fill size prefer claimants size .init = some t) (i : Nat) :
    (held size t (· == i)).card = (schedule claimants size).count i := by
  rw [fill_eq_round_schedule hne] at hfill
  have hlength := length_schedule hne size
  have hinit : State.init.filled = 0 := rfl
  have hround : ∀ p : Nat → Bool, p 0 = false →
      (held size t p).card = (schedule claimants size).countP p := by
    intro p hp
    have hcard := card_held_round hp (fun i hi => hmaps i (mem_of_mem_schedule hi)) (by omega) hfill
    have hnone : held size .init p = ∅ := by simp [held, State.init, hp]
    rw [hcard, hnone, Finset.card_empty, Nat.zero_add]
  by_cases hi : i = 0
  · -- What claimant 0 holds is what the others do not, and so are its turns.
    subst hi
    have hothers := hround (· != 0) rfl
    have hcells : (held size t (· == 0)).card + (held size t (· != 0)).card = size := by
      have hsplit := Finset.card_filter_add_card_filter_not (s := Finset.range size)
        (fun cell => (t.table cell == 0) = true)
      simpa [held] using hsplit
    have hturns : (schedule claimants size).count 0 + (schedule claimants size).countP (· != 0) =
        size := by
      have hsplit := List.length_eq_countP_add_countP (· == 0) (l := schedule claimants size)
      have hothers : (schedule claimants size).countP (fun l => decide ¬ (l == 0) = true) =
          (schedule claimants size).countP (· != 0) := List.countP_congr (by simp)
      rw [hothers, hlength] at hsplit
      exact hsplit.symm
    omega
  · exact hround (· == i) (by simpa using Ne.symm hi)

theorem table_mem_of_fill (hne : claimants ≠ [])
    (hmaps : ∀ i ∈ claimants, ∀ j < size, prefer i j < size)
    (hfill : fill size prefer claimants size .init = some t) {cell : Nat} (hcell : cell < size) :
    t.table cell ∈ claimants := by
  by_contra hnot
  have hcount : (schedule claimants size).count (t.table cell) = 0 :=
    List.count_eq_zero_of_not_mem fun hmem => hnot (mem_of_mem_schedule hmem)
  have hcard := card_held_schedule hne hmaps hfill (t.table cell)
  rw [hcount, Finset.card_eq_zero] at hcard
  have hmem : cell ∈ held size t (· == t.table cell) := by simp [held, hcell]
  rw [hcard] at hmem
  exact absurd hmem (Finset.notMem_empty cell)

theorem card_held_le (hne : claimants ≠ []) (hnodup : claimants.Nodup)
    (hmaps : ∀ i ∈ claimants, ∀ j < size, prefer i j < size)
    (hfill : fill size prefer claimants size .init = some t) {i j : Nat} (hi : i ∈ claimants)
    (hj : j ∈ claimants) :
    (held size t (· == i)).card ≤ (held size t (· == j)).card + 1 := by
  rw [card_held_schedule hne hmaps hfill, card_held_schedule hne hmaps hfill]
  have hupper := (count_schedule hnodup hi size).2
  have hlower := (count_schedule hnodup hj size).1
  omega

end Claiming
