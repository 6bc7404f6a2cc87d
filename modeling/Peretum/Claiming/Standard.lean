import Peretum.Claiming.Exhaustion
import Peretum.Claiming.Shares

/-!
# The standard population

The standard way to fill the table marks a free cell by a value that is not a claimant, and
a cell once claimed is never claimed again. It is the same procedure with the claimants
numbered from 1. The two ways go in lockstep until a claimant comes across a cell that
claimant 0 has claimed: the standard passes over it, and the other gives it away. From then
on the tables differ in that cell.
-/

namespace Claiming

open Function

variable {size : Nat} {prefer : Nat → Nat → Nat} {claimants turns : List Nat} {i : Nat}
  {s s' r r' : State}

/-- The preferences of the claimants numbered from 1. -/
def shifted (prefer : Nat → Nat → Nat) (i : Nat) : Nat → Nat := prefer (i - 1)

/-- The standard population: claimant `i` writes `i + 1`, and 0 marks a free cell. -/
def standard (size : Nat) (prefer : Nat → Nat → Nat) (claimants : List Nat) : Option State :=
  fill size (shifted prefer) (claimants.map (· + 1)) size .init

/-- The claimant of a cell of the standard population, if it is claimed. -/
def State.holder (s : State) (cell : Nat) : Option Nat :=
  if s.table cell = 0 then none else some (s.table cell - 1)

/-- The position of a claimant of the standard population in its list. -/
def State.position (s : State) (i : Nat) : Nat := s.next (i + 1)

theorem holder_eq_some_iff {cell : Nat} : s.holder cell = some i ↔ s.table cell = i + 1 := by
  unfold State.holder
  split
  · next hfree => simp [hfree]
  · rw [Option.some.injEq]
    omega

/-- Only claimants hold cells. -/
theorem mem_of_holder {cell : Nat} (hr : standard size prefer claimants = some r)
    (hcell : r.holder cell = some i) : i ∈ claimants := by
  have hheld := table_of_fill (p := fun k => k = 0 ∨ k ∈ claimants.map (· + 1)) (.inl rfl)
    (fun _ hj => .inr hj) hr cell
  rw [holder_eq_some_iff.mp hcell] at hheld
  simpa using hheld

/-- Lists that enumerate the table suffice for the standard population. -/
theorem standard_isSome (hne : claimants ≠ []) (hlists : Enumerates size prefer claimants) :
    (standard size prefer claimants).isSome := by
  have hshifted : Enumerates size (shifted prefer) (claimants.map (· + 1)) := by
    intro i hi
    obtain ⟨l, hl, rfl⟩ := List.mem_map.mp hi
    exact hlists l hl
  exact paid_init.fill_isSome hshifted (by simpa using hne) (Nat.le_add_left _ _)

/-- Every cell that a claimant other than 0 has come across is taken. -/
def PassedTaken (prefer : Nat → Nat → Nat) (s : State) : Prop :=
  ∀ i, i ≠ 0 → ∀ j < s.next i, s.table (prefer i j) ≠ 0

theorem PassedTaken.turn (hs : PassedTaken prefer s) (hturn : turn size prefer i s = some s') :
    PassedTaken prefer s' := by
  intro l hl j hj
  by_cases htaken : s.table (prefer l j) ≠ 0
  · rw [table_of_turn htaken hturn]
    exact htaken
  · -- Only the cell that is claimed was not taken before.
    rcases turn_cases hturn with ⟨-, rfl⟩ | ⟨-, k, -, -, -, hskipped, rfl⟩
    · exact hs l hl j hj
    · have hbefore : s.next l ≤ j := by
        by_contra hlt
        exact htaken (hs l hl j (by omega))
      by_cases hli : l = i
      · subst hli
        have hjk : j < k + 1 := by simpa [State.claim] using hj
        have hlast : j = k := by
          by_contra hne
          exact htaken (hskipped j hbefore (by omega))
        simpa [State.claim, hlast] using hl
      · have hsame : (s.claim i (prefer i k) (k + 1)).next l = s.next l :=
          update_of_ne hli ..
        omega

/-- A claimant does not go back in its list. -/
theorem next_le_of_turn (hturn : turn size prefer i s = some s') (l : Nat) :
    s.next l ≤ s'.next l := by
  rcases turn_cases hturn with ⟨-, rfl⟩ | ⟨-, k, hnext, -, -, -, rfl⟩
  · exact Nat.le_refl _
  · by_cases hli : l = i
    · subst hli
      simp only [State.claim, update_self]
      omega
    · simp [State.claim, update_of_ne hli]

/-- The two populations in lockstep: they differ in the cells of claimant 0 only, and no
other claimant has come across one of these. -/
structure Lockstep (prefer : Nat → Nat → Nat) (s r : State) : Prop where
  table : ∀ cell i, i ≠ 0 → (s.table cell = i ↔ r.table cell = i + 1)
  next : ∀ i, i ≠ 0 → s.next i = r.next (i + 1)
  /-- They have not come across a cell of claimant 0. -/
  clean : ∀ i, i ≠ 0 → ∀ j < r.next (i + 1), r.table (prefer i j) ≠ 1

/-- A cell of claimant 0 has gone to another claimant that came across it. -/
def Diverged (prefer : Nat → Nat → Nat) (s r : State) : Prop :=
  ∃ i j, i ≠ 0 ∧ j < r.next (i + 1) ∧ s.table (prefer i j) = i ∧ r.table (prefer i j) = 1

/-- What is free to the one population is free in the standard one or held by claimant 0. -/
theorem Lockstep.free_iff (h : Lockstep prefer s r) (cell : Nat) :
    s.table cell = 0 ↔ r.table cell ≤ 1 := by
  constructor
  · intro hfree
    by_contra hlarge
    have hheld := (h.table cell (r.table cell - 1) (by omega)).mpr (by omega)
    omega
  · intro hle
    by_contra htaken
    have hheld := (h.table cell (s.table cell) htaken).mp rfl
    omega

theorem Lockstep.turn_zero (h : Lockstep prefer s r) (hpassed : PassedTaken (shifted prefer) r)
    (hs : turn size prefer 0 s = some s') (hr : turn size (shifted prefer) 1 r = some r')
    (hfilled : r.filled < size) : Lockstep prefer s' r' := by
  have hsame := (Unnoticed.refl s).turn_zero hs
  rcases turn_cases hr with ⟨hfull, -⟩ | ⟨-, k, -, -, hfree, -, rfl⟩
  · omega
  · have hother : ∀ i, i ≠ 0 →
        (r.claim 1 (shifted prefer 1 k) (k + 1)).next (i + 1) = r.next (i + 1) :=
      fun i hi => update_of_ne (by omega) ..
    refine ⟨fun cell i hi => ?_, fun i hi => ?_, fun i hi j hj => ?_⟩
    · rw [← hsame.table, h.table cell i hi]
      by_cases hcell : cell = shifted prefer 1 k
      · rw [hcell, hfree]
        simp only [State.claim, update_self]
        omega
      · simp [State.claim, update_of_ne hcell]
    · rw [← hsame.next i hi, hother i hi, h.next i hi]
    · rw [hother i hi] at hj
      -- A cell that another claimant has come across is not the free one claimed here.
      have hne : prefer i j ≠ shifted prefer 1 k := by
        intro heq
        rw [← heq] at hfree
        exact hpassed (i + 1) (by omega) j hj hfree
      simpa [State.claim, update_of_ne hne] using h.clean i hi j hj

/-- A turn of another claimant in both populations: the same claim, or one of them claims a
cell of claimant 0 and the other passes over it. -/
theorem Lockstep.turn (h : Lockstep prefer s r) (hi : i ≠ 0)
    (hs : turn size prefer i s = some s') (hr : turn size (shifted prefer) (i + 1) r = some r')
    (hsfilled : s.filled < size) (hrfilled : r.filled < size) :
    Lockstep prefer s' r' ∨ Diverged prefer s' r' := by
  rcases turn_cases hr with ⟨hfull, -⟩ | ⟨-, k, hnext, -, hfree, hskipped, rfl⟩
  · omega
  rcases turn_cases hs with ⟨hfull, -⟩ | ⟨-, k', hnext', -, hfree', hskipped', rfl⟩
  · omega
  have hprefer : shifted prefer (i + 1) = prefer i := rfl
  rw [hprefer] at hfree hskipped ⊢
  rw [h.next i hi] at hnext' hskipped'
  have hle : k' ≤ k := by
    by_contra hlt
    refine hskipped' k hnext (by omega) ?_
    rw [h.free_iff, hfree]
    omega
  rcases Nat.eq_or_lt_of_le hle with rfl | hlt
  · left
    refine ⟨fun cell l hl => ?_, fun l hl => ?_, fun l hl j hj => ?_⟩
    · by_cases hcell : cell = prefer i k'
      · simp [State.claim, hcell]
      · simpa [State.claim, update_of_ne hcell] using h.table cell l hl
    · by_cases hli : l = i
      · simp [State.claim, hli]
      · have hli' : l + 1 ≠ i + 1 := by omega
        simpa [State.claim, update_of_ne hli, update_of_ne hli'] using h.next l hl
    · by_cases hcell : prefer l j = prefer i k'
      · simpa [State.claim, hcell] using hi
      · simp only [State.claim, update_of_ne hcell]
        by_cases hbefore : j < r.next (l + 1)
        · exact h.clean l hl j hbefore
        · -- The positions passed now were not free to the first population.
          have hli : l = i := by
            by_contra hne
            have hsame : (r.claim (i + 1) (prefer i k') (k' + 1)).next (l + 1) = r.next (l + 1) :=
              update_of_ne (by omega) ..
            omega
          subst hli
          have hjk : j < k' + 1 := by simpa [State.claim] using hj
          have hne : j ≠ k' := fun heq => hcell (by rw [heq])
          have htaken := hskipped' j (by omega) (by omega)
          rw [Ne, h.free_iff] at htaken
          omega
  · right
    have hzero : r.table (prefer i k') = 1 := by
      have hpassed := hskipped k' hnext' hlt
      rw [h.free_iff] at hfree'
      omega
    have hne : prefer i k' ≠ prefer i k := by
      intro heq
      rw [heq, hfree] at hzero
      omega
    refine ⟨i, k', hi, ?_, ?_, ?_⟩
    · simp only [State.claim, update_self]
      omega
    · simp [State.claim]
    · simpa [State.claim, update_of_ne hne] using hzero

theorem Diverged.turn (h : Diverged prefer s r) (hs : turn size prefer i s = some s')
    (hr : turn size (shifted prefer) (i + 1) r = some r') : Diverged prefer s' r' := by
  obtain ⟨l, j, hl, hj, hsl, hrl⟩ := h
  refine ⟨l, j, hl, hj.trans_le (next_le_of_turn hr (l + 1)), ?_, ?_⟩
  · rw [table_of_turn (by omega) hs]
    exact hsl
  · rw [table_of_turn (by omega) hr]
    exact hrl

theorem lockstep_or_diverged (h : Lockstep prefer s r ∨ Diverged prefer s r)
    (hpassed : PassedTaken (shifted prefer) r) (hsle : s.filled + turns.length ≤ size)
    (hrle : r.filled + turns.length ≤ size) (hs : round size prefer turns s = some s')
    (hr : round size (shifted prefer) (turns.map (· + 1)) r = some r') :
    Lockstep prefer s' r' ∨ Diverged prefer s' r' := by
  induction turns generalizing s r with
  | nil =>
    cases hs
    cases hr
    exact h
  | cons i turns ih =>
    obtain ⟨u, hu, hurest⟩ := Option.bind_eq_some_iff.mp hs
    obtain ⟨v, hv, hvrest⟩ := Option.bind_eq_some_iff.mp hr
    rw [List.length_cons] at hsle hrle
    have hufilled := filled_of_turn hu (by omega)
    have hvfilled := filled_of_turn hv (by omega)
    refine ih ?_ (hpassed.turn hv) (by omega) (by omega) hurest hvrest
    rcases h with h | h
    · by_cases hi : i = 0
      · subst hi
        exact .inl (h.turn_zero hpassed hu hv (by omega))
      · exact h.turn hi hu hv (by omega) (by omega)
    · exact .inr (h.turn hu hv)

theorem lockstep_init : Lockstep prefer .init .init := by
  refine ⟨fun cell i hi => ?_, fun _ _ => rfl, fun i _ j hj => ?_⟩
  · simpa [State.init] using Ne.symm hi
  · simp [State.init] at hj

/-- The two populations of a table are in lockstep to the end, or have diverged. -/
theorem lockstep_or_diverged_of_fill (hne : claimants ≠ [])
    (hs : fill size prefer claimants size .init = some s)
    (hr : standard size prefer claimants = some r) :
    Lockstep prefer s r ∨ Diverged prefer s r := by
  have hinit : State.init.filled = 0 := rfl
  have hlength := length_schedule hne size
  have hne' : claimants.map (· + 1) ≠ [] := by simpa using hne
  rw [fill_eq_round_schedule hne] at hs
  rw [standard, fill_eq_round_schedule hne', ← map_schedule] at hr
  have hpassed : PassedTaken (shifted prefer) .init := by
    intro i _ j hj
    simp [State.init] at hj
  exact lockstep_or_diverged (.inl lockstep_init) hpassed (by omega) (by omega) hs hr

/-- The standard population claims every cell, and its claimants stay within their lists. -/
theorem standard_spec (hne : claimants ≠ [])
    (hmaps : ∀ i ∈ claimants, ∀ j < size, prefer i j < size)
    (hr : standard size prefer claimants = some r) :
    (∀ cell < size, r.table cell ≠ 0) ∧ ∀ i, r.next i ≤ size := by
  have hne' : claimants.map (· + 1) ≠ [] := by simpa using hne
  have hmaps' : ∀ i ∈ claimants.map (· + 1), ∀ j < size, shifted prefer i j < size := by
    intro i hi
    obtain ⟨l, hl, rfl⟩ := List.mem_map.mp hi
    exact hmaps l hl
  have hpaid : Paid size (shifted prefer) r :=
    fill_invariant (fun i _ s t (hs : Paid size (shifted prefer) s) hturn => hs.of_turn hturn)
      paid_init hr
  refine ⟨fun cell hcell => ?_, hpaid.within⟩
  obtain ⟨l, -, hl⟩ := List.mem_map.mp (table_mem_of_fill hne' hmaps' hr hcell)
  omega

/-- The two tables are the same just when in the standard population no claimant other than
0 comes across a cell of claimant 0. -/
theorem eq_standard_iff (hne : claimants ≠ [])
    (hmaps : ∀ i ∈ claimants, ∀ j < size, prefer i j < size)
    (hs : fill size prefer claimants size .init = some s)
    (hr : standard size prefer claimants = some r) :
    (∀ cell < size, r.holder cell = some (s.table cell)) ↔
      ∀ i ∈ claimants, i ≠ 0 → ∀ j < r.position i, r.holder (prefer i j) ≠ some 0 := by
  obtain ⟨hclaimed, hwithin⟩ := standard_spec hne hmaps hr
  simp only [holder_eq_some_iff, State.position, ne_eq]
  rcases lockstep_or_diverged_of_fill hne hs hr with h | ⟨i, j, hi, hj, hsi, hri⟩
  · constructor
    · intro _ i _ hi
      exact h.clean i hi
    · intro _ cell hcell
      by_cases hzero : s.table cell = 0
      · have hle := (h.free_iff cell).mp hzero
        have hne := hclaimed cell hcell
        omega
      · exact (h.table cell (s.table cell) hzero).mp rfl
  · have hclaimant : i ∈ claimants := by
      have hholder := table_of_fill (p := fun l => l ≠ 0 → l ∈ claimants) (fun h => absurd rfl h)
        (fun l hl _ => hl) hs (prefer i j)
      rw [hsi] at hholder
      exact hholder hi
    have hcell : prefer i j < size := hmaps i hclaimant j (hj.trans_le (hwithin (i + 1)))
    constructor
    · intro hsame
      have hcontra := hsame _ hcell
      omega
    · intro hclean
      exact absurd hri (hclean i hclaimant hi j hj)

/-- A claimant that likes the first cell of claimant 0 best gets it, and not so in the standard
population. -/
theorem table_of_shared (hi : i ≠ 0) {rest : List Nat} (hshared : prefer i 0 = prefer 0 0)
    (hsize : rest.length + 2 ≤ size) (hs : fill size prefer (0 :: i :: rest) size .init = some s)
    (hr : standard size prefer (0 :: i :: rest) = some r) :
    s.table (prefer 0 0) = i ∧ r.holder (prefer 0 0) = some 0 := by
  have hinit : State.init.filled = 0 := rfl
  have hlength : (0 :: i :: rest).length ≤ size := hsize
  have hlength' : ((0 + 1) :: (i :: rest).map (· + 1)).length ≤ size := by
    rw [List.length_cons, List.length_map]
    exact hsize
  constructor
  · have hfirst : turn size prefer 0 .init = some (State.init.claim 0 (prefer 0 0) 1) :=
      turn_of_free (by omega) (Nat.le_refl 0) (by omega) rfl (by omega)
    have hsecond : turn size prefer i (State.init.claim 0 (prefer 0 0) 1) =
        some ((State.init.claim 0 (prefer 0 0) 1).claim i (prefer i 0) 1) := by
      apply turn_of_free
      · simp only [State.claim]
        omega
      · simp [State.claim, State.init, hi]
      · omega
      · simp [State.claim, hshared]
      · omega
    rw [fill_eq_round_schedule (List.cons_ne_nil _ _),
      schedule_eq_append (List.cons_ne_nil _ _) hlength, List.cons_append, round,
      hfirst, Option.bind_some, List.cons_append, round, hsecond, Option.bind_some] at hs
    have hheld : ((State.init.claim 0 (prefer 0 0) 1).claim i (prefer i 0) 1).table
        (prefer 0 0) = i := by simp [State.claim, hshared]
    rw [table_of_round (by omega) hs]
    exact hheld
  · have hfirst : turn size (shifted prefer) 1 .init =
        some (State.init.claim 1 (prefer 0 0) 1) :=
      turn_of_free (by omega) (Nat.le_refl 0) (by omega) rfl (by omega)
    rw [standard, List.map_cons, fill_eq_round_schedule (List.cons_ne_nil _ _),
      schedule_eq_append (List.cons_ne_nil _ _) hlength', List.cons_append, round,
      hfirst, Option.bind_some] at hr
    have hheld : (State.init.claim 1 (prefer 0 0) 1).table (prefer 0 0) = 1 := by
      simp [State.claim]
    rw [holder_eq_some_iff, table_of_round (by omega) hr]
    exact hheld

end Claiming
