import Peretum.Claiming.Turns

/-!
# Running out of preferences

A list that enumerates the table always has a free cell left. A list that names one cell
only is at its end as soon as that cell is taken. Whether it is can be told without
claimant 0, whose claims no other claimant notices.
-/

namespace Claiming

variable {size : Nat} {prefer : Nat → Nat → Nat} {claimants turns : List Nat} {i : Nat}
  {s t u : State}

/-- One state is another without the turns of claimant 0. -/
structure Unnoticed (s u : State) : Prop where
  table : u.table = s.table
  next : ∀ i, i ≠ 0 → u.next i = s.next i
  filled : u.filled ≤ s.filled

/-- Without a turn of claimant 0 nothing is missing. -/
theorem Unnoticed.refl (s : State) : Unnoticed s s := ⟨rfl, fun _ _ => rfl, Nat.le_refl _⟩

theorem Unnoticed.turn_zero (h : Unnoticed s u) (hturn : turn size prefer 0 s = some t) :
    Unnoticed t u := by
  rcases turn_cases hturn with ⟨-, rfl⟩ | ⟨-, k, -, -, hfree, -, rfl⟩
  · exact h
  · have hsame : (s.claim 0 (prefer 0 k) (k + 1)).table = s.table :=
      Function.update_eq_self_iff.mpr hfree.symm
    refine ⟨h.table.trans hsame.symm, fun i hi => ?_, Nat.le_succ_of_le h.filled⟩
    exact (h.next i hi).trans (Function.update_of_ne hi ..).symm

theorem Unnoticed.turn (h : Unnoticed s u) (hi : i ≠ 0) (hfilled : s.filled < size)
    (hturn : turn size prefer i s = some t) :
    ∃ v, Claiming.turn size prefer i u = some v ∧ Unnoticed t v := by
  rcases turn_cases hturn with ⟨hfull, -⟩ | ⟨-, k, hnext, hk, hfree, hskipped, rfl⟩
  · omega
  · have hle := h.filled
    rw [← h.table] at hfree hskipped
    rw [← h.next i hi] at hnext hskipped
    refine ⟨_, turn_of_free (by omega) hnext hk hfree hskipped, ?_, fun l hl => ?_, ?_⟩
    · simp only [State.claim, h.table]
    · by_cases hli : l = i
      · simp [State.claim, hli]
      · simpa [State.claim, Function.update_of_ne hli] using h.next l hl
    · exact Nat.succ_le_succ hle

theorem Unnoticed.round (h : Unnoticed s u) (hle : s.filled + turns.length ≤ size)
    (hround : round size prefer turns s = some t) :
    ∃ v, Claiming.round size prefer (turns.filter (· != 0)) u = some v ∧ Unnoticed t v := by
  induction turns generalizing s u with
  | nil =>
    cases hround
    exact ⟨u, rfl, h⟩
  | cons i turns ih =>
    obtain ⟨s', hs', hrest⟩ := Option.bind_eq_some_iff.mp hround
    rw [List.length_cons] at hle
    have hclaims := filled_of_turn hs' (by omega)
    by_cases hi : i = 0
    · subst hi
      exact ih (h.turn_zero hs') (by omega) hrest
    · obtain ⟨u', hu', h'⟩ := h.turn hi (by omega) hs'
      obtain ⟨v, hv, hv'⟩ := ih h' (by omega) hrest
      refine ⟨v, ?_, hv'⟩
      rw [List.filter_cons_of_pos (by simpa using hi), Claiming.round, hu', Option.bind_some, hv]

/-- A list that names one cell only. -/
def Stuck (prefer : Nat → Nat → Nat) (i : Nat) : Prop := ∀ j, prefer i j = prefer i 0

/-- Such a list has nothing to offer when its cell is taken. -/
theorem Stuck.free_of_turn (hstuck : Stuck prefer i) (hfilled : s.filled < size)
    (hturn : turn size prefer i s = some t) : s.table (prefer i 0) = 0 := by
  rcases turn_cases hturn with ⟨hfull, -⟩ | ⟨-, k, -, -, hfree, -⟩
  · omega
  · rw [← hstuck k]
    exact hfree

/-- It lasts as long as its cell is free. -/
theorem Stuck.turn_isSome (hstuck : Stuck prefer i) (hs : Paid size prefer s)
    (hfilled : s.filled < size) (hfree : s.table (prefer i 0) = 0) :
    (turn size prefer i s).isSome := by
  -- Every position passed has been paid for, since its cell is free.
  have hpassed : passed prefer i s = Finset.range (s.next i) := by
    apply Finset.filter_true_of_mem
    intro j _
    rw [hstuck j]
    exact hfree
  have hbound := hs.bound i
  rw [hpassed, Finset.card_range] at hbound
  have hturn : turn size prefer i s = some (s.claim i (prefer i (s.next i)) (s.next i + 1)) := by
    apply turn_of_free hfilled (Nat.le_refl _)
    · omega
    · rw [hstuck]
      exact hfree
    · omega
  rw [hturn]
  rfl

/-- A list that enumerates the table, or names a cell that is free, suffices for a turn. -/
theorem Paid.turn_isSome (hs : Paid size prefer s) (hfilled : s.filled < size)
    (hlist : Stuck prefer i ∨
      (∀ j < size, prefer i j < size) ∧ Set.InjOn (prefer i) (Finset.range size))
    (hfree : Stuck prefer i → s.table (prefer i 0) = 0) :
    (Claiming.turn size prefer i s).isSome := by
  by_cases hstuck : Stuck prefer i
  · exact hstuck.turn_isSome hs hfilled (hfree hstuck)
  · obtain ⟨hmaps, hinj⟩ := hlist.resolve_left hstuck
    obtain ⟨cell, j, hseek⟩ := hs.seek_isSome hmaps hinj hfilled
    rw [Claiming.turn, if_neg (by omega), hseek]
    rfl

/-- At every turn of a claimant with one cell, that cell is free after the turns of the others
before, those of claimant 0 left out. -/
def Spared (size : Nat) (prefer : Nat → Nat → Nat) (turns : List Nat) : Prop :=
  ∀ before i after, turns = before ++ i :: after → Stuck prefer i →
    ∃ u, round size prefer (before.filter (· != 0)) .init = some u ∧ u.table (prefer i 0) = 0

/-- Turns that succeed spare the claimants with one cell. -/
theorem spared_of_round (hle : turns.length ≤ size)
    (hround : round size prefer turns .init = some t) : Spared size prefer turns := by
  intro before i after hturns hstuck
  have hinit : State.init.filled = 0 := rfl
  rw [hturns, round_append] at hround
  rw [hturns, List.length_append, List.length_cons] at hle
  obtain ⟨s, hs, hrest⟩ := Option.bind_eq_some_iff.mp hround
  obtain ⟨s', hturn, -⟩ := Option.bind_eq_some_iff.mp hrest
  have hclaims := filled_of_round hs (by omega)
  obtain ⟨u, hu, hsu⟩ := (Unnoticed.refl .init).round (by omega) hs
  refine ⟨u, hu, ?_⟩
  rw [hsu.table]
  exact hstuck.free_of_turn (by omega) hturn

/-- Turns that spare the claimants with one cell succeed one after another. -/
theorem Spared.exists_round (hspared : Spared size prefer turns) (hle : turns.length ≤ size)
    (hlists : ∀ i ∈ turns, Stuck prefer i ∨
      (∀ j < size, prefer i j < size) ∧ Set.InjOn (prefer i) (Finset.range size))
    {before after : List Nat} (hturns : turns = before ++ after) :
    ∃ s, Claiming.round size prefer before .init = some s ∧ Paid size prefer s := by
  have hinit : State.init.filled = 0 := rfl
  induction before using List.reverseRecOn generalizing after with
  | nil => exact ⟨.init, rfl, paid_init⟩
  | append_singleton before i ih =>
    rw [List.append_assoc] at hturns
    obtain ⟨s, hs, hpaid⟩ := ih hturns
    have hmem : i ∈ turns := by
      rw [hturns]
      simp
    rw [hturns, List.length_append, List.length_append, List.length_singleton] at hle
    have hclaims := filled_of_round hs (by omega)
    have hturn := hpaid.turn_isSome (by omega) (hlists i hmem) fun hstuck => by
      obtain ⟨u, hu, hcell⟩ := hspared before i after hturns hstuck
      obtain ⟨v, hv, hsv⟩ := (Unnoticed.refl .init).round (by omega) hs
      obtain rfl := Option.some.inj (hu.symm.trans hv)
      rw [hsv.table] at hcell
      exact hcell
    obtain ⟨t, ht⟩ := Option.isSome_iff_exists.mp hturn
    refine ⟨t, ?_, hpaid.of_turn ht⟩
    rw [round_append, hs, Option.bind_some, Claiming.round, ht]
    rfl

/-- Lists that enumerate the table or name one cell only suffice just when the claimants with
one cell are spared. -/
theorem fill_isSome_iff (hne : claimants ≠ [])
    (hlists : ∀ i ∈ claimants, Stuck prefer i ∨
      (∀ j < size, prefer i j < size) ∧ Set.InjOn (prefer i) (Finset.range size)) :
    (fill size prefer claimants size .init).isSome ↔
      Spared size prefer (schedule claimants size) := by
  have hle := Nat.le_of_eq (length_schedule hne size)
  rw [fill_eq_round_schedule hne]
  constructor
  · intro hfill
    obtain ⟨t, ht⟩ := Option.isSome_iff_exists.mp hfill
    exact spared_of_round hle ht
  · intro hspared
    obtain ⟨s, hs, -⟩ := hspared.exists_round hle (fun i hi => hlists i (mem_of_mem_schedule hi))
      (List.append_nil _).symm
    rw [hs]
    rfl

/-- A claimant other than 0 with one cell takes it in its first turn, and has nothing left
for a second one. -/
theorem round_eq_none_of_stuck (hstuck : Stuck prefer i) (hi : i ≠ 0)
    {before between after : List Nat} (hturns : turns = before ++ i :: between ++ i :: after)
    (hle : turns.length ≤ size) : round size prefer turns .init = none := by
  have hinit : State.init.filled = 0 := rfl
  rw [hturns, List.length_append, List.length_append, List.length_cons, List.length_cons] at hle
  cases hround : round size prefer turns .init with
  | none => rfl
  | some t =>
    exfalso
    rw [hturns, round_append, round_append] at hround
    obtain ⟨v, hv, hlast⟩ := Option.bind_eq_some_iff.mp hround
    obtain ⟨w, hw, -⟩ := Option.bind_eq_some_iff.mp hlast
    obtain ⟨s, hs, hfirst⟩ := Option.bind_eq_some_iff.mp hv
    obtain ⟨u, hu, hbetween⟩ := Option.bind_eq_some_iff.mp hfirst
    have hsfilled := filled_of_round hs (by omega)
    have hufilled := filled_of_turn hu (by omega)
    have hvfilled := filled_of_round hbetween (by omega)
    have htaken : u.table (prefer i 0) ≠ 0 := by
      rcases turn_cases hu with ⟨hfull, -⟩ | ⟨-, k, -, -, -, -, rfl⟩
      · omega
      · simpa [State.claim, hstuck k] using hi
    have hfree := hstuck.free_of_turn (by omega) hw
    rw [table_of_round htaken hbetween] at hfree
    exact htaken hfree

/-- So the table cannot be filled if it has room for two rounds. -/
theorem fill_eq_none_of_stuck (hstuck : Stuck prefer i) (hi : i ≠ 0) (hmem : i ∈ claimants)
    (hsize : 2 * claimants.length ≤ size) : fill size prefer claimants size .init = none := by
  have hne := List.ne_nil_of_mem hmem
  have hlength := length_schedule hne size
  obtain ⟨before, after, hsplit⟩ := List.append_of_mem hmem
  obtain ⟨rest, hrounds⟩ : ∃ rest, schedule claimants size = claimants ++ (claimants ++ rest) := by
    refine ⟨schedule claimants (size - claimants.length - claimants.length), ?_⟩
    rw [schedule_eq_append hne (by omega)]
    congr 1
    exact schedule_eq_append hne (by omega)
  have hturns : schedule claimants size =
      before ++ i :: (after ++ before) ++ i :: (after ++ rest) := by
    rw [hrounds, hsplit]
    simp
  rw [fill_eq_round_schedule hne]
  exact round_eq_none_of_stuck hstuck hi hturns (Nat.le_of_eq hlength)

end Claiming
