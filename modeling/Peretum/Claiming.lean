import Mathlib.Data.Finset.Card
import Mathlib.Data.Finset.Range

/-!
# Filling a table by preferences

Several claimants fill a table in turns. Each has a preference list of cells and
claims, in its turn, the next cell of its list that is free; a cell is free while it
holds 0. The claimant with number 0 therefore leaves the cells it claims free, and
others or itself may claim them again. A claimant that reaches the end of its list
makes the procedure fail. It does not fail when the list of every claimant is an
enumeration of the table.
-/

namespace Claiming

open Function

/-- The table, how far each claimant is in its list, and the number of claims. -/
structure State where
  table : Nat → Nat
  /-- The position of each claimant in its list. -/
  next : Nat → Nat
  /-- The number of claims so far. -/
  filled : Nat

/-- Nothing is claimed. -/
def State.init : State := ⟨fun _ => 0, fun _ => 0, 0⟩

/-- Look for a free cell among the preferences left, from a position on: the cell and the
position after it. -/
def seek (prefer : Nat → Nat) (table : Nat → Nat) : Nat → Nat → Option (Nat × Nat)
  | 0, _ => none
  | left + 1, j =>
      if table (prefer j) = 0 then some (prefer j, j + 1) else seek prefer table left (j + 1)

/-- One turn of a claimant. -/
def turn (size : Nat) (prefer : Nat → Nat → Nat) (i : Nat) (s : State) : Option State :=
  if size ≤ s.filled then some s
  else
    match seek (prefer i) s.table (size - s.next i) (s.next i) with
    | none => none
    | some (cell, j) =>
        some ⟨update s.table cell i, update s.next i j, s.filled + 1⟩

/-- One turn of each claimant. -/
def round (size : Nat) (prefer : Nat → Nat → Nat) : List Nat → State → Option State
  | [], s => some s
  | i :: claimants, s => (turn size prefer i s).bind (round size prefer claimants)

/-- Rounds until the table is filled. -/
def fill (size : Nat) (prefer : Nat → Nat → Nat) (claimants : List Nat) : Nat → State → Option State
  | 0, s => if size ≤ s.filled then some s else none
  | rounds + 1, s =>
      if size ≤ s.filled then some s
      else (round size prefer claimants s).bind (fill size prefer claimants rounds)

variable {size : Nat} {prefer : Nat → Nat → Nat} {claimants : List Nat}
  {s t : State} {rounds left j k i : Nat} {table : Nat → Nat}

theorem round_invariant {inv : State → Prop}
    (hturn : ∀ i ∈ claimants, ∀ s t, inv s → turn size prefer i s = some t → inv t) (hs : inv s)
    (hround : round size prefer claimants s = some t) : inv t := by
  induction claimants generalizing s with
  | nil =>
    cases hround
    exact hs
  | cons i claimants ih =>
    obtain ⟨u, hu, hrest⟩ := Option.bind_eq_some_iff.mp hround
    have hinv := hturn i List.mem_cons_self s u hs hu
    exact ih (fun j hj => hturn j (List.mem_cons_of_mem i hj)) hinv hrest

/-- A property that every turn keeps holds at the end. -/
theorem fill_invariant {inv : State → Prop}
    (hturn : ∀ i ∈ claimants, ∀ s t, inv s → turn size prefer i s = some t → inv t) (hs : inv s)
    (hfill : fill size prefer claimants rounds s = some t) : inv t := by
  induction rounds generalizing s with
  | zero =>
    rw [fill] at hfill
    split at hfill
    · cases hfill
      exact hs
    · cases hfill
  | succ rounds ih =>
    rw [fill] at hfill
    split at hfill
    · cases hfill
      exact hs
    · obtain ⟨u, hu, hrest⟩ := Option.bind_eq_some_iff.mp hfill
      exact ih (round_invariant hturn hs hu) hrest

/-- What `seek` finds: the first free cell. -/
theorem seek_eq_some {prefer : Nat → Nat} {cell next : Nat}
    (hseek : seek prefer table left j = some (cell, next)) :
    ∃ k, j ≤ k ∧ k < j + left ∧ cell = prefer k ∧ next = k + 1 ∧ table cell = 0 ∧
      ∀ l, j ≤ l → l < k → table (prefer l) ≠ 0 := by
  induction left generalizing j with
  | zero => cases hseek
  | succ left ih =>
    rw [seek] at hseek
    split at hseek
    · next hfree =>
      obtain ⟨rfl, rfl⟩ : prefer j = cell ∧ j + 1 = next := by simpa using hseek
      exact ⟨j, Nat.le_refl j, by omega, rfl, rfl, hfree, by omega⟩
    · next htaken =>
      obtain ⟨k, hjk, hk, hcell, hnext, hfree, hskipped⟩ := ih hseek
      refine ⟨k, by omega, by omega, hcell, hnext, hfree, fun l hl hlk => ?_⟩
      rcases Nat.eq_or_lt_of_le hl with rfl | hl
      · exact htaken
      · exact hskipped l hl hlk

/-- The state after a claimant has claimed a cell and moved to a position. -/
def State.claim (s : State) (i cell j : Nat) : State :=
  ⟨update s.table cell i, update s.next i j, s.filled + 1⟩

/-- A claimant claims the first free cell in the rest of its list. -/
theorem seek_of_free {prefer : Nat → Nat} (hjk : j ≤ k) (hk : k < j + left)
    (hfree : table (prefer k) = 0) (hskipped : ∀ l, j ≤ l → l < k → table (prefer l) ≠ 0) :
    seek prefer table left j = some (prefer k, k + 1) := by
  induction left generalizing j with
  | zero => omega
  | succ left ih =>
    rw [seek]
    rcases Nat.eq_or_lt_of_le hjk with rfl | hlt
    · rw [if_pos hfree]
    · rw [if_neg (hskipped j (Nat.le_refl j) hlt)]
      apply ih hlt
      · omega
      · intro l hl hlk
        exact hskipped l (by omega) hlk

theorem turn_of_free (hfilled : s.filled < size) (hnext : s.next i ≤ k) (hk : k < size)
    (hfree : s.table (prefer i k) = 0)
    (hskipped : ∀ l, s.next i ≤ l → l < k → s.table (prefer i l) ≠ 0) :
    turn size prefer i s = some (s.claim i (prefer i k) (k + 1)) := by
  rw [turn, if_neg (by omega), seek_of_free hnext (by omega) hfree hskipped]
  rfl

/-- What a turn does: nothing when the table is filled, and otherwise it claims the first free
cell in the rest of the list. -/
theorem turn_cases (hturn : turn size prefer i s = some t) :
    (size ≤ s.filled ∧ t = s) ∨
      (s.filled < size ∧ ∃ k, s.next i ≤ k ∧ k < size ∧ s.table (prefer i k) = 0 ∧
        (∀ l, s.next i ≤ l → l < k → s.table (prefer i l) ≠ 0) ∧
        t = s.claim i (prefer i k) (k + 1)) := by
  unfold turn at hturn
  split at hturn
  · next hfilled => exact .inl ⟨hfilled, (Option.some.inj hturn).symm⟩
  · next hfilled =>
    split at hturn
    · cases hturn
    · next cell j hseek =>
      obtain ⟨k, hnext, hk, rfl, rfl, hfree, hskipped⟩ := seek_eq_some hseek
      refine .inr ⟨by omega, k, hnext, by omega, hfree, hskipped, ?_⟩
      exact (Option.some.inj hturn).symm

theorem table_of_fill {p : Nat → Prop} (hzero : p 0) (hclaimants : ∀ i ∈ claimants, p i)
    (hfill : fill size prefer claimants rounds .init = some t) (cell : Nat) : p (t.table cell) := by
  have hturn : ∀ i ∈ claimants, ∀ s t : State, (∀ cell, p (s.table cell)) →
      turn size prefer i s = some t → ∀ cell, p (t.table cell) := by
    intro i hi s t hs hturn cell
    rcases turn_cases hturn with ⟨-, rfl⟩ | ⟨-, k, -, -, -, -, rfl⟩
    · exact hs cell
    · by_cases hcell : cell = prefer i k
      · simpa [State.claim, hcell] using hclaimants i hi
      · simpa [State.claim, update_of_ne hcell] using hs cell
  have hinit : ∀ cell, p (State.init.table cell) := fun _ => hzero
  exact fill_invariant hturn hinit hfill cell

/-- When `seek` fails no cell is free. -/
theorem seek_eq_none {prefer : Nat → Nat} (hseek : seek prefer table left j = none) :
    ∀ l, j ≤ l → l < j + left → table (prefer l) ≠ 0 := by
  induction left generalizing j with
  | zero => omega
  | succ left ih =>
    rw [seek] at hseek
    split at hseek
    · cases hseek
    · next htaken =>
      intro l hl hlt
      rcases Nat.eq_or_lt_of_le hl with rfl | hl
      · exact htaken
      · exact ih hseek l hl (by omega)

/-- The cells that are taken. -/
def taken (size : Nat) (s : State) : Finset Nat := (Finset.range size).filter (s.table · ≠ 0)

/-- The positions a claimant has passed whose cell is free. -/
def passed (prefer : Nat → Nat → Nat) (i : Nat) (s : State) : Finset Nat :=
  (Finset.range (s.next i)).filter fun j => s.table (prefer i j) = 0

/-- The claims pay for the cells that are taken and for the free cells a claimant has
passed. -/
structure Paid (size : Nat) (prefer : Nat → Nat → Nat) (s : State) : Prop where
  bound : ∀ i, (passed prefer i s).card + (taken size s).card ≤ s.filled
  within : ∀ i, s.next i ≤ size

theorem paid_init : Paid size prefer .init :=
  ⟨fun i => by simp [passed, taken, State.init], fun i => Nat.zero_le _⟩

/-- A claimant whose list enumerates the table finds a free cell while there are fewer
claims than cells. -/
theorem Paid.seek_isSome (hs : Paid size prefer s) (hmaps : ∀ j < size, prefer i j < size)
    (hinj : Set.InjOn (prefer i) (Finset.range size)) (hfilled : s.filled < size) :
    ∃ cell j, seek (prefer i) s.table (size - s.next i) (s.next i) = some (cell, j) := by
  cases hseek : seek (prefer i) s.table (size - s.next i) (s.next i) with
  | some found => exact ⟨found.1, found.2, rfl⟩
  | none =>
    have hall := seek_eq_none hseek
    -- The list hits every cell of the table.
    have hsurj : Set.SurjOn (prefer i) (Finset.range size) (Finset.range size) :=
      Finset.surjOn_of_injOn_of_card_le (prefer i)
        (fun j hj => by simpa using hmaps j (by simpa using hj)) hinj (Nat.le_refl _)
    -- So every free cell is at a position the claimant has passed.
    have hfree : (Finset.range size).filter (s.table · = 0) ⊆
        (passed prefer i s).image (prefer i) := by
      intro cell hcell
      obtain ⟨hlt, hzero⟩ := Finset.mem_filter.mp hcell
      obtain ⟨j, hj, rfl⟩ := hsurj hlt
      have hj' : j < size := by simpa using hj
      refine Finset.mem_image_of_mem _ (Finset.mem_filter.mpr ⟨?_, hzero⟩)
      by_contra hpassed
      refine hall j ?_ (by omega) hzero
      simpa using hpassed
    have hcount : ((Finset.range size).filter (s.table · = 0)).card + (taken size s).card =
        size := by
      have hsplit := Finset.card_filter_add_card_filter_not (s := Finset.range size)
        (fun cell => s.table cell = 0)
      simpa [taken] using hsplit
    have hle := (Finset.card_le_card hfree).trans Finset.card_image_le
    have hbound := hs.bound i
    omega

section Claim

variable {s : State} {i cell : Nat}

theorem free_of_free_claim (hfree : s.table cell = 0) {j c : Nat}
    (hc : (s.claim i cell j).table c = 0) : s.table c = 0 := by
  by_cases hsame : c = cell
  · rw [hsame]
    exact hfree
  · simpa [State.claim, update_of_ne hsame] using hc

theorem card_taken_claim_le (s : State) (i cell j : Nat) :
    (taken size (s.claim i cell j)).card ≤ (taken size s).card + 1 := by
  have hsub : taken size (s.claim i cell j) ⊆ insert cell (taken size s) := by
    intro c hc
    obtain ⟨hlt, hne⟩ := Finset.mem_filter.mp hc
    by_cases hsame : c = cell
    · rw [hsame]
      exact Finset.mem_insert_self _ _
    · apply Finset.mem_insert_of_mem
      apply Finset.mem_filter.mpr
      refine ⟨hlt, ?_⟩
      simpa [State.claim, update_of_ne hsame] using hne
  exact (Finset.card_le_card hsub).trans (Finset.card_insert_le _ _)

theorem passed_claim_of_ne (hfree : s.table cell = 0) {j l : Nat} (hl : l ≠ i) :
    passed prefer l (s.claim i cell j) ⊆ passed prefer l s := by
  intro p hp
  obtain ⟨hlt, hzero⟩ := Finset.mem_filter.mp hp
  apply Finset.mem_filter.mpr
  refine ⟨?_, free_of_free_claim hfree hzero⟩
  simpa [State.claim, update_of_ne hl] using hlt

/-- The claimant passes taken cells and the cell it claims, which stays free for claimant 0
only. -/
theorem mem_passed_claim {k : Nat} (hfree : s.table (prefer i k) = 0)
    (hskipped : ∀ l, s.next i ≤ l → l < k → s.table (prefer i l) ≠ 0) {p : Nat}
    (hp : p ∈ passed prefer i (s.claim i (prefer i k) (k + 1))) :
    p ∈ passed prefer i s ∨ (p = k ∧ i = 0) := by
  obtain ⟨hlt, hzero⟩ := Finset.mem_filter.mp hp
  have hp' : p < k + 1 := by simpa [State.claim] using hlt
  by_cases hpk : p = k
  · subst hpk
    exact .inr ⟨rfl, by simpa [State.claim] using hzero⟩
  · have hbefore := free_of_free_claim hfree hzero
    refine .inl (Finset.mem_filter.mpr ⟨?_, hbefore⟩)
    by_contra hnot
    exact hskipped p (by simpa using hnot) (by omega) hbefore

end Claim

theorem Paid.claim (hs : Paid size prefer s) (hk : k < size) (hfree : s.table (prefer i k) = 0)
    (hskipped : ∀ l, s.next i ≤ l → l < k → s.table (prefer i l) ≠ 0) :
    Paid size prefer (s.claim i (prefer i k) (k + 1)) := by
  have htaken : (taken size (s.claim i (prefer i k) (k + 1))).card ≤ (taken size s).card + 1 :=
    card_taken_claim_le s i (prefer i k) (k + 1)
  have hfilled : (s.claim i (prefer i k) (k + 1)).filled = s.filled + 1 := rfl
  refine ⟨fun l => ?_, fun l => ?_⟩
  · have hbound := hs.bound l
    by_cases hl : l = i
    · subst hl
      by_cases hzero : l = 0
      · -- Claimant 0 leaves the table as it is, and passes one free cell.
        have hsame : (s.claim l (prefer l k) (k + 1)).table = s.table :=
          Function.update_eq_self_iff.mpr (hzero.trans hfree.symm)
        have htaken_eq : taken size (s.claim l (prefer l k) (k + 1)) = taken size s := by
          rw [taken, taken, hsame]
        have hsub : passed prefer l (s.claim l (prefer l k) (k + 1)) ⊆
            insert k (passed prefer l s) := by
          intro p hp
          rcases mem_passed_claim hfree hskipped hp with hp | ⟨rfl, -⟩
          · exact Finset.mem_insert_of_mem hp
          · exact Finset.mem_insert_self _ _
        have hle := (Finset.card_le_card hsub).trans (Finset.card_insert_le _ _)
        rw [htaken_eq]
        omega
      · have hsub : passed prefer l (s.claim l (prefer l k) (k + 1)) ⊆ passed prefer l s :=
          fun p hp => (mem_passed_claim hfree hskipped hp).resolve_right fun h => hzero h.2
        have hle := Finset.card_le_card hsub
        omega
    · have hsub : passed prefer l (s.claim i (prefer i k) (k + 1)) ⊆ passed prefer l s :=
        passed_claim_of_ne hfree hl
      have hle := Finset.card_le_card hsub
      omega
  · by_cases hl : l = i
    · subst hl
      simp only [State.claim, update_self]
      omega
    · simpa [State.claim, update_of_ne hl] using hs.within l

theorem Paid.of_turn (hs : Paid size prefer s) (hturn : Claiming.turn size prefer i s = some t) :
    Paid size prefer t := by
  rcases turn_cases hturn with ⟨-, rfl⟩ | ⟨-, k, -, hk, hfree, hskipped, rfl⟩
  · exact hs
  · exact hs.claim hk hfree hskipped

/-- The lists of the claimants enumerate the table. -/
def Enumerates (size : Nat) (prefer : Nat → Nat → Nat) (claimants : List Nat) : Prop :=
  ∀ i ∈ claimants, (∀ j < size, prefer i j < size) ∧ Set.InjOn (prefer i) (Finset.range size)

theorem Paid.turn (hs : Paid size prefer s) (hlists : Enumerates size prefer claimants)
    (hi : i ∈ claimants) :
    ∃ t, turn size prefer i s = some t ∧ Paid size prefer t ∧ s.filled ≤ t.filled ∧
      (s.filled < size → s.filled < t.filled) := by
  by_cases hfilled : size ≤ s.filled
  · exact ⟨s, if_pos hfilled, hs, Nat.le_refl _, fun hlt => absurd hfilled (Nat.not_le.mpr hlt)⟩
  · obtain ⟨cell, j, hseek⟩ :=
      hs.seek_isSome (hlists i hi).1 (hlists i hi).2 (Nat.not_le.mp hfilled)
    have hturn : Claiming.turn size prefer i s = some (s.claim i cell j) := by
      rw [Claiming.turn, if_neg hfilled, hseek]
      rfl
    exact ⟨_, hturn, hs.of_turn hturn, Nat.le_succ _, fun _ => Nat.lt_succ_self _⟩

/-- A round does not fail, and the first claimant claims a cell if the table is not
filled. -/
theorem Paid.round (hs : Paid size prefer s) (hlists : Enumerates size prefer claimants)
    {claimants' : List Nat} (hsub : claimants' ⊆ claimants) :
    ∃ t, round size prefer claimants' s = some t ∧ Paid size prefer t ∧ s.filled ≤ t.filled ∧
      (claimants' ≠ [] → s.filled < size → s.filled < t.filled) := by
  induction claimants' generalizing s with
  | nil => exact ⟨s, rfl, hs, Nat.le_refl _, fun h => absurd rfl h⟩
  | cons i claimants' ih =>
    obtain ⟨hi, hsub⟩ := List.cons_subset.mp hsub
    obtain ⟨u, hu, hupaid, hle, hlt⟩ := hs.turn hlists hi
    obtain ⟨t, ht, htpaid, hle', -⟩ := ih hupaid hsub
    refine ⟨t, ?_, htpaid, hle.trans hle', fun _ hfilled => (hlt hfilled).trans_le hle'⟩
    rw [Claiming.round, hu, Option.bind_some, ht]

/-- Filling the table does not fail, given a round for each claim that is left. -/
theorem Paid.fill_isSome (hs : Paid size prefer s) (hlists : Enumerates size prefer claimants)
    (hne : claimants ≠ []) (hrounds : size ≤ s.filled + rounds) :
    (fill size prefer claimants rounds s).isSome := by
  induction rounds generalizing s with
  | zero => simp [fill, show size ≤ s.filled from hrounds]
  | succ rounds ih =>
    rw [fill]
    split
    · rfl
    · next hfilled =>
      obtain ⟨t, ht, htpaid, -, hlt⟩ := hs.round hlists (List.Subset.refl claimants)
      have hprogress := hlt hne (Nat.not_le.mp hfilled)
      rw [ht, Option.bind_some]
      exact ih htpaid (by omega)

example : (fill 5 (fun i j => (i + j * (i + 1)) % 5) [0, 1] 5 .init).isSome = true := by decide

end Claiming
