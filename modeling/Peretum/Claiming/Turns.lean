import Mathlib.Data.List.Nodup
import Peretum.Claiming

/-!
# The order of the turns

Every turn is one claim, so the table is filled by as many turns as it has cells, whatever
the claimants prefer. Which claimant has which turn is known beforehand: the claimants
come round as often as the number of cells allows, and the first of them once more.
-/

namespace Claiming

variable {size : Nat} {prefer : Nat → Nat → Nat} {claimants turns : List Nat} {i : Nat}
  {s t : State}

theorem filled_of_turn (hturn : turn size prefer i s = some t) (hle : s.filled ≤ size) :
    t.filled = min size (s.filled + 1) := by
  rcases turn_cases hturn with ⟨hfilled, rfl⟩ | ⟨hfilled, k, -, -, -, -, rfl⟩
  · omega
  · simp only [State.claim]
    omega

theorem table_of_turn {cell : Nat} (htaken : s.table cell ≠ 0)
    (hturn : turn size prefer i s = some t) : t.table cell = s.table cell := by
  rcases turn_cases hturn with ⟨-, rfl⟩ | ⟨-, k, -, -, hfree, -, rfl⟩
  · rfl
  · have hne : cell ≠ prefer i k := by
      rintro rfl
      exact htaken hfree
    exact Function.update_of_ne hne ..

/-- A cell that is taken stays with its claimant for all turns to come. -/
theorem table_of_round {cell : Nat} (htaken : s.table cell ≠ 0)
    (hround : round size prefer turns s = some t) : t.table cell = s.table cell := by
  induction turns generalizing s with
  | nil =>
    cases hround
    rfl
  | cons i turns ih =>
    obtain ⟨u, hu, hrest⟩ := Option.bind_eq_some_iff.mp hround
    have hsame := table_of_turn htaken hu
    rw [← hsame] at htaken
    exact (ih htaken hrest).trans hsame

theorem round_of_filled (turns : List Nat) (hfilled : size ≤ s.filled) :
    round size prefer turns s = some s := by
  induction turns with
  | nil => rfl
  | cons i turns ih => rw [round, turn, if_pos hfilled, Option.bind_some, ih]

theorem round_append (first second : List Nat) (s : State) :
    round size prefer (first ++ second) s =
      (round size prefer first s).bind (round size prefer second) := by
  induction first generalizing s with
  | nil => rfl
  | cons i first ih =>
    simp only [List.cons_append, round, Option.bind_assoc]
    congr 1
    funext t
    exact ih t

theorem filled_of_round (hround : round size prefer turns s = some t) (hle : s.filled ≤ size) :
    t.filled = min size (s.filled + turns.length) := by
  induction turns generalizing s with
  | nil =>
    cases hround
    rw [List.length_nil]
    omega
  | cons i turns ih =>
    obtain ⟨u, hu, hrest⟩ := Option.bind_eq_some_iff.mp hround
    have hclaimed := filled_of_turn hu hle
    have hlater := ih hrest (by omega)
    rw [List.length_cons]
    omega

theorem round_append_of_filled {first : List Nat} (second : List Nat) (hle : s.filled ≤ size)
    (hfirst : size ≤ s.filled + first.length) :
    round size prefer (first ++ second) s = round size prefer first s := by
  rw [round_append]
  cases hround : round size prefer first s with
  | none => rfl
  | some u =>
    have hfilled := filled_of_round hround hle
    rw [Option.bind_some, round_of_filled second (by omega)]

/-- The first turns when the claimants come round again and again. -/
def schedule (claimants : List Nat) (n : Nat) : List Nat :=
  (List.replicate (n / claimants.length) claimants).flatten ++
    claimants.take (n % claimants.length)

theorem length_schedule (hne : claimants ≠ []) (n : Nat) : (schedule claimants n).length = n := by
  have hpos := List.length_pos_of_ne_nil hne
  have hmod := Nat.mod_lt n hpos
  have hdiv := Nat.div_add_mod' n claimants.length
  rw [schedule, List.length_append, List.length_flatten, List.map_replicate, List.sum_replicate_nat,
    List.length_take]
  omega

theorem mem_of_mem_schedule {n : Nat} (hi : i ∈ schedule claimants n) : i ∈ claimants := by
  rcases List.mem_append.mp hi with hi | hi
  · obtain ⟨round, hround, hi⟩ := List.mem_flatten.mp hi
    rw [List.eq_of_mem_replicate hround] at hi
    exact hi
  · exact List.mem_of_mem_take hi

theorem count_schedule (hnodup : claimants.Nodup) (hi : i ∈ claimants) (n : Nat) :
    n / claimants.length ≤ (schedule claimants n).count i ∧
      (schedule claimants n).count i ≤ n / claimants.length + 1 := by
  have hone : claimants.count i = 1 := List.count_eq_one_of_mem hnodup hi
  have hlast : (claimants.take (n % claimants.length)).count i ≤ claimants.count i :=
    (List.take_sublist _ _).count_le i
  rw [schedule, List.count_append, List.count_flatten, List.map_replicate, List.sum_replicate_nat,
    hone, Nat.mul_one]
  omega

theorem schedule_eq_append (hne : claimants ≠ []) {n : Nat} (hn : claimants.length ≤ n) :
    schedule claimants n = claimants ++ schedule claimants (n - claimants.length) := by
  have hpos := List.length_pos_of_ne_nil hne
  rw [schedule, Nat.div_eq_sub_div hpos hn, Nat.mod_eq_sub_mod hn, List.replicate_succ,
    List.flatten_cons, List.append_assoc]
  rfl

theorem map_schedule (f : Nat → Nat) (claimants : List Nat) (n : Nat) :
    (schedule claimants n).map f = schedule (claimants.map f) n := by
  simp [schedule, List.map_flatten]

theorem exists_flatten_replicate_eq (hne : claimants ≠ []) (n : Nat) :
    ∃ rest, (List.replicate n claimants).flatten = schedule claimants n ++ rest := by
  have hpos := List.length_pos_of_ne_nil hne
  have hdiv := Nat.div_add_mod' n claimants.length
  have hmul := Nat.le_mul_of_pos_right (n / claimants.length) hpos
  obtain ⟨left, hleft⟩ := Nat.exists_eq_add_of_le (Nat.div_le_self n claimants.length)
  have hrounds : (List.replicate n claimants).flatten =
      (List.replicate (n / claimants.length) claimants).flatten ++
        (List.replicate left claimants).flatten := by
    rw [← List.flatten_append, List.replicate_append_replicate, ← hleft]
  rw [hrounds, schedule]
  cases left with
  | zero =>
    have hmod : n % claimants.length = 0 := by omega
    exact ⟨[], by simp [hmod]⟩
  | succ left =>
    refine ⟨claimants.drop (n % claimants.length) ++ (List.replicate left claimants).flatten, ?_⟩
    rw [List.replicate_succ, List.flatten_cons, List.append_assoc, List.append_cancel_left_eq,
      ← List.append_assoc, List.take_append_drop]

theorem fill_eq_round_flatten (hne : claimants ≠ []) {rounds : Nat} (hle : s.filled ≤ size)
    (hrounds : size ≤ s.filled + rounds) :
    fill size prefer claimants rounds s =
      round size prefer (List.replicate rounds claimants).flatten s := by
  induction rounds generalizing s with
  | zero =>
    have hfilled : size ≤ s.filled := hrounds
    rw [fill, if_pos hfilled, round_of_filled _ hfilled]
  | succ rounds ih =>
    rw [fill]
    split
    · next hfilled => rw [round_of_filled _ hfilled]
    · next hfilled =>
      rw [List.replicate_succ, List.flatten_cons, round_append]
      cases hround : round size prefer claimants s with
      | none => rfl
      | some u =>
        have hpos := List.length_pos_of_ne_nil hne
        have hclaims := filled_of_round hround hle
        exact ih (by omega) (by omega)

theorem fill_eq_round_schedule (hne : claimants ≠ []) :
    fill size prefer claimants size .init = round size prefer (schedule claimants size) .init := by
  have hinit : State.init.filled = 0 := rfl
  obtain ⟨rest, hrest⟩ := exists_flatten_replicate_eq hne size
  have hlength := length_schedule hne size
  rw [fill_eq_round_flatten hne (by omega) (by omega), hrest,
    round_append_of_filled rest (by omega) (by omega)]

end Claiming
