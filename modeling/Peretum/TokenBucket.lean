import Mathlib.Algebra.Order.Field.Basic
import Mathlib.Tactic.Linarith

/-!
# Token buckets

A token bucket fills at a constant rate up to its size, and every event that is let through
takes one token out. The events that it lets through in a window of time are then bounded by the
size and by what flows in. This file proves the bound for any system in which the tokens can be
told from the state and the time: it is enough that no step makes tokens up.
-/

namespace TokenBucket

section Level

variable {K : Type*} [Field K] [LinearOrder K] {rate size tokens last now later : K}

/-- The tokens at a time, when there were so many at an earlier one. -/
def level (rate size tokens last now : K) : K := min size (tokens + rate * (now - last))

theorem level_le : level rate size tokens last now ≤ size := min_le_left ..

/-- At the time of the last event the bucket holds what was left. -/
theorem level_self (htokens : tokens ≤ size) : level rate size tokens last last = tokens := by
  rw [level, sub_self, mul_zero, add_zero, min_eq_right htokens]

variable [IsStrictOrderedRing K]

theorem level_nonneg (hrate : 0 ≤ rate) (hsize : 0 ≤ size) (htokens : 0 ≤ tokens)
    (hnow : last ≤ now) : 0 ≤ level rate size tokens last now := by
  have hflow : 0 ≤ rate * (now - last) := mul_nonneg hrate (sub_nonneg.mpr hnow)
  exact le_min hsize (by linarith)

theorem level_le_add (hrate : 0 ≤ rate) (hlater : now ≤ later) :
    level rate size tokens last later ≤
      level rate size tokens last now + rate * (later - now) := by
  have hflow : 0 ≤ rate * (later - now) := mul_nonneg hrate (sub_nonneg.mpr hlater)
  unfold level
  rcases min_cases size (tokens + rate * (now - last)) with ⟨heq, -⟩ | ⟨heq, -⟩
  · rw [heq]
    exact (min_le_left ..).trans (by linarith)
  · rw [heq]
    exact (min_le_right ..).trans (by linarith)

/-- A bucket is full when the time without events has sufficed to fill it. -/
theorem level_eq_size (htokens : 0 ≤ tokens) (hfill : size ≤ rate * (now - last)) :
    level rate size tokens last now = size := min_eq_left (by linarith)

end Level

section Runs

variable {State Event : Type*} {step : State → Event → State}

/-- A property of every state and event of a run. -/
def Throughout (step : State → Event → State) (P : State → Event → Prop) :
    State → List Event → Prop
  | _, [] => True
  | s, e :: es => P s e ∧ Throughout step P (step s e) es

variable {K : Type*} [LinearOrder K] {spends : State → Event → Bool} {time : Event → K}
  {start stop : K}

/-- The number of events in a window of time that are let through. -/
def spent (step : State → Event → State) (spends : State → Event → Bool) (time : Event → K)
    (start stop : K) : State → List Event → Nat
  | _, [] => 0
  | s, e :: es =>
      (if spends s e ∧ start ≤ time e ∧ time e ≤ stop then 1 else 0) +
        spent step spends time start stop (step s e) es

theorem spent_append (s : State) (es fs : List Event) :
    spent step spends time start stop s (es ++ fs) =
      spent step spends time start stop s es +
        spent step spends time start stop (es.foldl step s) fs := by
  induction es generalizing s with
  | nil => rw [List.nil_append, List.foldl_nil, spent, Nat.zero_add]
  | cons e es ih => rw [List.cons_append, spent, ih, spent, List.foldl_cons, Nat.add_assoc]

theorem spent_eq_zero {s : State} {es : List Event} (hafter : ∀ e ∈ es, stop < time e) :
    spent step spends time start stop s es = 0 := by
  induction es generalizing s with
  | nil => rfl
  | cons e es ih =>
    have hlate : ¬ time e ≤ stop := not_le.mpr (hafter e List.mem_cons_self)
    rw [spent, if_neg fun h => hlate h.2.2, ih fun f hf => hafter f (List.mem_cons_of_mem e hf)]

/-- Nothing is spent in a run whose events are never let through. -/
theorem spent_eq_zero_of_never {s : State} {es : List Event}
    (hnever : ∀ s, ∀ e ∈ es, spends s e = false) :
    spent step spends time start stop s es = 0 := by
  induction es generalizing s with
  | nil => rfl
  | cons e es ih =>
    have hfirst := hnever s e List.mem_cons_self
    rw [spent, if_neg (by simp [hfirst]), ih fun s f hf => hnever s f (List.mem_cons_of_mem e hf)]

variable [Field K] {avail : State → K → K} {rate size : K}

variable (step spends time avail rate size) in
/-- An event leaves the tokens it has not taken, and makes none up. -/
structure Pays (s : State) (e : Event) : Prop where
  bound : avail s (time e) ≤ size
  nonneg : 0 ≤ avail (step s e) (time e)
  /-- The tokens afterwards are those before, without the one taken, and what flows in. -/
  pays : ∀ now, time e ≤ now →
    avail (step s e) now + (if spends s e then 1 else 0) ≤
      avail s (time e) + rate * (now - time e)

variable [IsStrictOrderedRing K]

theorem Pays.spent_cons {s : State} {e : Event} {es : List Event}
    (hpay : Pays step spends time avail rate size s e) {now : K} (hnow : time e ≤ now)
    (hrest : (spent step spends time start stop (step s e) es : K) ≤
      avail (step s e) now + rate * (stop - now)) :
    (spent step spends time start stop s (e :: es) : K) ≤
      avail s (time e) + rate * (stop - time e) := by
  have hpaid := hpay.pays now hnow
  have hcounted : ((if spends s e ∧ start ≤ time e ∧ time e ≤ stop then 1 else 0 : Nat) : K) ≤
      if spends s e then 1 else 0 := by
    by_cases hspends : spends s e = true
    · rw [if_pos hspends]
      split <;> simp
    · rw [if_neg fun h => hspends h.1, if_neg hspends, Nat.cast_zero]
  rw [spent, Nat.cast_add]
  linarith

theorem spent_le_avail (hrate : 0 ≤ rate) {s : State} {e : Event} {es : List Event}
    (hsorted : (e :: es).Pairwise fun e f => time e ≤ time f)
    (hpays : Throughout step (Pays step spends time avail rate size) s (e :: es))
    (hstop : time e ≤ stop) :
    (spent step spends time start stop s (e :: es) : K) ≤
      avail s (time e) + rate * (stop - time e) := by
  induction es generalizing s e with
  | nil =>
    refine hpays.1.spent_cons le_rfl ?_
    rw [spent, Nat.cast_zero]
    exact add_nonneg hpays.1.nonneg (mul_nonneg hrate (sub_nonneg.mpr hstop))
  | cons f es ih =>
    obtain ⟨hpay, hrest⟩ := hpays
    obtain ⟨hfirst, hsorted⟩ := List.pairwise_cons.mp hsorted
    by_cases hwithin : time f ≤ stop
    · exact hpay.spent_cons (hfirst f List.mem_cons_self) (ih hsorted hrest hwithin)
    · -- The window is over, and nothing more is counted.
      have hlate : stop < time f := not_le.mp hwithin
      refine hpay.spent_cons le_rfl ?_
      rw [spent_eq_zero fun g hg => ?_, Nat.cast_zero]
      · exact add_nonneg hpay.nonneg (mul_nonneg hrate (sub_nonneg.mpr hstop))
      · rcases List.mem_cons.mp hg with rfl | hg
        · exact hlate
        · exact hlate.trans_le ((List.pairwise_cons.mp hsorted).1 g hg)

/-- In any window of a run in which every event pays, no more is spent than the bucket holds and
flows in. -/
theorem spent_le (hrate : 0 ≤ rate) (hsize : 0 ≤ size) (hwindow : start ≤ stop) {s : State}
    {es : List Event} (hsorted : es.Pairwise fun e f => time e ≤ time f)
    (hpays : Throughout step (Pays step spends time avail rate size) s es) :
    (spent step spends time start stop s es : K) ≤ size + rate * (stop - start) := by
  have hflow : 0 ≤ rate * (stop - start) := mul_nonneg hrate (sub_nonneg.mpr hwindow)
  induction es generalizing s with
  | nil =>
    rw [spent, Nat.cast_zero]
    exact add_nonneg hsize hflow
  | cons e es ih =>
    by_cases hbegun : start ≤ time e
    · by_cases hstop : time e ≤ stop
      · have hspent : (spent step spends time start stop s (e :: es) : K) ≤
            avail s (time e) + rate * (stop - time e) := spent_le_avail hrate hsorted hpays hstop
        have hbound := hpays.1.bound
        have hless : rate * (stop - time e) ≤ rate * (stop - start) :=
          mul_le_mul_of_nonneg_left (by linarith) hrate
        linarith
      · have hlate : stop < time e := not_le.mp hstop
        rw [spent_eq_zero fun f hf => ?_, Nat.cast_zero]
        · exact add_nonneg hsize hflow
        · rcases List.mem_cons.mp hf with rfl | hf
          · exact hlate
          · exact hlate.trans_le ((List.pairwise_cons.mp hsorted).1 f hf)
    · rw [spent, if_neg fun h => hbegun h.2.1, Nat.zero_add]
      exact ih (List.pairwise_cons.mp hsorted).2 hpays.2

end Runs

end TokenBucket
