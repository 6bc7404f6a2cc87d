import Mathlib.Data.List.Basic

/-!
# Replacing words

The occurrences of a word in a text are replaced by another word from left to right, without
overlaps. Letters that neither word contains keep their order, and a letter is gone when it was
replaced by a word without it.
-/

namespace Substitution

variable {α : Type*} [DecidableEq α]

/-- Replace the occurrences of a non-empty word; so many letters at the beginning belong to the
occurrence before. -/
def replaceFrom (old new : List α) : Nat → List α → List α
  | _, [] => []
  | skip + 1, _ :: t => replaceFrom old new skip t
  | 0, a :: t =>
      if old.isPrefixOf (a :: t) then new ++ replaceFrom old new (old.length - 1) t
      else a :: replaceFrom old new 0 t

variable {old new s : List α}

/-- Letters that neither word contains keep their order. -/
theorem filter_replaceFrom (hold : old ≠ []) {p : α → Bool} (hpold : old.filter p = [])
    (hpnew : new.filter p = []) (skip : Nat) (s : List α) :
    (replaceFrom old new skip s).filter p = (s.drop skip).filter p := by
  induction s generalizing skip with
  | nil => cases skip <;> rfl
  | cons a t ih =>
    cases skip with
    | succ skip => exact ih skip
    | zero =>
      rw [replaceFrom, List.drop_zero]
      split
      · next hprefix =>
        obtain ⟨rest, hrest⟩ := List.isPrefixOf_iff_prefix.mp hprefix
        obtain ⟨b, word, rfl⟩ := List.exists_cons_of_ne_nil hold
        rw [List.cons_append] at hrest
        obtain ⟨rfl, rfl⟩ := List.cons.inj hrest
        have hdrop : (word ++ rest).drop ((b :: word).length - 1) = rest := by simp
        rw [List.filter_append, hpnew, List.nil_append, ih, hdrop, ← List.cons_append,
          List.filter_append, hpold, List.nil_append]
      · rw [List.filter_cons, List.filter_cons, ih, List.drop_zero]

/-- A letter is not in the result if it is neither in the text nor in the new word. -/
theorem notMem_replaceFrom {a : α} (hnew : a ∉ new) {skip : Nat} (hs : a ∉ s) :
    a ∉ replaceFrom old new skip s := by
  induction s generalizing skip with
  | nil => cases skip <;> exact hs
  | cons b t ih =>
    obtain ⟨hb, ht⟩ : a ≠ b ∧ a ∉ t := by simpa using hs
    cases skip with
    | succ skip => exact ih ht
    | zero =>
      rw [replaceFrom]
      split
      · simp [hnew, ih ht]
      · simp [hb, ih ht]

/-- A letter is gone when it is replaced by a word without it. -/
theorem notMem_replaceFrom_singleton {a : α} (hnew : a ∉ new) (s : List α) :
    a ∉ replaceFrom [a] new 0 s := by
  induction s with
  | nil => exact List.not_mem_nil
  | cons b t ih =>
    rw [replaceFrom]
    split
    · exact fun hmem => (List.mem_append.mp hmem).elim hnew ih
    · next hprefix =>
      have hb : a ≠ b := by
        rintro rfl
        simp at hprefix
      simp [hb, ih]

end Substitution
