import Mathlib.Tactic.IntervalCases
import Peretum.Go.Duration

/-!
# Decimal numbers

What `strconv.Atoi` reads and `strconv.Itoa` writes: an optional sign and digits.
-/

namespace Go

/-- A text of decimal digits. -/
def Digits (s : Str) : Prop := s ≠ [] ∧ ∀ b ∈ s, 0x30 ≤ b ∧ b ≤ 0x39

instance (s : Str) : Decidable (Digits s) :=
  decidable_of_iff ((!s.isEmpty && s.all fun b => 0x30 ≤ b && b ≤ 0x39) = true)
    (by simp [Digits])

/-- The number of a text of digits. -/
def decimal (s : Str) : Nat := s.foldl (fun n b => 10 * n + (b.toNat - 0x30)) 0

/-- A number without its sign. -/
def unsigned (s : Str) : Str :=
  if hasPrefix s (str "-") || hasPrefix s (str "+") then s.drop 1 else s

theorem Digits.notMem {s : Str} (hs : Digits s) {b : UInt8} (hb : ¬ (0x30 ≤ b ∧ b ≤ 0x39)) :
    b ∉ s := fun hmem => hb (hs.2 b hmem)

theorem signed_iff {s : Str} : (hasPrefix s (str "-") || hasPrefix s (str "+")) = true ↔
    ∃ c t, s = c :: t ∧ (c = 0x2D ∨ c = 0x2B) := by
  rw [Bool.or_eq_true]
  change hasPrefix s [0x2D] = true ∨ hasPrefix s [0x2B] = true ↔ _
  rw [hasPrefix_singleton, hasPrefix_singleton]
  constructor
  · rintro (⟨t, rfl⟩ | ⟨t, rfl⟩)
    · exact ⟨_, t, rfl, .inl rfl⟩
    · exact ⟨_, t, rfl, .inr rfl⟩
  · rintro ⟨c, t, rfl, rfl | rfl⟩
    · exact .inl ⟨t, rfl⟩
    · exact .inr ⟨t, rfl⟩

theorem mem_unsigned {s : Str} {b : UInt8} (hb : b ≠ 0x2D ∧ b ≠ 0x2B) (hmem : b ∈ s) :
    b ∈ unsigned s := by
  rw [unsigned]
  split
  · next hsign =>
    obtain ⟨c, t, rfl, hc⟩ := signed_iff.mp hsign
    rcases List.mem_cons.mp hmem with rfl | hmem
    · exact absurd hc (not_or.mpr hb)
    · exact hmem
  · exact hmem

theorem Digits.not_signed {s : Str} (hs : Digits s) :
    ¬ (hasPrefix s (str "-") || hasPrefix s (str "+")) = true := by
  intro hsign
  obtain ⟨c, t, rfl, rfl | rfl⟩ := signed_iff.mp hsign
  · exact hs.notMem (by decide) List.mem_cons_self
  · exact hs.notMem (by decide) List.mem_cons_self

theorem Digits.unsigned_eq {s : Str} (hs : Digits s) : unsigned s = s := if_neg hs.not_signed

/-- `strconv.Atoi` reads the digits after a sign, and rejects numbers that are too large. -/
theorem atoi_eq (s : Str) : atoi s =
    if Digits (unsigned s) then
      if hasPrefix s (str "-") then
        if decimal (unsigned s) ≤ 2 ^ 63 then some (-(decimal (unsigned s) : Int)) else none
      else if decimal (unsigned s) < 2 ^ 63 then some (decimal (unsigned s) : Int) else none
    else none := by
  have hdigits : ∀ t : Str, (t = [] || t.any fun b => b < 0x30 || 0x39 < b) = true ↔
      ¬ Digits t := fun t => by
    simp only [Digits, Bool.or_eq_true, decide_eq_true_eq, List.any_eq_true, not_and_or, not_not,
      not_forall, UInt8.not_le, exists_prop]
  change (if (unsigned s = [] || (unsigned s).any fun b => b < 0x30 || 0x39 < b) = true then _
    else _) = _
  by_cases hs : Digits (unsigned s)
  · rw [if_neg fun h => (hdigits _).mp h hs, if_pos hs]
    rfl
  · rw [if_pos ((hdigits _).mpr hs), if_neg hs]

/-- A number is read, or too large. -/
theorem atoi_cases {s : Str} (hs : Digits (unsigned s)) :
    atoi s = none ∧ 2 ^ 63 ≤ decimal (unsigned s) ∨
      ∃ n : Int, atoi s = some n ∧ n.natAbs = decimal (unsigned s) := by
  rw [atoi_eq, if_pos hs]
  split
  · split
    · exact .inr ⟨_, rfl, by rw [Int.natAbs_neg, Int.natAbs_natCast]⟩
    · exact .inl ⟨rfl, by omega⟩
  · split
    · exact .inr ⟨_, rfl, Int.natAbs_natCast _⟩
    · exact .inl ⟨rfl, by omega⟩

theorem Digits.atoi_eq {s : Str} (hs : Digits s) (hsmall : decimal s < 2 ^ 63) :
    atoi s = some (decimal s : Int) := by
  have hminus : ¬ hasPrefix s (str "-") = true := fun h => hs.not_signed (by rw [h, Bool.true_or])
  rw [Go.atoi_eq, hs.unsigned_eq, if_pos hs, if_neg hminus, if_pos hsmall]

theorem natString_digit {n : Nat} {c : Char} (hc : c ∈ Nat.toDigits 10 n) :
    48 ≤ c.toNat ∧ c.toNat ≤ 57 := by
  have hdigit := Nat.isDigit_of_mem_toDigits (by decide) (by decide) hc
  simpa [Char.isDigit, UInt32.le_iff_toNat_le] using hdigit

theorem digits_natString (n : Nat) : Digits (natString n) := by
  refine ⟨by simp [natString, Nat.toDigits_ne_nil], fun b hb => ?_⟩
  obtain ⟨c, hc, rfl⟩ := List.mem_map.mp hb
  obtain ⟨hlower, hupper⟩ := natString_digit hc
  generalize c.toNat = k at hlower hupper
  interval_cases k <;> decide

theorem decimal_natString (n : Nat) : decimal (natString n) = n := by
  have hfold : ∀ (l : List Char) (acc : Nat), (∀ c ∈ l, 48 ≤ c.toNat ∧ c.toNat ≤ 57) →
      (l.map fun c => UInt8.ofNat c.toNat).foldl (fun n b => 10 * n + (b.toNat - 0x30)) acc =
        Nat.ofDigitChars 10 l acc := by
    intro l acc hl
    rw [List.foldl_map, Nat.ofDigitChars_eq_foldl]
    refine List.foldl_ext _ _ _ fun m c hc => ?_
    have hc' : c.toNat % 256 = c.toNat := Nat.mod_eq_of_lt (by have := hl c hc; omega)
    rw [UInt8.toNat_ofNat', hc']
    rfl
  exact (hfold _ 0 fun c hc => natString_digit hc).trans
    (Nat.ofDigitChars_toDigits (by decide) (by decide))

end Go
