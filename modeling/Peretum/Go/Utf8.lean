import Peretum.Go.Strings

/-!
# Runes

A `range` over a string decodes its bytes as UTF-8, one rune after the other. A byte that begins
no well-formed rune is passed alone and stands for the replacement character. Converting runes
to a string encodes each of them.
-/

namespace Go

/-- `utf8.RuneError`; a `rune` is its number. -/
def runeError : Nat := 0xFFFD

/-- The number of bytes of a rune with this first byte, when there are several, and the bounds of
the second one. -/
def runeStart (b : UInt8) : Option (Nat × UInt8 × UInt8) :=
  if b < 0xC2 then none
  else if b ≤ 0xDF then some (2, 0x80, 0xBF)
  else if b = 0xE0 then some (3, 0xA0, 0xBF)
  else if b = 0xED then some (3, 0x80, 0x9F)
  else if b ≤ 0xEF then some (3, 0x80, 0xBF)
  else if b = 0xF0 then some (4, 0x90, 0xBF)
  else if b ≤ 0xF3 then some (4, 0x80, 0xBF)
  else if b = 0xF4 then some (4, 0x80, 0x8F)
  else none

/-- The six bits of a byte that continues a rune. -/
def continuation (b : UInt8) : Nat := b.toNat % 0x40

/-- `utf8.DecodeRuneInString` on a byte and what follows it: the rune and its width. -/
def decodeRune (b : UInt8) (rest : Str) : Nat × Nat :=
  if b < 0x80 then (b.toNat, 1)
  else
    match runeStart b, rest with
    | some (2, low, high), b1 :: _ =>
        if low ≤ b1 ∧ b1 ≤ high then (b.toNat % 0x20 * 0x40 + continuation b1, 2)
        else (runeError, 1)
    | some (3, low, high), b1 :: b2 :: _ =>
        if low ≤ b1 ∧ b1 ≤ high ∧ 0x80 ≤ b2 ∧ b2 ≤ 0xBF then
          (b.toNat % 0x10 * 0x1000 + continuation b1 * 0x40 + continuation b2, 3)
        else (runeError, 1)
    | some (4, low, high), b1 :: b2 :: b3 :: _ =>
        if low ≤ b1 ∧ b1 ≤ high ∧ 0x80 ≤ b2 ∧ b2 ≤ 0xBF ∧ 0x80 ≤ b3 ∧ b3 ≤ 0xBF then
          (b.toNat % 0x08 * 0x40000 + continuation b1 * 0x1000 + continuation b2 * 0x40 +
            continuation b3, 4)
        else (runeError, 1)
    | _, _ => (runeError, 1)

/-- The runes of a string after the bytes that belong to the last rune. -/
def runesFrom : Nat → Str → List Nat
  | _, [] => []
  | 0, b :: rest => (decodeRune b rest).1 :: runesFrom ((decodeRune b rest).2 - 1) rest
  | skip + 1, _ :: rest => runesFrom skip rest

/-- The runes that a `range` over a string visits. -/
def runes (s : Str) : List Nat := runesFrom 0 s

example : runes (str "aµ€") = [0x61, 0xB5, 0x20AC] := by decide

example : runes [0xE2, 0x82, 0x61, 0xED] = [runeError, runeError, 0x61, runeError] := by decide

/-- `utf8.AppendRune`: the bytes of a rune, those of the replacement character for a surrogate or
a number that is no code point. -/
def encodeRune (r : Nat) : Str :=
  if r ≤ 0x7F then [.ofNat r]
  else if r ≤ 0x7FF then [.ofNat (0xC0 + r / 0x40), .ofNat (0x80 + r % 0x40)]
  else if (0xD800 ≤ r ∧ r ≤ 0xDFFF) ∨ 0x10FFFF < r then [0xEF, 0xBF, 0xBD]
  else if r ≤ 0xFFFF then
    [.ofNat (0xE0 + r / 0x1000), .ofNat (0x80 + r / 0x40 % 0x40), .ofNat (0x80 + r % 0x40)]
  else
    [.ofNat (0xF0 + r / 0x40000), .ofNat (0x80 + r / 0x1000 % 0x40),
      .ofNat (0x80 + r / 0x40 % 0x40), .ofNat (0x80 + r % 0x40)]

/-- The conversion of runes to a string. -/
def ofRunes (rs : List Nat) : Str := rs.flatMap encodeRune

theorem ofRunes_ascii {rs : List Nat} (hrs : ∀ r ∈ rs, r ≤ 0x7F) :
    ofRunes rs = rs.map UInt8.ofNat := by
  induction rs with
  | nil => rfl
  | cons r rs ih =>
    obtain ⟨hr, hrest⟩ := List.forall_mem_cons.mp hrs
    have hstep : ofRunes (r :: rs) = encodeRune r ++ ofRunes rs := List.flatMap_cons ..
    rw [hstep, encodeRune, if_pos hr, ih hrest, List.singleton_append, List.map_cons]

end Go
