import Peretum.Go.Strings

/-!
# Little-endian integers on byte streams

The fixed-width part of `encoding/binary` over an in-memory stream: writing
truncates to the width of the integer type, and reading consumes exactly that
many bytes or reports where the stream ended. A reader is a state transformer on
the bytes not yet consumed.
-/

namespace Go

/-- `binary.Write` with `LittleEndian` for an unsigned integer of `width` bytes. -/
def encodeLE : Nat → Nat → Str
  | 0, _ => []
  | width + 1, n => UInt8.ofNat (n % 256) :: encodeLE width (n / 256)

/-- The unsigned integer whose little-endian bytes are given. -/
def decodeLE : Str → Nat
  | [] => 0
  | b :: t => b.toNat + 256 * decodeLE t

@[simp] theorem encodeLE_length (width n : Nat) : (encodeLE width n).length = width := by
  induction width generalizing n with
  | zero => rfl
  | succ width ih => simp [encodeLE, ih]

/-- Decoding inverts encoding up to truncation at the width. -/
theorem decodeLE_encodeLE (width n : Nat) : decodeLE (encodeLE width n) = n % 256 ^ width := by
  induction width generalizing n with
  | zero => simp [encodeLE, decodeLE, Nat.mod_one]
  | succ width ih =>
    have hbyte : (UInt8.ofNat (n % 256)).toNat = n % 256 := by simp
    rw [encodeLE, decodeLE, ih, hbyte, Nat.pow_succ, Nat.mul_comm (256 ^ width) 256, Nat.mod_mul]

theorem encodeLE_decodeLE (bytes : Str) : encodeLE bytes.length (decodeLE bytes) = bytes := by
  induction bytes with
  | nil => rfl
  | cons b t ih =>
    have hb := b.toNat_lt
    have hmod : (b.toNat + 256 * decodeLE t) % 256 = b.toNat := by omega
    have hdiv : (b.toNat + 256 * decodeLE t) / 256 = decodeLE t := by omega
    rw [List.length_cons, decodeLE, encodeLE, hmod, hdiv, ih, UInt8.ofNat_toNat]

theorem decodeLE_lt (bytes : Str) : decodeLE bytes < 256 ^ bytes.length := by
  induction bytes with
  | nil => simp [decodeLE]
  | cons b t ih =>
    have hb := b.toNat_lt
    rw [decodeLE, List.length_cons, Nat.pow_succ]
    omega

/-- How a read of a fixed number of bytes can fail: `io.EOF` when nothing was
left, `io.ErrUnexpectedEOF` when the stream ended part-way. -/
inductive EndOfStream where
  | eof
  | unexpectedEOF
  deriving DecidableEq, Repr

/-- `io.ReadFull` for `n` bytes. -/
def readFull (n : Nat) (input : Str) : Except EndOfStream (Str × Str) :=
  if n ≤ input.length then .ok (input.take n, input.drop n)
  else if input = [] then .error .eof
  else .error .unexpectedEOF

@[simp] theorem readFull_append (block rest : Str) :
    readFull block.length (block ++ rest) = .ok (block, rest) := by
  simp [readFull]

/-- A read of a fixed number of bytes returns the front of the stream. -/
theorem readFull_eq_ok {n : Nat} {input block rest : Str} :
    readFull n input = .ok (block, rest) ↔ block.length = n ∧ input = block ++ rest := by
  constructor
  · intro hread
    unfold readFull at hread
    split at hread
    · next hle =>
      obtain ⟨rfl, rfl⟩ := Prod.mk.inj (Except.ok.inj hread)
      exact ⟨List.length_take_of_le hle, (List.take_append_drop n input).symm⟩
    · split at hread <;> cases hread
  · rintro ⟨rfl, rfl⟩
    exact readFull_append block rest

end Go
