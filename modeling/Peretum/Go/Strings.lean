import Mathlib.Algebra.Group.Nat.Defs
import Mathlib.Data.List.Infix

/-!
# Byte strings

A Go string is an immutable sequence of bytes with no promise that it is valid
UTF-8. This file fixes that representation and gives the functions of package
`strings` the developments above use. Case mapping outside ASCII depends on the
Unicode tables, so it stays a parameter of `toLower`.
-/

namespace Go

/-- A Go string: any sequence of bytes. -/
abbrev Str := List UInt8

/-- The bytes of a string literal. -/
def str (s : String) : Str := s.toByteArray.data.toList

theorem str_inj {a b : String} : str a = str b ↔ a = b := by
  constructor
  · intro h
    have hbytes := congrArg List.toArray h
    exact String.toByteArray_inj.mp (ByteArray.ext hbytes)
  · rintro rfl
    rfl

/-- `strings.HasPrefix`. -/
def hasPrefix (s p : Str) : Bool := p.isPrefixOf s

/-- `strings.HasSuffix`. -/
def hasSuffix (s p : Str) : Bool := p.isSuffixOf s

/-- `strings.TrimPrefix`. -/
def trimPrefix (s p : Str) : Str := if hasPrefix s p then s.drop p.length else s

/-- `strings.TrimSuffix`. -/
def trimSuffix (s p : Str) : Str := if hasSuffix s p then s.take (s.length - p.length) else s

/-- `strings.Contains`. -/
def contains (s p : Str) : Bool := decide (p <:+: s)

variable {s p field : Str} {b : UInt8}

/-- `strings.HasPrefix` tests the prefix order on byte sequences. -/
@[simp] theorem hasPrefix_iff : hasPrefix s p = true ↔ p <+: s := by
  simp [hasPrefix]

theorem hasPrefix_singleton : hasPrefix s [b] = true ↔ ∃ t, s = b :: t := by
  rw [hasPrefix_iff]
  exact ⟨fun ⟨t, ht⟩ => ⟨t, ht.symm⟩, fun ⟨t, ht⟩ => ⟨t, ht.symm⟩⟩

/-- `strings.TrimPrefix` gives what follows the prefix. -/
@[simp] theorem trimPrefix_append : trimPrefix (p ++ s) p = s := by
  rw [trimPrefix, if_pos (hasPrefix_iff.mpr (List.prefix_append p s)), List.drop_left]

/-- `strings.Contains` tests for a consecutive block of bytes. -/
@[simp] theorem contains_iff : contains s p = true ↔ p <:+: s := by
  simp [contains]

/-- `strings.Split` on a one-byte separator; the empty string has one part. -/
def split (sep : UInt8) (s : Str) : List Str := s.splitOn sep

/-- `strings.Join`. -/
def join (sep : Str) (parts : List Str) : Str := sep.intercalate parts

@[simp] theorem join_singleton (sep part : Str) : join sep [part] = part := by
  simp [join]

/-- `strings.Cut`: the parts before and after the first occurrence of a separator. -/
def cut (sep : Str) : Str → Option (Str × Str)
  | [] => if hasPrefix [] sep then some ([], []) else none
  | b :: t =>
      if hasPrefix (b :: t) sep then some ([], (b :: t).drop sep.length)
      else (cut sep t).map fun r => (b :: r.1, r.2)

/-- A string is cut at a separator whose first byte does not occur before it. -/
theorem cut_append {c : UInt8} {k : Str} (hk : c ∉ k) (sep v : Str) :
    cut (c :: sep) (k ++ (c :: sep) ++ v) = some (k, v) := by
  induction k with
  | nil =>
    have hprefix : hasPrefix (c :: sep ++ v) (c :: sep) = true :=
      hasPrefix_iff.mpr (List.prefix_append _ _)
    rw [List.nil_append, List.cons_append, cut, ← List.cons_append, if_pos hprefix,
      List.drop_left]
  | cons b k ih =>
    rw [List.mem_cons, not_or] at hk
    obtain ⟨hb, hk⟩ := hk
    have hprefix : ¬ hasPrefix (b :: (k ++ (c :: sep) ++ v)) (c :: sep) = true := by
      rw [hasPrefix_iff, List.cons_prefix_cons]
      exact fun h => hb h.1
    rw [List.cons_append, List.cons_append, cut, if_neg hprefix, ih hk, Option.map_some]

/-- The UTF-8 encodings of the runes `unicode.IsSpace` accepts. -/
def spaceRunes : List Str :=
  [[0x09], [0x0A], [0x0B], [0x0C], [0x0D], [0x20], [0xC2, 0x85], [0xC2, 0xA0],
    [0xE1, 0x9A, 0x80], [0xE2, 0x80, 0x80], [0xE2, 0x80, 0x81], [0xE2, 0x80, 0x82],
    [0xE2, 0x80, 0x83], [0xE2, 0x80, 0x84], [0xE2, 0x80, 0x85], [0xE2, 0x80, 0x86],
    [0xE2, 0x80, 0x87], [0xE2, 0x80, 0x88], [0xE2, 0x80, 0x89], [0xE2, 0x80, 0x8A],
    [0xE2, 0x80, 0xA8], [0xE2, 0x80, 0xA9], [0xE2, 0x80, 0xAF], [0xE2, 0x81, 0x9F],
    [0xE3, 0x80, 0x80]]

/-- Drop the leading blocks that occur in a table of encodings. The counter holds
the bytes still to be skipped of the block found last. -/
def dropBlocks (table : List Str) : Nat → Str → Str
  | _, [] => []
  | skip + 1, _ :: t => dropBlocks table skip t
  | 0, b :: t =>
      match table.find? (fun block => block.isPrefixOf (b :: t)) with
      | some block => dropBlocks table (block.length - 1) t
      | none => b :: t

/-- `strings.TrimSpace`. The right end is trimmed by reading the string and the
encodings backwards, as `utf8.DecodeLastRune` does. -/
def trimSpace (s : Str) : Str :=
  (dropBlocks (spaceRunes.map List.reverse) 0 (dropBlocks spaceRunes 0 s).reverse).reverse

example : trimSpace (str " a b\t") = str "a b" := by decide

/-- The loop of `strings.Fields`, with the bytes of the current field in reverse. -/
def fieldsFrom : Nat → Str → Str → List Str
  | 0, field, _ => if field = [] then [] else [field.reverse]
  | _, field, [] => if field = [] then [] else [field.reverse]
  | n + 1, field, b :: t =>
      match spaceRunes.find? (·.isPrefixOf (b :: t)) with
      | some space =>
          (if field = [] then [] else [field.reverse]) ++
            fieldsFrom n [] ((b :: t).drop space.length)
      | none => fieldsFrom n (b :: field) t

/-- `strings.Fields`. -/
def fields (s : Str) : List Str := fieldsFrom s.length [] s

example : fields (str "  :443 ssl\th3 ") = [str ":443", str "ssl", str "h3"] := by decide

/-- An ASCII byte that is neither a space nor a control character below it. -/
def Graphic (b : UInt8) : Prop := 0x20 < b ∧ b < 0x80

theorem dropBlocks_of_not_prefix {table : List Str} (hs : ∀ block ∈ table, ¬ block <+: s) :
    dropBlocks table 0 s = s := by
  cases s with
  | nil => rfl
  | cons b t =>
    have hfind : table.find? (fun block => block.isPrefixOf (b :: t)) = none := by
      rw [List.find?_eq_none]
      exact fun block hblock hstart => hs block hblock (List.isPrefixOf_iff_prefix.mp hstart)
    rw [dropBlocks, hfind]

/-- Nothing is dropped if every block of the table has a byte that is not in the string. -/
theorem dropBlocks_eq_self {table : List Str}
    (htable : (table.all fun block => block.any fun c => !(0x20 < c && c < 0x80)) = true)
    (hs : ∀ b ∈ s, Graphic b) : dropBlocks table 0 s = s := by
  refine dropBlocks_of_not_prefix fun block hblock hpre => ?_
  obtain ⟨c, hc, hout⟩ := List.any_eq_true.mp (List.all_eq_true.mp htable block hblock)
  obtain ⟨hlow, hhigh⟩ := hs c (hpre.subset hc)
  rw [decide_eq_true hlow, decide_eq_true hhigh] at hout
  cases hout

theorem trimSpace_of_graphic (hs : ∀ b ∈ s, Graphic b) : trimSpace s = s := by
  rw [trimSpace, dropBlocks_eq_self (by decide) hs,
    dropBlocks_eq_self (by decide) fun b hb => hs b (List.mem_reverse.mp hb), List.reverse_reverse]

/-- Nothing is dropped before a graphic byte, if no block of the table starts with one. -/
theorem dropBlocks_of_head {table : List Str}
    (htable : table.all (fun block => block.head?.any fun c => !(0x20 < c && c < 0x80)) = true)
    (hb : Graphic b) (t : Str) : dropBlocks table 0 (b :: t) = b :: t := by
  refine dropBlocks_of_not_prefix fun block hblock hpre => ?_
  have hhead := List.all_eq_true.mp htable block hblock
  cases block with
  | nil => simp at hhead
  | cons c block =>
    obtain rfl := (List.cons_prefix_cons.mp hpre).1
    simp [hb.1, hb.2] at hhead

/-- A string that starts and ends with graphic bytes is not trimmed. -/
theorem trimSpace_of_ends {c : UInt8} {t u : Str} (hs : s = b :: t) (hs' : s = u ++ [c])
    (hb : Graphic b) (hc : Graphic c) : trimSpace s = s := by
  rw [trimSpace, hs, dropBlocks_of_head (by decide) hb, ← hs, hs', List.reverse_append,
    List.reverse_singleton, List.singleton_append, dropBlocks_of_head (by decide) hc]
  simp

/-- What is left of a string after dropping blocks is its end. -/
theorem dropBlocks_suffix (table : List Str) (skip : Nat) (s : Str) :
    dropBlocks table skip s <:+ s := by
  induction s generalizing skip with
  | nil => simp [dropBlocks]
  | cons b t ih =>
    cases skip with
    | succ skip => exact (ih skip).trans (List.suffix_cons b t)
    | zero =>
      rw [dropBlocks]
      split
      · exact (ih _).trans (List.suffix_cons b t)
      · exact List.suffix_rfl

/-- Trimming leaves a part of the string. -/
theorem trimSpace_within (s : Str) : trimSpace s <:+: s := by
  have hend := dropBlocks_suffix (spaceRunes.map List.reverse) 0 (dropBlocks spaceRunes 0 s).reverse
  have hstart : trimSpace s <+: dropBlocks spaceRunes 0 s := by
    rw [← List.reverse_suffix, trimSpace, List.reverse_reverse]
    exact hend
  exact hstart.isInfix.trans (dropBlocks_suffix spaceRunes 0 s).isInfix

/-- No space starts in the current field, which is in reverse, before what is left. -/
def Clean (field s : Str) : Prop :=
  ∀ space ∈ spaceRunes, ∀ u v, field.reverse = u ++ v → v ≠ [] → ¬ space <+: v ++ s

theorem clean_nil (s : Str) : Clean [] s :=
  fun _ _ _ _ huv hv => absurd (List.append_eq_nil_iff.mp huv.symm).2 hv

theorem Clean.cons {t : Str} (h : Clean field (b :: t))
    (hfind : spaceRunes.find? (·.isPrefixOf (b :: t)) = none) : Clean (b :: field) t := by
  intro space hspace u v huv hv hstart
  rw [List.reverse_cons] at huv
  obtain ⟨w, c, rfl⟩ := List.eq_nil_or_concat v |>.resolve_left hv
  rw [List.concat_eq_append, ← List.append_assoc] at huv
  obtain ⟨hu, hc⟩ := List.append_inj' huv rfl
  obtain rfl : b = c := List.singleton_inj.mp hc
  rw [List.concat_eq_append, List.append_assoc, List.singleton_append] at hstart
  by_cases hw : w = []
  · rw [hw, List.nil_append, ← List.isPrefixOf_iff_prefix] at hstart
    exact absurd hstart (List.find?_eq_none.mp hfind space hspace)
  · exact h space hspace u w hu hw hstart

theorem Clean.not_infix (h : Clean field s) {space : Str} (hspace : space ∈ spaceRunes) :
    ¬ space <:+: field.reverse := by
  rintro ⟨u, v, huv⟩
  have hne : space ≠ [] := fun h => absurd (h ▸ hspace) (by decide)
  refine h space hspace u (space ++ v) ?_ (by simp [hne]) ?_
  · rw [← huv, List.append_assoc]
  · rw [List.append_assoc]
    exact List.prefix_append _ _

theorem not_infix_of_mem_fieldsFrom {n : Nat} {x space : Str} (h : Clean field s)
    (hx : x ∈ fieldsFrom n field s) (hspace : space ∈ spaceRunes) : ¬ space <:+: x := by
  have hlast : ∀ {field s : Str}, Clean field s →
      x ∈ (if field = [] then [] else [field.reverse]) → ¬ space <:+: x := by
    intro field s h hx
    split at hx
    · cases hx
    · rw [List.mem_singleton.mp hx]
      exact h.not_infix hspace
  induction n generalizing field s with
  | zero => exact hlast h hx
  | succ n ih =>
    cases s with
    | nil => exact hlast h hx
    | cons b t =>
      rw [fieldsFrom] at hx
      split at hx
      · next found hfind =>
        rcases List.mem_append.mp hx with hx | hx
        · exact hlast h hx
        · exact ih (clean_nil _) hx
      · next hfind => exact ih (h.cons hfind) hx

theorem trimSpace_of_mem_fields {raw x : Str} (hx : x ∈ fields raw) : trimSpace x = x := by
  have hspace : ∀ space ∈ spaceRunes, ¬ space <:+: x :=
    fun _ => not_infix_of_mem_fieldsFrom (clean_nil raw) hx
  rw [trimSpace, dropBlocks_of_not_prefix fun space h hstart => hspace space h hstart.isInfix,
    dropBlocks_of_not_prefix, List.reverse_reverse]
  intro block hblock hstart
  obtain ⟨space, h, rfl⟩ := List.mem_map.mp hblock
  exact hspace space h (List.reverse_prefix.mp hstart).isInfix

/-- `filepath.Ext` of a file name: the part from the last dot on. -/
def fileExt (name : Str) : Str :=
  if 0x2E ∈ name then 0x2E :: (name.reverse.takeWhile (· ≠ 0x2E)).reverse else []

/-- The lower-case form of an ASCII byte. -/
def lowerByte (b : UInt8) : UInt8 := if 0x41 ≤ b ∧ b ≤ 0x5A then b + 0x20 else b

/-- The upper-case form of an ASCII byte. -/
def upperByte (b : UInt8) : UInt8 := if 0x61 ≤ b ∧ b ≤ 0x7A then b - 0x20 else b

/-- Lower-casing a byte twice changes nothing more. -/
theorem lowerByte_lowerByte (b : UInt8) : lowerByte (lowerByte b) = lowerByte b := by
  unfold lowerByte
  simp only [UInt8.le_iff_toNat_le]
  split
  · next h =>
    rw [if_neg]
    simp only [UInt8.toNat_add, UInt8.reduceToNat] at *
    omega
  · rfl

/-- Upper-casing a byte twice changes nothing more. -/
theorem upperByte_upperByte (b : UInt8) : upperByte (upperByte b) = upperByte b := by
  unfold upperByte
  simp only [UInt8.le_iff_toNat_le]
  split
  · next h =>
    rw [if_neg]
    simp only [UInt8.toNat_sub, UInt8.reduceToNat] at *
    omega
  · rfl

/-- `strconv.Atoi`. -/
def atoi (s : Str) : Option Int :=
  let negative := hasPrefix s (str "-")
  let digits := if negative || hasPrefix s (str "+") then s.drop 1 else s
  let n : Nat := digits.foldl (fun n b => 10 * n + (b.toNat - 0x30)) 0
  if digits = [] || digits.any (fun b => b < 0x30 || 0x39 < b) then none
  else if negative then if n ≤ 2 ^ 63 then some (-(n : Int)) else none
  else if n < 2 ^ 63 then some n else none

example : atoi (str "-8080") = some (-8080) := by decide

/-- `strings.ToLower`: bytewise on ASCII strings; any other string goes through
`unicode.ToLower`, which is the parameter. -/
def toLower (unicode : Str → Str) (s : Str) : Str :=
  if s.all (· < 0x80) then s.map lowerByte else unicode s

theorem graphic_lowerByte : Graphic (lowerByte b) ↔ Graphic b := by
  unfold lowerByte Graphic
  simp only [UInt8.le_iff_toNat_le, UInt8.lt_iff_toNat_lt]
  split
  · next h =>
    simp only [UInt8.toNat_add, UInt8.reduceToNat] at *
    omega
  · rfl

theorem toLower_of_graphic (unicode : Str → Str) (hs : ∀ b ∈ s, Graphic b) :
    toLower unicode s = s.map lowerByte := by
  have hascii : s.all (· < 0x80) = true := by
    simpa using fun b hb => (hs b hb).2
  rw [toLower, if_pos hascii]

end Go
