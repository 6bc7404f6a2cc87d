import Peretum.Api.Schema

/-!
# Flat documents

The YAML library is a parameter of the model. This file gives it for a fragment of YAML:
documents of lines `key: value`, where keys and values are plain words and no key is given
twice. What is written is read again, and a merge of such documents is one.
-/

namespace Peretum.Api

open Go Config

/-- A word of letters, digits, dots, slashes and underscores. -/
def isPlain (s : Str) : Bool :=
  !s.isEmpty && s.all fun b =>
    (0x30 ≤ b && b ≤ 0x39) || (0x41 ≤ b && b ≤ 0x5A) || (0x61 ≤ b && b ≤ 0x7A) ||
      b == 0x2E || b == 0x2F || b == 0x5F

/-- The text of one entry. -/
def flatLine (k v : Str) : Str := k ++ str ": " ++ v

/-- An entry may stand before others: its key and value are plain, and the key is new. -/
def isEntry (k v : Str) (m : Object) : Bool :=
  isPlain k && isPlain v && !(m.map Prod.fst).contains k

variable {k v data : Str} {m : Object}

theorem isEntry_iff :
    isEntry k v m = true ↔ (isPlain k = true ∧ isPlain v = true) ∧ k ∉ m.map Prod.fst := by
  simp [isEntry]

/-- Read the lines of a document; the last one ends with a newline. -/
def readLines : List Str → Option Object
  | [] => none
  | line :: lines =>
      if lines = [] then if line = [] then some [] else none
      else
        match cut (str ": ") line, readLines lines with
        | some (k, v), some m => if isEntry k v m then some ((k, .scalar v) :: m) else none
        | _, _ => none

/-- Read a document. -/
def readFlat (data : Str) : Option Object := readLines (split 0x0A data)

/-- Write a document. -/
def writeFlat : Object → Option Str
  | [] => some []
  | (k, .scalar v) :: m =>
      if isEntry k v m then (writeFlat m).map (flatLine k v ++ [0x0A] ++ ·) else none
  | _ => none

example : readFlat (str "server_name: a.com\nlb_algorithm: random\n") =
    some [(str "server_name", .scalar (str "a.com")),
      (str "lb_algorithm", .scalar (str "random"))] :=
  rfl

/-- The coding of flat documents; an empty one is a nil map. -/
def flatDocs : DocumentCodec where
  unmarshal data := if data = [] then some none else (readFlat data).map some
  marshal := writeFlat

/-- How the decoder reads plain words. -/
def plainReader : ScalarReader where
  isNull text := text == str "null"
  accepts
    | .string, _ => true
    | .int, text => text.all fun b => 0x30 ≤ b && b ≤ 0x39
    | .bool, text => text == str "true" || text == str "false"
    | .float, text => text.all fun b => (0x30 ≤ b && b ≤ 0x39) || b == 0x2E
  text := id

/-- The coding of targets that have nothing but a server name. -/
def flatCodec : Codec Unit where
  marshalJSON _ := none
  unmarshalJSON _ := none
  marshalYAML t :=
    if plainReader.isNull t.serverName then none
    else writeFlat [(str "server_name", .scalar t.serverName)]
  unmarshalYAML data := (readFlat data).bind fun m => (decodedName plainReader m).map (⟨·, ()⟩)

theorem not_mem_of_isPlain {s : Str} (hs : isPlain s = true) : 0x3A ∉ s ∧ 0x0A ∉ s := by
  simp only [isPlain, Bool.and_eq_true, List.all_eq_true] at hs
  constructor
  · intro hmem
    exact absurd (hs.2 _ hmem) (by decide)
  · intro hmem
    exact absurd (hs.2 _ hmem) (by decide)

theorem split_flatLine (hk : isPlain k = true) (hv : isPlain v = true) (data : Str) :
    split 0x0A (flatLine k v ++ [0x0A] ++ data) = flatLine k v :: split 0x0A data := by
  have hline : (0x0A : UInt8) ∉ flatLine k v := by
    have hcolon : (0x0A : UInt8) ∉ str ": " := by decide
    simp only [flatLine, List.mem_append, not_or]
    exact ⟨⟨(not_mem_of_isPlain hk).2, hcolon⟩, (not_mem_of_isPlain hv).2⟩
  have hone : split 0x0A (flatLine k v) = [flatLine k v] := List.splitOn_eq_singleton hline
  have happend : split 0x0A (flatLine k v ++ 0x0A :: data) =
      split 0x0A (flatLine k v) ++ split 0x0A data :=
    List.splitOnP_append_cons _ _ (by simp)
  rw [List.append_assoc, List.singleton_append, happend, hone]
  rfl

theorem readFlat_flatLine (hentry : isEntry k v m = true) (hdata : readFlat data = some m) :
    readFlat (flatLine k v ++ [0x0A] ++ data) = some ((k, .scalar v) :: m) := by
  have hplain := isEntry_iff.mp hentry
  have hcut : cut (str ": ") (flatLine k v) = some (k, v) := by
    exact cut_append (not_mem_of_isPlain hplain.1.1).1 _ _
  have hlines : split 0x0A data ≠ [] := List.splitOn_ne_nil _ _
  rw [readFlat, split_flatLine hplain.1.1 hplain.1.2, readLines, if_neg hlines, hcut, ← readFlat,
    hdata]
  simp only [hentry, if_true]

theorem readFlat_writeFlat (hdata : writeFlat m = some data) : readFlat data = some m := by
  induction m generalizing data with
  | nil =>
    cases hdata
    rfl
  | cons e m ih =>
    obtain ⟨k, v⟩ := e
    cases v with
    | scalar v =>
      rw [writeFlat] at hdata
      split_ifs at hdata with hentry
      obtain ⟨rest, hrest, rfl⟩ := Option.map_eq_some_iff.mp hdata
      exact readFlat_flatLine hentry (ih hrest)
    | list items | map s => simp [writeFlat] at hdata

/-- Every entry of the document is plain, and no key is given twice. -/
def Flat : Object → Prop
  | [] => True
  | (k, v) :: m => (∃ text, v = .scalar text ∧ isEntry k text m = true) ∧ Flat m

theorem flat_of_readFlat (hm : readFlat data = some m) : Flat m := by
  unfold readFlat at hm
  generalize split 0x0A data = lines at hm
  induction lines generalizing m with
  | nil => cases hm
  | cons line lines ih =>
    rw [readLines] at hm
    split_ifs at hm
    · cases hm
      trivial
    · split at hm
      · next k v m' _ hrest =>
        split_ifs at hm with hentry
        cases hm
        exact ⟨⟨v, rfl, hentry⟩, ih hrest⟩
      · cases hm

theorem Flat.distinctKeys (hm : Flat m) : DistinctKeys m := by
  induction m with
  | nil => simp [DistinctKeys]
  | cons e m ih =>
    obtain ⟨k, v⟩ := e
    obtain ⟨⟨text, rfl, hentry⟩, hrest⟩ := hm
    simp only [DistinctKeys]
    exact ⟨(isEntry_iff.mp hentry).2, ih hrest⟩

theorem Flat.filter (hm : Flat m) (keep : Str × Yaml → Bool) : Flat (m.filter keep) := by
  induction m with
  | nil => trivial
  | cons e m ih =>
    obtain ⟨k, v⟩ := e
    obtain ⟨⟨text, rfl, hentry⟩, hrest⟩ := hm
    rw [List.filter_cons]
    split_ifs
    · refine ⟨⟨text, rfl, ?_⟩, ih hrest⟩
      rw [isEntry_iff] at hentry ⊢
      refine ⟨hentry.1, fun hmem => hentry.2 ?_⟩
      obtain ⟨e, he, hk⟩ := List.mem_map.mp hmem
      exact List.mem_map.mpr ⟨e, List.mem_of_mem_filter he, hk⟩
    · exact ih hrest

theorem Flat.mergeMaps {p : Object} (hm : Flat m) (hp : Flat p) : Flat (Api.mergeMaps m p) := by
  induction p generalizing m with
  | nil => rwa [Api.mergeMaps]
  | cons e p ih =>
    obtain ⟨k, v⟩ := e
    obtain ⟨⟨text, rfl, hentry⟩, hrest⟩ := hp
    have hmerge : Api.mergeMaps m ((k, .scalar text) :: p) =
        Api.mergeMaps (assign m k (.scalar text)) p := by
      simp [Api.mergeMaps]
    rw [hmerge]
    refine ih ⟨⟨text, rfl, ?_⟩, hm.filter _⟩ hrest
    rw [isEntry_iff] at hentry ⊢
    refine ⟨hentry.1, fun hmem => ?_⟩
    obtain ⟨e, he, hk⟩ := List.mem_map.mp hmem
    simp [hk] at he

theorem readFlat_of_unmarshal {p : Option Object} (hp : flatDocs.unmarshal data = some p) :
    readFlat data = some (p.getD []) := by
  simp only [flatDocs] at hp
  split_ifs at hp with hempty
  · cases hp
    rw [hempty]
    rfl
  · obtain ⟨m, hm, rfl⟩ := Option.map_eq_some_iff.mp hp
    exact hm

theorem unmarshal_of_writeFlat (hdata : writeFlat m = some data) :
    ∃ p, flatDocs.unmarshal data = some p ∧ p.getD [] = m := by
  have hread := readFlat_writeFlat hdata
  simp only [flatDocs]
  split_ifs with hempty
  · subst hempty
    exact ⟨none, rfl, Option.some.inj hread⟩
  · exact ⟨some m, by rw [hread, Option.map_some], rfl⟩

end Peretum.Api
