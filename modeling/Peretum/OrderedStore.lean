import Mathlib.Data.List.Lex
import Mathlib.Order.Lattice

/-!
# Ordered stores

A store keeps its entries in the order of their keys, without duplicate keys. An iterator is
positioned at the first key that is not less than a given one, and goes on from there. If keys are
lists in lexicographic order, those with a common beginning follow one another, and come right
from where an iterator is positioned at it.
-/

namespace OrderedStore

variable {K V : Type*} [LinearOrder K]

/-- The entries have increasing keys. -/
def Increasing (es : List (K × V)) : Prop := es.Pairwise fun e f => e.1 < f.1

structure Store (K V : Type*) [LinearOrder K] where
  entries : List (K × V)
  increasing : Increasing entries

/-- Put an entry in its place. -/
def setEntry (k : K) (v : V) : List (K × V) → List (K × V)
  | [] => [(k, v)]
  | e :: es =>
      if k < e.1 then (k, v) :: e :: es
      else if e.1 < k then e :: setEntry k v es
      else (k, v) :: es

variable {es : List (K × V)} {k : K} {v : V}

theorem mem_setEntry (hes : Increasing es) {e : K × V} :
    e ∈ setEntry k v es ↔ e = (k, v) ∨ e ∈ es ∧ e.1 ≠ k := by
  induction es with
  | nil => simp [setEntry]
  | cons f es ih =>
    obtain ⟨hfirst, hrest⟩ := List.pairwise_cons.mp hes
    rw [setEntry]
    split
    · next hlt =>
      rw [List.mem_cons]
      refine or_congr_right ⟨fun hmem => ⟨hmem, ?_⟩, And.left⟩
      rcases List.mem_cons.mp hmem with rfl | hmem
      · exact hlt.ne'
      · exact (hlt.trans (hfirst e hmem)).ne'
    · split
      · next hlt =>
        rw [List.mem_cons, ih hrest, List.mem_cons]
        constructor
        · rintro (rfl | rfl | ⟨hmem, hne⟩)
          · exact .inr ⟨.inl rfl, hlt.ne⟩
          · exact .inl rfl
          · exact .inr ⟨.inr hmem, hne⟩
        · rintro (rfl | ⟨rfl | hmem, hne⟩)
          · exact .inr (.inl rfl)
          · exact .inl rfl
          · exact .inr (.inr ⟨hmem, hne⟩)
      · next hge hle =>
        obtain rfl : k = f.1 := le_antisymm (not_lt.mp hle) (not_lt.mp hge)
        rw [List.mem_cons, List.mem_cons]
        constructor
        · rintro (rfl | hmem)
          · exact .inl rfl
          · exact .inr ⟨.inr hmem, (hfirst e hmem).ne'⟩
        · rintro (rfl | ⟨rfl | hmem, hne⟩)
          · exact .inl rfl
          · exact absurd rfl hne
          · exact .inr hmem

theorem Increasing.setEntry (hes : Increasing es) (k : K) (v : V) :
    Increasing (setEntry k v es) := by
  induction es with
  | nil => exact List.pairwise_singleton _ _
  | cons f es ih =>
    obtain ⟨hfirst, hrest⟩ := List.pairwise_cons.mp hes
    rw [OrderedStore.setEntry]
    split
    · next hlt =>
      refine List.pairwise_cons.mpr ⟨fun e he => ?_, hes⟩
      rcases List.mem_cons.mp he with rfl | he
      · exact hlt
      · exact hlt.trans (hfirst e he)
    · split
      · next hlt =>
        refine List.pairwise_cons.mpr ⟨fun e he => ?_, ih hrest⟩
        rcases (mem_setEntry hrest).mp he with rfl | ⟨he, -⟩
        · exact hlt
        · exact hfirst e he
      · next hge hle =>
        obtain rfl : k = f.1 := le_antisymm (not_lt.mp hle) (not_lt.mp hge)
        exact List.pairwise_cons.mpr ⟨hfirst, hrest⟩

theorem Increasing.eq_of_key_eq (hes : Increasing es) {e f : K × V} (he : e ∈ es) (hf : f ∈ es)
    (hkey : e.1 = f.1) : e = f := by
  induction es with
  | nil => cases he
  | cons g es ih =>
    obtain ⟨hfirst, hrest⟩ := List.pairwise_cons.mp hes
    rcases List.mem_cons.mp he with rfl | hlater
    · rcases List.mem_cons.mp hf with rfl | hlater
      · rfl
      · exact absurd hkey (hfirst f hlater).ne
    · rcases List.mem_cons.mp hf with rfl | hlater'
      · exact absurd hkey (hfirst e hlater).ne'
      · exact ih hrest hlater hlater'

namespace Store

/-- A store without entries. -/
def empty : Store K V := ⟨[], .nil⟩

/-- Set the value of a key. -/
def set (s : Store K V) (k : K) (v : V) : Store K V :=
  ⟨setEntry k v s.entries, s.increasing.setEntry k v⟩

def delete (s : Store K V) (k : K) : Store K V :=
  ⟨s.entries.filter fun e => e.1 ≠ k, s.increasing.sublist List.filter_sublist⟩

/-- The value of a key. -/
def get (s : Store K V) (k : K) : Option V := (s.entries.find? fun e => e.1 = k).map Prod.snd

/-- The entries from the first key on that is not less than a given one. -/
def seekGE (s : Store K V) (k : K) : List (K × V) := s.entries.dropWhile fun e => e.1 < k

variable {s : Store K V}

theorem get_eq_some_iff : s.get k = some v ↔ (k, v) ∈ s.entries := by
  constructor
  · intro hget
    obtain ⟨e, hfind, rfl⟩ := Option.map_eq_some_iff.mp hget
    obtain rfl : e.1 = k := by simpa using List.find?_some hfind
    exact List.mem_of_find?_eq_some hfind
  · intro hmem
    obtain ⟨e, hfind⟩ : ∃ e, (s.entries.find? fun e => e.1 = k) = some e := by
      rw [← Option.isSome_iff_exists, List.find?_isSome]
      exact ⟨(k, v), hmem, by simp⟩
    have hkey : e.1 = k := by simpa using List.find?_some hfind
    obtain rfl := s.increasing.eq_of_key_eq (List.mem_of_find?_eq_some hfind) hmem hkey
    rw [get, hfind, Option.map_some]

theorem get_set (s : Store K V) (k : K) (v : V) (k' : K) :
    (s.set k v).get k' = if k' = k then some v else s.get k' := by
  refine Option.ext fun w => ?_
  rw [get_eq_some_iff, set, mem_setEntry s.increasing]
  split
  · next hk => simp [hk, eq_comm]
  · next hk => simp [hk, get_eq_some_iff]

theorem get_delete (s : Store K V) (k k' : K) :
    (s.delete k).get k' = if k' = k then none else s.get k' := by
  refine Option.ext fun w => ?_
  rw [get_eq_some_iff, delete, List.mem_filter]
  split
  · next hk => simp [hk]
  · next hk => simp [hk, get_eq_some_iff]

end Store

section Lists

variable {α : Type*} [LinearOrder α] {p a b : List α}

theorem le_of_isPrefix (hp : p <+: a) : p ≤ a := by
  obtain ⟨t, rfl⟩ := hp
  induction p with
  | nil => exact not_lt.mp (List.not_lt_nil _)
  | cons x p ih => exact List.cons_le_cons x ih

/-- The order of lists looks at the first elements first. -/
theorem cons_le_cons_iff {x y : α} : x :: a ≤ y :: b ↔ x < y ∨ x = y ∧ a ≤ b := by
  rw [← not_lt, ← not_lt, List.cons_lt_cons_iff, not_or, not_lt, not_and]
  constructor
  · rintro ⟨hxy, hab⟩
    exact hxy.lt_or_eq.imp_right fun heq => ⟨heq, hab heq.symm⟩
  · rintro (hxy | ⟨rfl, hab⟩)
    · exact ⟨hxy.le, fun heq => absurd heq hxy.ne'⟩
    · exact ⟨le_rfl, fun _ => hab⟩

/-- What lies between a beginning and a list with it has it too. -/
theorem isPrefix_of_le_of_le (hpa : p ≤ a) (hab : a ≤ b) (hp : p <+: b) : p <+: a := by
  obtain ⟨t, rfl⟩ := hp
  induction p generalizing a with
  | nil => exact List.nil_prefix
  | cons x p ih =>
    cases a with
    | nil => exact absurd hpa (not_le.mpr (List.nil_lt_cons _ _))
    | cons y a =>
      rcases cons_le_cons_iff.mp hpa with hxy | ⟨rfl, hpa'⟩
      · rcases cons_le_cons_iff.mp hab with hyx | ⟨rfl, -⟩
        · exact absurd (hxy.trans hyx) (lt_irrefl _)
        · exact absurd hxy (lt_irrefl _)
      · rcases cons_le_cons_iff.mp hab with hxx | ⟨-, hab⟩
        · exact absurd hxx (lt_irrefl _)
        · exact List.cons_prefix_cons.mpr ⟨rfl, ih hpa' hab⟩

theorem append_lt_append_iff : p ++ a < p ++ b ↔ a < b := by
  induction p with
  | nil => rfl
  | cons x p ih =>
    rw [List.cons_append, List.cons_append, List.cons_lt_cons_iff, ih]
    exact ⟨fun h => (h.resolve_left (lt_irrefl x)).2, fun h => .inr ⟨rfl, h⟩⟩

variable {es : List (List α × V)} {q : List α × V → Bool}

/-- Among keys that are not less than a beginning, those with it come first. -/
theorem takeWhile_eq_filter (hq : ∀ e, q e = true ↔ p <+: e.1) (hes : Increasing es)
    (hge : ∀ e ∈ es, p ≤ e.1) :
    es.takeWhile q = es.filter q := by
  induction es with
  | nil => rfl
  | cons e es ih =>
    obtain ⟨hfirst, hrest⟩ := List.pairwise_cons.mp hes
    obtain ⟨hpe, hge⟩ := List.forall_mem_cons.mp hge
    by_cases he : q e = true
    · rw [List.takeWhile_cons_of_pos he, List.filter_cons_of_pos he, ih hrest hge]
    · rw [List.takeWhile_cons_of_neg he, List.filter_cons_of_neg he, eq_comm,
        List.filter_eq_nil_iff]
      intro f hf hqf
      exact he ((hq _).mpr (isPrefix_of_le_of_le hpe (hfirst f hf).le ((hq _).mp hqf)))

/-- The entries whose keys have a beginning are those that an iterator positioned at it finds
until it finds another one. -/
theorem takeWhile_seekGE (s : Store (List α) V) (hq : ∀ e, q e = true ↔ p <+: e.1) :
    (s.seekGE p).takeWhile q = s.entries.filter q := by
  obtain ⟨es, hes⟩ := s
  unfold Store.seekGE
  induction es with
  | nil => rfl
  | cons e es ih =>
    obtain ⟨hfirst, hrest⟩ := List.pairwise_cons.mp hes
    by_cases hlt : e.1 < p
    · have he : ¬ q e = true := fun h => absurd (le_of_isPrefix ((hq _).mp h)) (not_le.mpr hlt)
      rw [List.dropWhile_cons_of_pos (by simpa using hlt), List.filter_cons_of_neg he, ih hrest]
    · rw [List.dropWhile_cons_of_neg (by simpa using hlt)]
      refine takeWhile_eq_filter hq hes (List.forall_mem_cons.mpr ⟨not_lt.mp hlt, fun f hf => ?_⟩)
      exact (not_lt.mp hlt).trans (hfirst f hf).le

end Lists

end OrderedStore
