import Mathlib.Data.List.Nodup
import Mathlib.Data.List.Perm.Basic

/-!
# Nested maps

A map whose values may be maps again is read along paths of keys. Two such maps are the same if
they hold the same kind of thing at every path: nothing, a nil map, a map, or the same other
value. The entries of a map are listed in some order, which no path sees as long as every map
has its keys once.
-/

namespace Nested

universe u v

/-- What a map holds under a key: a value of another kind, or a map, `none` for the nil map. -/
inductive Value (K : Type u) (V : Type v) : Type (max u v) where
  | other (v : V)
  | map (m : Option (List (K × Value K V)))

/-- A map, `none` for the nil map. -/
abbrev Dict (K : Type u) (V : Type v) := Option (List (K × Value K V))

variable {K : Type u} {V : Type v}

/-- The entries of a map; the nil map has none. -/
def Dict.entries (m : Dict K V) : List (K × Value K V) := m.getD []

theorem Dict.sizeOf_entries_le [SizeOf K] [SizeOf V] (m : Dict K V) :
    sizeOf m.entries ≤ sizeOf m := by
  cases m with
  | none => exact Nat.le_refl 1
  | some entries =>
    exact Nat.le_add_left ..

/-- What there is at a path, apart from the entries of a map. -/
def Value.shape : Value K V → Value K V
  | .other v => .other v
  | .map m => .map (m.map fun _ => [])

variable [BEq K]

/-- What a map holds under a key. -/
def Dict.get (m : Dict K V) (k : K) : Option (Value K V) := m.entries.lookup k

/-- An assignment, which fails for the nil map. -/
def Dict.set (m : Dict K V) (k : K) (v : Value K V) : Option (Dict K V) :=
  m.map fun entries => some ((k, v) :: entries.filter fun e => !(e.1 == k))

/-- What a value holds at a path. -/
def Value.follow : Value K V → List K → Option (Value K V)
  | v, [] => some v
  | .other _, _ :: _ => none
  | .map m, k :: path => (Dict.get m k).bind fun v => v.follow path

/-- The two values hold the same kind of thing at a path. -/
def SameAt (path : List K) (a b : Value K V) : Prop :=
  (a.follow path).map Value.shape = (b.follow path).map Value.shape

/-- The two values hold the same kind of thing at every path. -/
def Same (a b : Value K V) : Prop := ∀ path, SameAt path a b

/-- Every map in a value has its keys once. -/
def Distinct (a : Value K V) : Prop :=
  ∀ path entries, a.follow path = some (.map (some entries)) → (entries.map Prod.fst).Nodup

/-- A map with maps in it. -/
structure NestedMap (K : Type u) (V : Type v) [BEq K] where
  root : Dict K V
  distinct : Distinct (.map root)

/-- What a nested map holds at a path. -/
def NestedMap.follow (m : NestedMap K V) (path : List K) : Option (Value K V) :=
  (Value.map m.root).follow path

variable {k : K} {m : List (K × Value K V)}

theorem lookup_cons_ne [LawfulBEq K] {j : K} (hj : j ≠ k) (v : Value K V)
    (m : List (K × Value K V)) : ((k, v) :: m).lookup j = m.lookup j := by
  rw [List.lookup_cons, beq_eq_false_iff_ne.mpr hj]

theorem lookup_eq_none [LawfulBEq K] (hk : k ∉ m.map Prod.fst) : m.lookup k = none := by
  rw [List.lookup_eq_none_iff]
  intro e he
  exact bne_iff_ne.mpr fun h => hk (h ▸ List.mem_map_of_mem he)

theorem lookup_eq_some [LawfulBEq K] (hm : (m.map Prod.fst).Nodup) {v : Value K V}
    (hmem : (k, v) ∈ m) : m.lookup k = some v := by
  obtain ⟨l, r, rfl⟩ := List.append_of_mem hmem
  refine List.lookup_eq_some_iff.mpr ⟨l, r, rfl, fun e he => bne_iff_ne.mpr ?_⟩
  rw [List.map_append, List.map_cons] at hm
  rintro rfl
  exact (List.nodup_append.mp hm).2.2 e.1 (List.mem_map_of_mem he) e.1 List.mem_cons_self rfl

theorem lookup_perm [LawfulBEq K] {m' : List (K × Value K V)} (hperm : m.Perm m')
    (hm : (m.map Prod.fst).Nodup) (k : K) : m.lookup k = m'.lookup k := by
  have hm' : (m'.map Prod.fst).Nodup := (hperm.map Prod.fst).nodup_iff.mp hm
  by_cases hk : k ∈ m.map Prod.fst
  · obtain ⟨⟨k, v⟩, hmem, rfl⟩ := List.mem_map.mp hk
    rw [lookup_eq_some hm hmem, lookup_eq_some hm' (hperm.mem_iff.mp hmem)]
  · have hk' : k ∉ m'.map Prod.fst := fun h => hk ((hperm.map Prod.fst).mem_iff.mpr h)
    rw [lookup_eq_none hk, lookup_eq_none hk']

namespace Dict

variable {m m' : Dict K V} {k : K} {v : Value K V}

theorem set_eq_none_iff : m.set k v = none ↔ m = none := Option.map_eq_none_iff

theorem ne_none_of_set (hset : m.set k v = some m') : m' ≠ none := by
  obtain ⟨entries, -, rfl⟩ := Option.map_eq_some_iff.mp hset
  exact Option.some_ne_none _

theorem ne_none_of_get (hget : m.get k = some v) : m ≠ none := by
  rintro rfl
  cases hget

variable [LawfulBEq K]

theorem get_set_self (hset : m.set k v = some m') : m'.get k = some v := by
  obtain ⟨entries, -, rfl⟩ := Option.map_eq_some_iff.mp hset
  exact List.lookup_cons_self

theorem get_set_ne (hset : m.set k v = some m') {j : K} (hj : j ≠ k) : m'.get j = m.get j := by
  obtain ⟨entries, rfl, rfl⟩ := Option.map_eq_some_iff.mp hset
  change ((k, v) :: entries.filter fun e => !(e.1 == k)).lookup j = entries.lookup j
  rw [lookup_cons_ne hj]
  clear hset
  induction entries with
  | nil => rfl
  | cons e entries ih =>
    obtain ⟨k', v'⟩ := e
    by_cases hk : k' = k
    · rw [List.filter_cons_of_neg (by simp [hk]), ih, lookup_cons_ne (hk ▸ hj)]
    · rw [List.filter_cons_of_pos (by simp [hk])]
      by_cases hj' : j = k'
      · rw [hj', List.lookup_cons_self, List.lookup_cons_self]
      · rw [lookup_cons_ne hj', lookup_cons_ne hj', ih]

theorem nodup_set (hset : m.set k v = some m') (hm : (m.entries.map Prod.fst).Nodup) :
    (m'.entries.map Prod.fst).Nodup := by
  obtain ⟨entries, rfl, rfl⟩ := Option.map_eq_some_iff.mp hset
  change (k :: (entries.filter fun e => !(e.1 == k)).map Prod.fst).Nodup
  refine List.nodup_cons.mpr ⟨fun hk => ?_, hm.sublist (List.filter_sublist.map Prod.fst)⟩
  obtain ⟨e, he, rfl⟩ := List.mem_map.mp hk
  simpa using (List.mem_filter.mp he).2

end Dict

theorem follow_cons (m : Dict K V) (k : K) (path : List K) :
    (Value.map m).follow (k :: path) = (m.get k).bind fun v => v.follow path := rfl

theorem follow_of_get {m : Dict K V} {v : Value K V} (hget : m.get k = some v) (path : List K) :
    (Value.map m).follow (k :: path) = v.follow path := by
  rw [follow_cons, hget, Option.bind_some]

theorem exists_map_of_follow {a : Value K V} {path : List K} {m : Dict K V}
    (hfollow : a.follow path = some (.map m)) : ∃ d, a = .map d := by
  cases a with
  | map d => exact ⟨d, rfl⟩
  | other v =>
    cases path with
    | nil | cons k path => cases hfollow

theorem distinct_other (v : V) : Distinct (.other v : Value K V) := by
  intro path entries hfollow
  obtain ⟨d, hd⟩ := exists_map_of_follow hfollow
  cases hd

namespace Distinct

variable {m : Dict K V}

theorem get (hm : Distinct (.map m)) {k : K} {v : Value K V} (hget : m.get k = some v) :
    Distinct v := by
  intro path entries hfollow
  exact hm (k :: path) entries ((follow_of_get hget path).trans hfollow)

theorem nodup (hm : Distinct (.map m)) : (m.entries.map Prod.fst).Nodup := by
  cases m with
  | none => exact List.nodup_nil
  | some entries => exact hm [] entries rfl

theorem of_get (hm : (m.entries.map Prod.fst).Nodup) (hget : ∀ k v, m.get k = some v → Distinct v) :
    Distinct (.map m) := by
  intro path entries hfollow
  cases path with
  | nil =>
    obtain rfl := Value.map.inj (Option.some.inj hfollow)
    exact hm
  | cons k path =>
    obtain ⟨v, hv, hrest⟩ := Option.bind_eq_some_iff.mp hfollow
    exact hget k v hv path entries hrest

end Distinct

end Nested
