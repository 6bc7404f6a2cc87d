import Peretum.Go.Header

/-!
# The bounded LRU cache

`cluster.LRUCache` keeps its nodes in a doubly linked list, most recent first,
and finds them through a map. Both hold the same nodes, so one association list
in list order stands for the two. Every operation runs under the cache's mutex
and is one step of its callers.
-/

namespace Peretum.Cluster

open Go

variable {K V : Type} [DecidableEq K]

structure LRUCache (K V : Type) where
  capacity : Nat
  /-- The entries, most recently used first. -/
  cache : Map K V
  /-- A cache has room for something. -/
  capacity_pos : 0 < capacity
  bounded : cache.entries.length ≤ capacity

namespace LRUCache

/-- `NewLRUCache`. -/
def new (capacity : Int) : LRUCache K V where
  capacity := if capacity ≤ 0 then 10000 else capacity.toNat
  cache := ∅
  capacity_pos := by split <;> omega
  bounded := by simp

/-- The value stored for a key. -/
def find (c : LRUCache K V) (key : K) : Option V := c.cache.lookup key

/-- `Get`: the value, and the cache with its node moved to the front. -/
def get (c : LRUCache K V) (key : K) : Option V × LRUCache K V :=
  match h : c.cache.lookup key with
  | none => (none, c)
  | some v => (some v, { c with
      cache := c.cache.insert key v
      bounded := by
        rw [Map.length_insert, if_pos (AList.lookup_isSome.mp (by simp [h]))]
        exact c.bounded })

/-- `evict`: drop the last node. -/
def evict (m : Map K V) : Map K V :=
  ⟨m.entries.dropLast, m.nodupKeys.sublist (List.dropLast_sublist _)⟩

/-- The map after `Put`. -/
def putMap (capacity : Nat) (m : Map K V) (key : K) (value : V) : Map K V :=
  if key ∈ m then m.insert key value
  else (if m.entries.length < capacity then m else evict m).insert key value

private theorem length_putMap_le {capacity : Nat} (hpos : 0 < capacity) {m : Map K V}
    (hbound : m.entries.length ≤ capacity) (key : K) (value : V) :
    (putMap capacity m key value).entries.length ≤ capacity := by
  unfold putMap
  split
  · next hmem => rwa [Map.length_insert, if_pos hmem]
  · next hnotMem =>
    split
    · next hroom =>
      rw [Map.length_insert, if_neg hnotMem]
      omega
    · have hnotMem' : key ∉ evict m := fun h => hnotMem (by
        exact ((List.dropLast_sublist m.entries).map Sigma.fst).subset h)
      rw [Map.length_insert, if_neg hnotMem', evict, List.length_dropLast]
      omega

/-- `Put`: overwrite in place, or evict the least recently used entry when full. -/
def put (c : LRUCache K V) (key : K) (value : V) : LRUCache K V :=
  { c with
    cache := putMap c.capacity c.cache key value
    bounded := length_putMap_le c.capacity_pos c.bounded key value }

/-- `Delete`: whether the key was there, and the cache without it. -/
def delete (c : LRUCache K V) (key : K) : Bool × LRUCache K V :=
  ((c.cache.lookup key).isSome, { c with
    cache := c.cache.erase key
    bounded := by
      have hlen : (c.cache.erase key).entries.length ≤ c.cache.entries.length :=
        (List.kerase_sublist key c.cache.entries).length_le
      exact hlen.trans c.bounded })

@[simp] theorem find_new (capacity : Int) (key : K) :
    (new capacity : LRUCache K V).find key = none := by
  simp [find, new]

variable (c : LRUCache K V)

/-- `Get` returns the value stored. -/
theorem get_fst (key : K) : (c.get key).1 = c.find key := by
  unfold get find
  split
  · next h => exact h.symm
  · next v h => exact h.symm

/-- `Get` changes the order of the entries only. -/
@[simp] theorem find_get (key k : K) : (c.get key).2.find k = c.find k := by
  unfold get find
  split
  · rfl
  · next v hv =>
    by_cases hk : k = key
    · subst hk
      simp [hv]
    · exact AList.lookup_insert_ne hk

@[simp] theorem find_put_self (key : K) (value : V) : (c.put key value).find key = some value := by
  unfold find put putMap
  split <;> exact AList.lookup_insert _

/-- An entry of another key survives `Put` unchanged or is evicted. -/
theorem find_of_find_put {c : LRUCache K V} {key k : K} {value v : V} (hk : k ≠ key)
    (hfind : (c.put key value).find k = some v) : c.find k = some v := by
  unfold find put putMap at *
  split at hfind
  · rwa [AList.lookup_insert_ne hk] at hfind
  · rw [AList.lookup_insert_ne hk] at hfind
    split at hfind
    · exact hfind
    · exact AList.mem_lookup_iff.mpr
        ((List.dropLast_sublist _).subset (AList.mem_lookup_iff.mp hfind))

/-- `Put` under the first key pushes out the entry of the second: the cache is full, does
not hold the first, and the second is the least recently used one. -/
def Evicts (c : LRUCache K V) (key k : K) : Prop :=
  key ∉ c.cache ∧ c.capacity ≤ c.cache.entries.length ∧ c.cache.keys.getLast? = some k

private theorem lookup_evict {m : Map K V} {k : K} (hlast : m.keys.getLast? ≠ some k) :
    (evict m).lookup k = m.lookup k := by
  change m.entries.dropLast.dlookup k = m.entries.dlookup k
  rcases List.eq_nil_or_concat m.entries with hnil | ⟨l, e, hconcat⟩
  · rw [hnil]
    rfl
  · have hne : k ≠ e.1 := by
      rintro rfl
      exact hlast (by simp [AList.keys, List.keys, hconcat])
    rw [hconcat, List.concat_eq_append, List.dropLast_concat, List.dlookup_append,
      List.dlookup_cons_ne _ _ hne, List.dlookup_nil, Option.or_none]

/-- An entry of another key that is not pushed out survives `Put` unchanged. -/
theorem find_put_of_not_evicts {c : LRUCache K V} {key k : K} (value : V) (hk : k ≠ key)
    (hevict : ¬ c.Evicts key k) : (c.put key value).find k = c.find k := by
  unfold find put putMap
  split
  · exact AList.lookup_insert_ne hk
  · next hnotMem =>
    rw [AList.lookup_insert_ne hk]
    split
    · rfl
    · next hfull =>
      exact lookup_evict fun hlast => hevict ⟨hnotMem, Nat.le_of_not_lt hfull, hlast⟩

/-- `Delete` removes the key and nothing else. -/
@[simp] theorem find_delete (key k : K) :
    (c.delete key).2.find k = if k = key then none else c.find k := by
  split
  · next h => subst h; exact AList.lookup_erase _ _
  · next h => exact AList.lookup_erase_ne h

end LRUCache

end Peretum.Cluster
