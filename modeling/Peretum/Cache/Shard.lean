import Mathlib.Algebra.GroupWithZero.Nat
import Mathlib.Algebra.Ring.Int.Defs
import Peretum.Cache.Files
import Peretum.Sums

/-!
# One shard of the in-memory index

A shard pairs a map from keys to entries with a recency list. As in
`container/list`, a list element has an identity of its own, which the entry
keeps so that it can be moved or removed without searching. Every operation runs
under the shard's mutex and is therefore one function on the shard.
-/

namespace Peretum.Cache

open Go

/-- The identity of an element of a recency list. -/
abbrev Element := Nat

structure EntryMeta where
  size : Int
  lastUsed : Int
  /-- The time the entry expires, `none` for never. -/
  expiresAt : Option Int
  element : Element
  deriving DecidableEq

/-- The expiry test of `findExpired`. -/
def EntryMeta.expired (e : EntryMeta) (now : Int) : Bool :=
  match e.expiresAt with
  | none => false
  | some t => t < now

structure LruShard where
  lru : Map Key EntryMeta
  /-- The recency list, most recent first. -/
  lruList : List (Element × Key)
  nextElement : Element
  size : Int

namespace LruShard

/-- `newLRUShard`. -/
def empty : LruShard := ⟨∅, [], 0, 0⟩

/-- `list.MoveToFront`. -/
def moveToFront (l : List (Element × Key)) (e : Element) : List (Element × Key) :=
  l.filter (fun x => x.1 = e) ++ l.filter (fun x => x.1 ≠ e)

/-- `list.Remove`. -/
def removeElement (l : List (Element × Key)) (e : Element) : List (Element × Key) :=
  l.filter (fun x => x.1 ≠ e)

/-- `lruShard.get`. -/
def get (s : LruShard) (key : Key) : Option EntryMeta × LruShard :=
  match s.lru.lookup key with
  | some e => (some e, { s with lruList := moveToFront s.lruList e.element })
  | none => (none, s)

/-- `lruShard.put` at time `now`: the change of the shard's size and the shard. -/
def put (s : LruShard) (now : Int) (key : Key) (size : Int) (expiresAt : Option Int) :
    Int × LruShard :=
  match s.lru.lookup key with
  | some e =>
      (size - e.size,
        { s with
          lru := s.lru.insert key ⟨size, now, expiresAt, e.element⟩
          lruList := moveToFront s.lruList e.element
          size := s.size + (size - e.size) })
  | none =>
      (size,
        { lru := s.lru.insert key ⟨size, now, expiresAt, s.nextElement⟩
          lruList := (s.nextElement, key) :: s.lruList
          nextElement := s.nextElement + 1
          size := s.size + size })

/-- Drop a tracked entry: the body shared by the removals of a shard. -/
def drop (s : LruShard) (key : Key) (e : EntryMeta) : LruShard :=
  { s with
    lru := s.lru.erase key
    lruList := removeElement s.lruList e.element
    size := s.size - e.size }

/-- `lruShard.remove`. -/
def remove (s : LruShard) (key : Key) : Option Int × LruShard :=
  match s.lru.lookup key with
  | some e => (some e.size, s.drop key e)
  | none => (none, s)

/-- `lruShard.evict`: the entry at the back of the recency list. A listed key
without an entry, which the source would dereference, is left alone. -/
def evict (s : LruShard) : Option (Key × Int) × LruShard :=
  match s.lruList.getLast? with
  | none => (none, s)
  | some (element, key) =>
      match s.lru.lookup key with
      | some e =>
          (some (key, e.size),
            { s with
              lru := s.lru.erase key
              lruList := removeElement s.lruList element
              size := s.size - e.size })
      | none => (none, s)

/-- Drop several tracked entries one after the other. -/
def dropAll (s : LruShard) (keys : List Key) : LruShard :=
  keys.foldl (fun s key => (s.remove key).2) s

/-- `lruShard.findExpired`: the expired keys, their total size, and the shard
without them. -/
def findExpired (s : LruShard) (now : Int) : List Key × Int × LruShard :=
  let expired := s.lru.entries.filter (fun x => x.2.expired now)
  (expired.map Sigma.fst, (expired.map (fun x => x.2.size)).sum,
    s.dropAll (expired.map Sigma.fst))

/-- Every tracked entry of a shard has a property. -/
def All (p : EntryMeta → Prop) (s : LruShard) : Prop := ∀ key e, s.lru.lookup key = some e → p e

variable {p : EntryMeta → Prop} {s : LruShard} {key : Key}

theorem All.of_insert {t : LruShard} (hall : s.All p) {e : EntryMeta} (he : p e)
    (hlru : t.lru = s.lru.insert key e) : t.All p := by
  intro k e' hlookup
  rw [hlru] at hlookup
  by_cases hk : k = key
  · subst hk
    rw [AList.lookup_insert] at hlookup
    cases hlookup
    exact he
  · rw [AList.lookup_insert_ne hk] at hlookup
    exact hall k e' hlookup

theorem All.of_erase {t : LruShard} (hall : s.All p) (hlru : t.lru = s.lru.erase key) :
    t.All p := by
  intro k e hlookup
  rw [hlru] at hlookup
  by_cases hk : k = key
  · subst hk
    rw [AList.lookup_erase] at hlookup
    cases hlookup
  · rw [AList.lookup_erase_ne hk] at hlookup
    exact hall k e hlookup

/-- The weight of a key in a shard, zero when it is not tracked. -/
def weight (f : Key → EntryMeta → Int) (s : LruShard) (key : Key) : Int :=
  (s.lru.lookup key).elim 0 (f key)

/-- The recorded size of a key, zero when it is not tracked. -/
abbrev sizeOf (s : LruShard) (key : Key) : Int := s.weight (fun _ e => e.size) key

variable (f : Key → EntryMeta → Int)

theorem sum_lru_insert (s : LruShard) (key : Key) (e : EntryMeta) :
    Map.sum f (s.lru.insert key e) = Map.sum f s.lru - s.weight f key + f key e :=
  Map.sum_insert f s.lru key e

theorem sum_lru_erase (s : LruShard) (key : Key) :
    Map.sum f (s.lru.erase key) = Map.sum f s.lru - s.weight f key :=
  Map.sum_erase f s.lru key

/-- What `put` does: the key has an entry of the new size, and the shard's size changes by
the reported difference. -/
theorem put_spec (s : LruShard) (now : Int) (key : Key) (size : Int) (expiresAt : Option Int) :
    (s.put now key size expiresAt).1 = size - s.sizeOf key ∧
      (s.put now key size expiresAt).2.size = s.size + (size - s.sizeOf key) ∧
      ∃ e : EntryMeta, e.size = size ∧
        (s.put now key size expiresAt).2.lru = s.lru.insert key e := by
  unfold put sizeOf weight
  cases s.lru.lookup key with
  | none => exact ⟨by simp, by simp, _, rfl, rfl⟩
  | some e => exact ⟨rfl, rfl, _, rfl, rfl⟩

/-- `remove` takes the recorded size of the key off the shard's size. -/
theorem remove_size (s : LruShard) (key : Key) :
    (s.remove key).2.size = s.size - s.sizeOf key := by
  unfold remove sizeOf weight
  cases s.lru.lookup key with
  | none => simp
  | some e => rfl

theorem remove_lru (s : LruShard) (key : Key) : (s.remove key).2.lru = s.lru.erase key := by
  unfold remove
  cases hlookup : s.lru.lookup key with
  | some e => rfl
  | none =>
    have hnotMem : key ∉ s.lru.keys := fun h =>
      AList.lookup_eq_none.mp hlookup (AList.mem_keys.mpr h)
    refine AList.ext ?_
    exact (List.kerase_of_notMem_keys hnotMem).symm

/-- What `evict` does: nothing, or it drops a tracked key and reports its recorded size. -/
theorem evict_cases (s : LruShard) :
    s.evict = (none, s) ∨ ∃ key e, s.lru.lookup key = some e ∧
      s.evict.1 = some (key, e.size) ∧ s.evict.2.lru = s.lru.erase key ∧
      s.evict.2.size = s.size - e.size ∧ s.evict.2.lruList.length < s.lruList.length := by
  unfold evict
  cases hlast : s.lruList.getLast? with
  | none => exact .inl rfl
  | some x =>
    obtain ⟨element, key⟩ := x
    cases hlookup : s.lru.lookup key with
    | none => exact .inl (by simp [hlookup])
    | some e =>
      refine .inr ⟨key, e, hlookup, by simp [hlookup], by simp [hlookup], by simp [hlookup], ?_⟩
      have hmem : (element, key) ∈ s.lruList := List.mem_of_getLast? hlast
      simp only [hlookup]
      exact List.length_filter_lt_length_iff_exists.mpr ⟨_, hmem, by simp⟩

/-- A key is tracked after some keys were dropped if it was and is not among them. -/
theorem lookup_dropAll (s : LruShard) (keys : List Key) (k : Key) :
    (s.dropAll keys).lru.lookup k = if k ∈ keys then none else s.lru.lookup k := by
  induction keys generalizing s with
  | nil => simp [dropAll]
  | cons key keys ih =>
    have hstep : (s.dropAll (key :: keys)).lru.lookup k =
        if k ∈ keys then none else (s.remove key).2.lru.lookup k := ih (s.remove key).2
    rw [hstep, remove_lru]
    by_cases hk : k = key
    · subst hk
      simp [AList.lookup_erase]
    · simp [hk, AList.lookup_erase_ne hk]

theorem All.dropAll (hall : s.All p) (keys : List Key) : (s.dropAll keys).All p := by
  intro k e hlookup
  rw [lookup_dropAll] at hlookup
  split at hlookup
  · cases hlookup
  · exact hall k e hlookup

theorem weight_remove_of_ne (s : LruShard) {k : Key} (hk : k ≠ key) :
    (s.remove key).2.weight f k = s.weight f k := by
  unfold weight
  rw [remove_lru, AList.lookup_erase_ne hk]

/-- What one removal takes off a quantity, the drop of different keys takes off key by key. -/
theorem dropAll_of_remove {g : LruShard → Int}
    (hremove : ∀ s key, g (s.remove key).2 = g s - s.weight f key) (s : LruShard) {keys : List Key}
    (hnodup : keys.Nodup) : g (s.dropAll keys) = g s - (keys.map (s.weight f)).sum := by
  induction keys generalizing s with
  | nil => simp [dropAll]
  | cons key keys ih =>
    obtain ⟨hnotMem, hrest⟩ := List.nodup_cons.mp hnodup
    have hstep : g (s.dropAll (key :: keys)) = g (s.remove key).2 -
        (keys.map ((s.remove key).2.weight f)).sum := ih (s.remove key).2 hrest
    have hweights : keys.map ((s.remove key).2.weight f) = keys.map (s.weight f) := by
      refine List.map_congr_left fun k hk => ?_
      exact s.weight_remove_of_ne f fun heq => hnotMem (heq ▸ hk)
    rw [hstep, hweights, hremove, List.map_cons, List.sum_cons]
    omega

/-- Dropping different keys takes their weights away. -/
theorem sum_dropAll (s : LruShard) {keys : List Key} (hnodup : keys.Nodup) :
    Map.sum f (s.dropAll keys).lru = Map.sum f s.lru - (keys.map (s.weight f)).sum := by
  refine dropAll_of_remove f (g := fun s => Map.sum f s.lru) (fun s key => ?_) s hnodup
  rw [remove_lru, sum_lru_erase]

/-- Dropping different keys takes their recorded sizes off the shard's size. -/
theorem dropAll_size (s : LruShard) {keys : List Key} (hnodup : keys.Nodup) :
    (s.dropAll keys).size = s.size - (keys.map s.sizeOf).sum :=
  dropAll_of_remove _ remove_size s hnodup

theorem findExpired_nodup (s : LruShard) (now : Int) : (s.findExpired now).1.Nodup := by
  have hkeys : (s.findExpired now).1.Sublist s.lru.keys :=
    List.filter_sublist.map Sigma.fst
  exact s.lru.keys_nodup.sublist hkeys

theorem findExpired_total (s : LruShard) (now : Int) :
    (s.findExpired now).2.1 = ((s.findExpired now).1.map s.sizeOf).sum := by
  unfold findExpired
  simp only [List.map_map]
  congr 1
  refine List.map_congr_left fun x hx => ?_
  have hlookup : s.lru.lookup x.1 = some x.2 :=
    AList.mem_lookup_iff.mpr (List.mem_of_mem_filter hx)
  simp [weight, hlookup]

theorem findExpired_nonneg (hall : s.All fun e => 0 ≤ e.size) (now : Int) :
    0 ≤ (s.findExpired now).2.1 := by
  refine List.sum_nonneg fun x hx => ?_
  obtain ⟨y, hy, rfl⟩ := List.mem_map.mp hx
  exact hall y.1 y.2 (AList.mem_lookup_iff.mpr (List.mem_of_mem_filter hy))

end LruShard

end Peretum.Cache
