import Peretum.Cache.Sweep

/-!
# The representation of a shard

A shard has its keys in a map, in a recency list and, by their sizes, in a sum. Every operation
changes the three in statements of its own, and two purges do so outside the methods of the
shard. This file has the shard as the source has it: keys of any type, sizes that wrap, entries
that are dereferenced without a test, and maps that are ranged over in any order. No sequence of
calls dereferences a missing entry or takes the three apart. The shard of `Cache.Shard`, whose
sizes are integers, is this one up to the wrapping of the sizes.
-/

namespace Peretum.Cache

open Go Function

namespace Representation

/-- The sums of `int64` wrap. -/
scoped instance int64AddCommGroup : AddCommGroup Int64 where
  add_assoc := Int64.add_assoc
  zero_add := Int64.zero_add
  add_zero := Int64.add_zero
  nsmul := nsmulRec
  zsmul := zsmulRec
  sub_eq_add_neg := Int64.sub_eq_add_neg
  neg_add_cancel := Int64.add_left_neg
  add_comm := Int64.add_comm

structure EntryMeta where
  size : Int64
  lastUsed : Int
  /-- The time the entry expires, `none` for the zero time. -/
  expiresAt : Option Int
  element : Element

/-- The expiry test of `findExpired`. -/
def EntryMeta.expired (e : EntryMeta) (now : Int) : Bool :=
  match e.expiresAt with
  | none => false
  | some t => t < now

structure LruShard (K : Type) where
  lru : Map K EntryMeta
  /-- The recency list, most recent first. -/
  lruList : List (Element × K)
  nextElement : Element
  size : Int64

/-- The order in which a `range` visits the keys of a map. -/
structure RangeOrder (K : Type) where
  visits : List K → List K
  perm : ∀ keys, (visits keys).Perm keys

variable {K : Type}

/-- `list.MoveToFront`. -/
def moveToFront (l : List (Element × K)) (e : Element) : List (Element × K) :=
  l.filter (fun x => x.1 = e) ++ l.filter (fun x => x.1 ≠ e)

/-- `list.Remove`. -/
def removeElement (l : List (Element × K)) (e : Element) : List (Element × K) :=
  l.filter (fun x => x.1 ≠ e)

namespace LruShard

/-- `newLRUShard`. -/
def new : LruShard K := ⟨∅, [], 0, 0⟩

variable [DecidableEq K]

/-- `get`. -/
def get (s : LruShard K) (key : K) : Option EntryMeta × LruShard K :=
  match s.lru.lookup key with
  | some e => (some e, { s with lruList := moveToFront s.lruList e.element })
  | none => (none, s)

/-- `put` at time `now`: the change it returns and the shard. -/
def put (s : LruShard K) (now : Int) (key : K) (size : Int64) (expiresAt : Option Int) :
    Int64 × LruShard K :=
  match s.lru.lookup key with
  | some e =>
      let delta := size - e.size
      (delta,
        { s with
          size := s.size + delta
          lru := s.lru.insert key ⟨size, now, expiresAt, e.element⟩
          lruList := moveToFront s.lruList e.element })
  | none =>
      (size,
        { lruList := (s.nextElement, key) :: s.lruList
          nextElement := s.nextElement + 1
          lru := s.lru.insert key ⟨size, now, expiresAt, s.nextElement⟩
          size := s.size + size })

/-- Take an entry out: the three statements of every removal. -/
def drop (s : LruShard K) (key : K) (e : EntryMeta) : LruShard K :=
  { s with
    size := s.size - e.size
    lruList := removeElement s.lruList e.element
    lru := s.lru.erase key }

def remove (s : LruShard K) (key : K) : Option Int64 × LruShard K :=
  match s.lru.lookup key with
  | some e => (some e.size, s.drop key e)
  | none => (none, s)

/-- `evict`: the key it returns with its size, and the shard. There is no result if the key at
the back has no entry, which is dereferenced. -/
def evict (s : LruShard K) : Option (Option (K × Int64) × LruShard K) :=
  match s.lruList.getLast? with
  | none => some (none, s)
  | some (element, key) =>
      (s.lru.lookup key).map fun e =>
        (some (key, e.size),
          { s with
            size := s.size - e.size
            lruList := removeElement s.lruList element
            lru := s.lru.erase key })

/-- The loop over collected keys in `findExpired`, `PurgeByHost` and `purgeByHostPath`. There is
no result if a key has no entry, which is dereferenced. -/
def dropEach : LruShard K → List K → Option (LruShard K)
  | s, [] => some s
  | s, key :: keys => (s.lru.lookup key).bind fun e => (s.drop key e).dropEach keys

/-- The entry of a key is expired. -/
def expired (s : LruShard K) (now : Int) (key : K) : Bool :=
  (s.lru.lookup key).any fun e => e.expired now

/-- `findExpired`: the expired keys, their total size and the shard. -/
def findExpired (s : LruShard K) (now : Int) (range : RangeOrder K) :
    Option (List K × Int64 × LruShard K) :=
  let expired := (range.visits s.lru.keys).filter (s.expired now)
  let totalSize := expired.foldl (fun total key =>
    (s.lru.lookup key).elim total fun e => total + e.size) 0
  (s.dropEach expired).map fun t => (expired, totalSize, t)

/-- What `PurgeByHost` and `purgeByHostPath` do to a shard, with the test of an entry's file:
the keys they remove and the shard. -/
def purge (s : LruShard K) (selects : K → Bool) (range : RangeOrder K) :
    Option (List K × LruShard K) :=
  let toRemove := (range.visits s.lru.keys).filter selects
  (s.dropEach toRemove).map fun t => (toRemove, t)

/-- What `PurgeAll` does to a shard. -/
def purgeAll (s : LruShard K) : LruShard K := { s with lru := ∅, lruList := [], size := 0 }

end LruShard

/-- A call on a shard. -/
inductive Call (K : Type) where
  | put (now : Int) (key : K) (size : Int64) (expiresAt : Option Int)
  | get (key : K)
  | remove (key : K)
  | evict
  | findExpired (now : Int) (range : RangeOrder K)
  /-- `PurgeByHost` or `purgeByHostPath`. -/
  | purge (selects : K → Bool) (range : RangeOrder K)
  | purgeAll

/-- The key that a call puts or gets. -/
def Call.used : Call K → Option K
  | put _ key _ _ => some key
  | get key => some key
  | _ => none

variable [DecidableEq K]

/-- The shard after a call, if the call dereferences no missing entry. -/
def LruShard.step (s : LruShard K) : Call K → Option (LruShard K)
  | .put now key size expiresAt => some (s.put now key size expiresAt).2
  | .get key => some (s.get key).2
  | .remove key => some (s.remove key).2
  | .evict => s.evict.map Prod.snd
  | .findExpired now range => (s.findExpired now range).map fun r => r.2.2
  | .purge selects range => (s.purge selects range).map Prod.snd
  | .purgeAll => some s.purgeAll

/-- The number of the last call that puts or gets a key, zero if there is none. -/
def lastUse (calls : List (Call K)) (key : K) : Nat :=
  calls.length - calls.reverse.findIdx fun c => c.used = some key

theorem lastUse_concat_of_used (calls : List (Call K)) {c : Call K} (key : K)
    (hused : c.used = some key) :
    lastUse (calls ++ [c]) = update (lastUse calls) key (calls.length + 1) := by
  funext k
  simp only [lastUse, List.reverse_concat, List.findIdx_cons, List.length_append,
    List.length_singleton, hused]
  by_cases hk : k = key
  · simp [hk]
  · simp [update_of_ne hk, lastUse, Ne.symm hk]

theorem lastUse_concat_of_unused (calls : List (Call K)) {c : Call K} (hused : c.used = none) :
    lastUse (calls ++ [c]) = lastUse calls := by
  funext k
  simp only [lastUse, List.reverse_concat, List.findIdx_cons, List.length_append,
    List.length_singleton, hused]
  simp

theorem lastUse_lt (calls : List (Call K)) (key : K) : lastUse calls key < calls.length + 1 :=
  Nat.lt_succ_of_le (Nat.sub_le ..)

namespace LruShard

/-- The element the shard has for a key. -/
def place (s : LruShard K) (key : K) : Option Element := (s.lru.lookup key).map EntryMeta.element

theorem place_eq {s : LruShard K} {key : K} {e : EntryMeta} (hlookup : s.lru.lookup key = some e) :
    s.place key = some e.element := by
  rw [place, hlookup, Option.map_some]

/-- The sum of the sizes of the entries. -/
def entrySizes (s : LruShard K) : Int64 := Map.sum (fun _ e => e.size) s.lru

/-- What the calls of a shard keep, with the numbers of the last uses of its keys. -/
structure Consistent (last : K → Nat) (s : LruShard K) : Prop where
  /-- The list belongs to the map and is in the order of the last uses. -/
  ordered : Recency.Ordered last s.place s.lruList
  fresh : ∀ x ∈ s.lruList, x.1 < s.nextElement
  size_eq : s.size = s.entrySizes

theorem consistent_new (last : K → Nat) : (new : LruShard K).Consistent last :=
  ⟨Recency.ordered_nil fun _ => rfl, by simp [new], by simp [new, entrySizes]⟩

namespace Consistent

variable {last : K → Nat} {s : LruShard K}

theorem fresh_moveToFront (hs : s.Consistent last) (e : Element) :
    ∀ x ∈ moveToFront s.lruList e, x.1 < s.nextElement := by
  intro x hx
  refine hs.fresh x ?_
  rcases List.mem_append.mp hx with hx | hx
  · exact List.mem_of_mem_filter hx
  · exact List.mem_of_mem_filter hx

theorem put (hs : s.Consistent last) {time : Nat} (htime : ∀ k, last k < time) (now : Int)
    (key : K) (size : Int64) (expiresAt : Option Int) :
    (s.put now key size expiresAt).2.Consistent (update last key time) := by
  unfold LruShard.put
  cases hlookup : s.lru.lookup key with
  | some e =>
    refine ⟨?_, hs.fresh_moveToFront _, ?_⟩
    · refine (hs.ordered.moveToFront (place_eq hlookup) htime).congr (fun k => ?_) fun _ _ _ => rfl
      by_cases hk : k = key
      · subst hk
        rw [place_eq hlookup]
        simp [place]
      · simp [place, AList.lookup_insert_ne hk]
    · dsimp only [entrySizes]
      rw [Map.sum_insert, hlookup, hs.size_eq, entrySizes]
      exact (add_sub_assoc ..).symm.trans (sub_add_eq_add_sub ..).symm
  | none =>
    have hnew : s.place key = none := by rw [place, hlookup, Option.map_none]
    refine ⟨hs.ordered.push hnew (fun x hx => Nat.ne_of_lt (hs.fresh x hx)) htime ?_ ?_, ?_, ?_⟩
    · simp [place]
    · intro k hk
      simp [place, AList.lookup_insert_ne hk]
    · intro x hx
      rcases List.mem_cons.mp hx with rfl | hx
      · exact Nat.lt_succ_self _
      · exact Nat.lt_succ_of_lt (hs.fresh x hx)
    · dsimp only [entrySizes]
      rw [Map.sum_insert, hlookup, hs.size_eq, entrySizes]
      exact congrArg (· + size) (sub_zero _).symm

/-- A get uses its key; a key without an entry has no place in the list. -/
theorem get (hs : s.Consistent last) {time : Nat} (htime : ∀ k, last k < time) (key : K) :
    (s.get key).2.Consistent (update last key time) := by
  unfold LruShard.get
  cases hlookup : s.lru.lookup key with
  | some e =>
    exact ⟨hs.ordered.moveToFront (place_eq hlookup) htime, hs.fresh_moveToFront _, hs.size_eq⟩
  | none =>
    refine ⟨hs.ordered.congr (fun _ => rfl) fun k e hk => update_of_ne ?_ .., hs.fresh,
      hs.size_eq⟩
    rintro rfl
    rw [place, hlookup] at hk
    cases hk

theorem drop (hs : s.Consistent last) {key : K} {e : EntryMeta}
    (hlookup : s.lru.lookup key = some e) : (s.drop key e).Consistent last := by
  refine ⟨hs.ordered.erase (place_eq hlookup) ?_ ?_, ?_, ?_⟩
  · simp [place, LruShard.drop]
  · intro k hk
    simp [place, LruShard.drop, AList.lookup_erase_ne hk]
  · exact fun x hx => hs.fresh x (List.mem_of_mem_filter hx)
  · dsimp only [LruShard.drop, entrySizes]
    rw [Map.sum_erase, hlookup, hs.size_eq, entrySizes]
    rfl

theorem remove (hs : s.Consistent last) (key : K) : (s.remove key).2.Consistent last := by
  unfold LruShard.remove
  cases hlookup : s.lru.lookup key with
  | some e => exact hs.drop hlookup
  | none => exact hs

theorem lookup_back (hs : s.Consistent last) {element : Element} {key : K}
    (hback : s.lruList.getLast? = some (element, key)) :
    ∃ e, s.lru.lookup key = some e ∧ e.element = element := by
  have hplace := (hs.ordered.mem_iff (element, key)).mp (List.mem_of_getLast? hback)
  exact Option.map_eq_some_iff.mp hplace

theorem evict_back (hs : s.Consistent last) {element : Element} {key : K}
    (hback : s.lruList.getLast? = some (element, key)) :
    ∃ e, s.lru.lookup key = some e ∧ s.evict = some (some (key, e.size), s.drop key e) := by
  obtain ⟨e, hlookup, rfl⟩ := hs.lookup_back hback
  refine ⟨e, hlookup, ?_⟩
  simp only [LruShard.evict, hback, hlookup, Option.map_some, LruShard.drop]

/-- The loop over different keys that have entries goes through. -/
theorem dropEach (hs : s.Consistent last) {keys : List K} (hnodup : keys.Nodup)
    (hmem : ∀ key ∈ keys, key ∈ s.lru) :
    ∃ t, s.dropEach keys = some t ∧ t.Consistent last := by
  induction keys generalizing s with
  | nil => exact ⟨s, rfl, hs⟩
  | cons key keys ih =>
    obtain ⟨hnotMem, hrest⟩ := List.nodup_cons.mp hnodup
    obtain ⟨e, hlookup⟩ :=
      Option.isSome_iff_exists.mp (AList.lookup_isSome.mpr (hmem key List.mem_cons_self))
    obtain ⟨t, ht, hcons⟩ := ih (hs.drop hlookup) hrest fun k hk => by
      have hne : k ≠ key := fun heq => hnotMem (heq ▸ hk)
      exact AList.mem_erase.mpr ⟨hne, hmem k (List.mem_cons_of_mem key hk)⟩
    refine ⟨t, ?_, hcons⟩
    rw [LruShard.dropEach, hlookup, Option.bind_some, ht]

/-- The loop over keys that were collected from the map goes through. -/
theorem dropEach_collected (hs : s.Consistent last) (range : RangeOrder K) (p : K → Bool) :
    ∃ t, s.dropEach ((range.visits s.lru.keys).filter p) = some t ∧ t.Consistent last := by
  have hperm := range.perm s.lru.keys
  refine hs.dropEach ((hperm.nodup_iff.mpr s.lru.keys_nodup).filter p) fun key hkey => ?_
  exact AList.mem_keys.mpr (hperm.mem_iff.mp (List.mem_of_mem_filter hkey))

/-- A call dereferences no missing entry, and the shard stays consistent. -/
theorem step {calls : List (Call K)} (hs : s.Consistent (lastUse calls)) (c : Call K) :
    ∃ t, s.step c = some t ∧ t.Consistent (lastUse (calls ++ [c])) := by
  cases c with
  | put now key size expiresAt =>
    refine ⟨_, rfl, ?_⟩
    rw [lastUse_concat_of_used calls key rfl]
    exact hs.put (lastUse_lt calls) now key size expiresAt
  | get key =>
    refine ⟨_, rfl, ?_⟩
    rw [lastUse_concat_of_used calls key rfl]
    exact hs.get (lastUse_lt calls) key
  | remove key =>
    refine ⟨_, rfl, ?_⟩
    rw [lastUse_concat_of_unused calls rfl]
    exact hs.remove key
  | evict =>
    rw [lastUse_concat_of_unused calls rfl]
    cases hback : s.lruList.getLast? with
    | none => exact ⟨s, by simp [LruShard.step, LruShard.evict, hback], hs⟩
    | some x =>
      obtain ⟨e, hlookup, hevict⟩ := hs.evict_back hback
      exact ⟨_, by rw [LruShard.step, hevict, Option.map_some], hs.drop hlookup⟩
  | findExpired now range =>
    rw [lastUse_concat_of_unused calls rfl]
    obtain ⟨t, ht, hcons⟩ := hs.dropEach_collected range (s.expired now)
    exact ⟨t, by simp [LruShard.step, LruShard.findExpired, ht], hcons⟩
  | purge selects range =>
    rw [lastUse_concat_of_unused calls rfl]
    obtain ⟨t, ht, hcons⟩ := hs.dropEach_collected range selects
    exact ⟨t, by simp [LruShard.step, LruShard.purge, ht], hcons⟩
  | purgeAll =>
    refine ⟨_, rfl, Recency.ordered_nil fun _ => rfl, ?_, ?_⟩
    · simp [LruShard.purgeAll]
    · simp [LruShard.purgeAll, entrySizes]

end Consistent

/-- Every sequence of calls goes through and leaves a consistent shard. -/
theorem consistent_of_calls (calls : List (Call K)) :
    ∃ s, Runs.exec LruShard.step new calls = some s ∧ s.Consistent (lastUse calls) := by
  induction calls using List.reverseRecOn with
  | nil => exact ⟨new, rfl, consistent_new _⟩
  | append_singleton calls c ih =>
    obtain ⟨s, hexec, hs⟩ := ih
    obtain ⟨t, hstep, ht⟩ := hs.step c
    refine ⟨t, ?_, ht⟩
    rw [Runs.exec_append, hexec, Option.bind_some, Runs.exec, hstep]
    rfl

/-- The map, the list and the size of a shard represent one set of keys, with the numbers of
their last uses. -/
structure Represents (last : K → Nat) (s : LruShard K) : Prop where
  keys : ∀ key, key ∈ s.lru ↔ key ∈ s.lruList.map Prod.snd
  once : (s.lruList.map Prod.snd).Nodup
  /-- The element of an entry is in the list once, and holds the key of the entry. -/
  elements : ∀ key e, s.lru.lookup key = some e →
    s.lruList.filter (fun x => x.1 = e.element) = [(e.element, key)]
  size : s.size = s.entrySizes
  /-- A key in front of another one was put or got later. -/
  order : s.lruList.Pairwise fun x y => last y.2 < last x.2
  /-- An eviction from an empty list returns nothing. -/
  evict_nil : s.lruList = [] → s.evict = some (none, s)
  /-- An eviction returns the last key with its size, and takes out its entry. -/
  evict_back : ∀ element key, s.lruList.getLast? = some (element, key) →
    ∃ e, s.lru.lookup key = some e ∧ s.evict = some (some (key, e.size), s.drop key e)

theorem Consistent.represents {last : K → Nat} {s : LruShard K} (hs : s.Consistent last) :
    s.Represents last where
  keys key := by
    rw [← AList.lookup_isSome, Option.isSome_iff_exists, List.mem_map]
    constructor
    · rintro ⟨e, hlookup⟩
      exact ⟨(e.element, key), (hs.ordered.mem_iff _).mpr (place_eq hlookup), rfl⟩
    · rintro ⟨x, hx, rfl⟩
      obtain ⟨e, hlookup, -⟩ := Option.map_eq_some_iff.mp ((hs.ordered.mem_iff x).mp hx)
      exact ⟨e, hlookup⟩
  once := hs.ordered.nodup_keys
  elements _ _ hlookup := hs.ordered.filter_self (place_eq hlookup)
  size := hs.size_eq
  order := hs.ordered.sorted
  evict_nil hnil := by simp [LruShard.evict, hnil]
  evict_back _ _ hback := hs.evict_back hback

/-- No sequence of calls on a new shard dereferences a missing entry, and after it the map, the
list and the size represent the same keys, the last used one in front. -/
theorem represents_of_calls (calls : List (Call K)) :
    ∃ s, Runs.exec LruShard.step new calls = some s ∧ s.Represents (lastUse calls) := by
  obtain ⟨s, hexec, hs⟩ := consistent_of_calls calls
  exact ⟨s, hexec, hs.represents⟩

end LruShard

end Representation

namespace LruShard

/-- `remove` in one equation: a key without an entry has no element and no size. -/
theorem remove_eq (s : LruShard) (key : Key) :
    (s.remove key).2 = ⟨s.lru.erase key, s.lruList.filter fun x => s.place key ≠ some x.1,
      s.nextElement, s.size - s.sizeOf key⟩ := by
  cases hlookup : s.lru.lookup key with
  | some e =>
    simp only [remove, hlookup, place, drop, removeElement, Option.map_some, ne_eq,
      Option.some.injEq, sizeOf, weight, Option.elim_some, eq_comm]
  | none =>
    rw [← s.remove_lru key, ← s.remove_size key]
    simp [remove, place, hlookup]

theorem remove_comm (s : LruShard) (a b : Key) :
    ((s.remove a).2.remove b).2 = ((s.remove b).2.remove a).2 := by
  by_cases hab : a = b
  · rw [hab]
  · have hb : (s.lru.erase a).lookup b = s.lru.lookup b := AList.lookup_erase_ne (Ne.symm hab)
    have ha : (s.lru.erase b).lookup a = s.lru.lookup a := AList.lookup_erase_ne hab
    simp only [remove_eq, place, sizeOf, weight, hb, ha, LruShard.mk.injEq]
    refine ⟨AList.erase_erase .., ?_, trivial, by omega⟩
    rw [List.filter_filter, List.filter_filter]
    exact List.filter_congr fun x _ => Bool.and_comm ..

theorem dropAll_perm (s : LruShard) {keys keys' : List Key} (hperm : keys.Perm keys') :
    s.dropAll keys = s.dropAll keys' :=
  hperm.foldl_eq' (fun a _ b _ s => s.remove_comm a b) s

end LruShard

namespace Representation

/-- An entry with a size that wraps. -/
def EntryMeta.ofExact (e : Cache.EntryMeta) : EntryMeta :=
  ⟨.ofInt e.size, e.lastUsed, e.expiresAt, e.element⟩

/-- What a call does to the shard of `Cache.Shard`. -/
def exactStep (s : Cache.LruShard) : Call Key → Cache.LruShard
  | .put now key size expiresAt => (s.put now key size.toInt expiresAt).2
  | .get key => (s.get key).2
  | .remove key => (s.remove key).2
  | .evict => s.evict.2
  | .findExpired now _ => (s.findExpired now).2.2
  | .purge selects _ => s.dropAll (s.lru.keys.filter selects)
  | .purgeAll => { s with lru := ∅, lruList := [], size := 0 }

/-- The second shard is the first one with sizes that wrap. -/
structure Wraps (s : Cache.LruShard) (t : LruShard Key) : Prop where
  lookup : ∀ key, t.lru.lookup key = (s.lru.lookup key).map EntryMeta.ofExact
  lruList : t.lruList = s.lruList
  nextElement : t.nextElement = s.nextElement
  size : t.size = .ofInt s.size

namespace Wraps

variable {s : Cache.LruShard} {t t' : LruShard Key}

theorem lookup_some (h : Wraps s t) {key : Key} {e : Cache.EntryMeta}
    (hlookup : s.lru.lookup key = some e) : t.lru.lookup key = some (.ofExact e) := by
  rw [h.lookup, hlookup, Option.map_some]

theorem mem_keys (h : Wraps s t) (key : Key) : key ∈ t.lru.keys ↔ key ∈ s.lru.keys := by
  rw [← AList.mem_keys, ← AList.mem_keys, ← AList.lookup_isSome, ← AList.lookup_isSome, h.lookup,
    Option.isSome_map]

theorem lookup_insert (h : Wraps s t) (key : Key) (e : Cache.EntryMeta) (k : Key) :
    (t.lru.insert key (.ofExact e)).lookup k =
      ((s.lru.insert key e).lookup k).map EntryMeta.ofExact := by
  by_cases hk : k = key
  · subst hk
    rw [AList.lookup_insert, AList.lookup_insert, Option.map_some]
  · rw [AList.lookup_insert_ne hk, AList.lookup_insert_ne hk, h.lookup]

theorem drop (h : Wraps s t) (key : Key) (e : Cache.EntryMeta) :
    Wraps (s.drop key e) (t.drop key (.ofExact e)) := by
  refine ⟨fun k => ?_, ?_, h.nextElement, ?_⟩
  · dsimp only [LruShard.drop, Cache.LruShard.drop]
    by_cases hk : k = key
    · subst hk
      rw [AList.lookup_erase, AList.lookup_erase, Option.map_none]
    · rw [AList.lookup_erase_ne hk, AList.lookup_erase_ne hk, h.lookup]
  · dsimp only [LruShard.drop]
    rw [h.lruList]
    rfl
  · dsimp only [LruShard.drop, Cache.LruShard.drop]
    rw [h.size, Int64.ofInt_sub]
    rfl

theorem put (h : Wraps s t) (now : Int) (key : Key) (size : Int64) (expiresAt : Option Int) :
    Wraps (s.put now key size.toInt expiresAt).2 (t.put now key size expiresAt).2 := by
  cases hlookup : s.lru.lookup key with
  | some e =>
    simp only [Cache.LruShard.put, LruShard.put, hlookup, h.lookup_some hlookup]
    refine ⟨?_, ?_, h.nextElement, ?_⟩
    · have hinsert := h.lookup_insert key ⟨size.toInt, now, expiresAt, e.element⟩
      rwa [EntryMeta.ofExact, Int64.ofInt_toInt] at hinsert
    · rw [h.lruList]
      rfl
    · rw [h.size, Int64.ofInt_add, Int64.ofInt_sub, Int64.ofInt_toInt]
      rfl
  | none =>
    have hnone : t.lru.lookup key = none := by rw [h.lookup, hlookup, Option.map_none]
    simp only [Cache.LruShard.put, LruShard.put, hlookup, hnone]
    refine ⟨?_, ?_, ?_, ?_⟩
    · have hinsert := h.lookup_insert key ⟨size.toInt, now, expiresAt, s.nextElement⟩
      rw [EntryMeta.ofExact, Int64.ofInt_toInt] at hinsert
      simpa only [h.nextElement] using hinsert
    · rw [h.lruList, h.nextElement]
    · rw [h.nextElement]
    · rw [h.size, Int64.ofInt_add, Int64.ofInt_toInt]

theorem get (h : Wraps s t) (key : Key) : Wraps (s.get key).2 (t.get key).2 := by
  cases hlookup : s.lru.lookup key with
  | some e =>
    simp only [Cache.LruShard.get, LruShard.get, hlookup, h.lookup_some hlookup]
    exact ⟨h.lookup, by rw [h.lruList]; rfl, h.nextElement, h.size⟩
  | none =>
    simp only [Cache.LruShard.get, LruShard.get, hlookup, h.lookup, Option.map_none]
    exact h

theorem remove (h : Wraps s t) (key : Key) : Wraps (s.remove key).2 (t.remove key).2 := by
  cases hlookup : s.lru.lookup key with
  | some e =>
    simp only [Cache.LruShard.remove, LruShard.remove, hlookup, h.lookup_some hlookup]
    exact h.drop key e
  | none =>
    simp only [Cache.LruShard.remove, LruShard.remove, hlookup, h.lookup, Option.map_none]
    exact h

theorem evict (h : Wraps s t) {r : Option (Key × Int64)} (hevict : t.evict = some (r, t')) :
    Wraps s.evict.2 t' := by
  rw [LruShard.evict, h.lruList] at hevict
  cases hback : s.lruList.getLast? with
  | none =>
    simp only [hback, Option.some.injEq, Prod.mk.injEq] at hevict
    obtain ⟨-, rfl⟩ := hevict
    simpa only [Cache.LruShard.evict, hback] using h
  | some x =>
    obtain ⟨element, key⟩ := x
    simp only [hback, Option.map_eq_some_iff, Prod.mk.injEq] at hevict
    obtain ⟨e', hlookup', -, rfl⟩ := hevict
    rw [h.lookup] at hlookup'
    obtain ⟨e, hlookup, rfl⟩ := Option.map_eq_some_iff.mp hlookup'
    simp only [Cache.LruShard.evict, hback, hlookup]
    -- The list loses the element at its back; that of the entry does not matter.
    have hdrop := h.drop key e
    exact ⟨hdrop.lookup, rfl, h.nextElement, hdrop.size⟩

/-- A loop over collected keys that goes through. -/
theorem dropEach (h : Wraps s t) {keys : List Key} (hdrop : t.dropEach keys = some t') :
    Wraps (s.dropAll keys) t' := by
  induction keys generalizing s t with
  | nil =>
    cases hdrop
    exact h
  | cons key keys ih =>
    obtain ⟨e, hlookup, hrest⟩ := Option.bind_eq_some_iff.mp hdrop
    refine ih ?_ hrest
    have hremove := h.remove key
    rwa [LruShard.remove, hlookup] at hremove

theorem collected (h : Wraps s t) (range : RangeOrder Key) {p : Key → Bool} {keys : List Key}
    (hnodup : keys.Nodup) (hkeys : ∀ key, key ∈ keys ↔ key ∈ s.lru.keys ∧ p key = true) :
    ((range.visits t.lru.keys).filter p).Perm keys := by
  have hperm := range.perm t.lru.keys
  refine (List.perm_ext_iff_of_nodup ((hperm.nodup_iff.mpr t.lru.keys_nodup).filter p)
    hnodup).mpr fun key => ?_
  rw [List.mem_filter, hperm.mem_iff, h.mem_keys, hkeys]

theorem expired_iff (h : Wraps s t) (now : Int) (key : Key) :
    t.expired now key = true ↔ ∃ e, s.lru.lookup key = some e ∧ e.expired now = true := by
  rw [LruShard.expired, h.lookup, Option.any_map, Option.any_eq_true]
  rfl

theorem step (h : Wraps s t) {c : Call Key} (hstep : t.step c = some t') :
    Wraps (exactStep s c) t' := by
  cases c with
  | put now key size expiresAt =>
    cases hstep
    exact h.put now key size expiresAt
  | get key =>
    cases hstep
    exact h.get key
  | remove key =>
    cases hstep
    exact h.remove key
  | evict =>
    obtain ⟨⟨r, t'⟩, hevict, rfl⟩ := Option.map_eq_some_iff.mp hstep
    exact h.evict hevict
  | findExpired now range =>
    obtain ⟨r, hfind, rfl⟩ := Option.map_eq_some_iff.mp hstep
    obtain ⟨t', hdrop, rfl⟩ := Option.map_eq_some_iff.mp hfind
    have hperm := h.collected range (s.findExpired_nodup now) (p := t.expired now) fun key => by
      rw [Cache.LruShard.mem_findExpired, h.expired_iff, iff_and_self]
      rintro ⟨e, hlookup, -⟩
      exact AList.mem_keys.mp (Map.mem_of_lookup hlookup)
    have hwraps := h.dropEach hdrop
    rwa [s.dropAll_perm hperm] at hwraps
  | purge selects range =>
    obtain ⟨r, hpurge, rfl⟩ := Option.map_eq_some_iff.mp hstep
    obtain ⟨t', hdrop, rfl⟩ := Option.map_eq_some_iff.mp hpurge
    have hperm := h.collected range (s.lru.keys_nodup.filter selects) (p := selects) fun key =>
      List.mem_filter
    have hwraps := h.dropEach hdrop
    rwa [s.dropAll_perm hperm] at hwraps
  | purgeAll =>
    cases hstep
    exact ⟨fun _ => rfl, rfl, h.nextElement, rfl⟩

end Wraps

/-- After any calls the shard of `Cache.Shard` differs from this one in the wrapping of the
sizes only. -/
theorem wraps_of_calls (calls : List (Call Key)) :
    ∃ t, Runs.exec LruShard.step .new calls = some t ∧ Wraps (calls.foldl exactStep .empty) t := by
  induction calls using List.reverseRecOn with
  | nil => exact ⟨.new, rfl, fun _ => rfl, rfl, rfl, rfl⟩
  | append_singleton calls c ih =>
    obtain ⟨t, hexec, hwraps⟩ := ih
    obtain ⟨u, hexec', -⟩ := LruShard.consistent_of_calls (calls ++ [c])
    refine ⟨u, hexec', ?_⟩
    rw [Runs.exec_append, hexec, Option.bind_some, Runs.exec] at hexec'
    obtain ⟨v, hstep, hv⟩ := Option.bind_eq_some_iff.mp hexec'
    cases hv
    rw [List.foldl_append]
    exact hwraps.step hstep

end Representation

end Peretum.Cache
