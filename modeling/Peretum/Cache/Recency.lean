import Peretum.Recency
import Peretum.Cache.Bound

/-!
# Which entry is evicted

Every shard keeps its keys in a recency list, and `evict` takes the back of the first
list that has one. This file follows the last use of every key through runs of reads
and writes. Inside a shard the lists are in the order of these uses, so the evicted key
is the oldest of its shard. It is the oldest of the whole cache exactly if that one is
in the first shard that has any key.
-/

namespace Peretum.Cache

open Go Function

namespace LruShard

/-- The element a shard remembers for a key. -/
def place (s : LruShard) (key : Key) : Option Element := (s.lru.lookup key).map EntryMeta.element

/-- The recency list of a shard belongs to its entries and to the last uses of the keys. -/
structure Recent (last : Key → Nat) (s : LruShard) : Prop where
  ordered : Recency.Ordered last s.place s.lruList
  fresh : ∀ x ∈ s.lruList, x.1 < s.nextElement

theorem recent_empty (last : Key → Nat) : LruShard.empty.Recent last :=
  ⟨Recency.ordered_nil fun _ => rfl, by simp [LruShard.empty]⟩

theorem mem_lru_of_place {s : LruShard} {key : Key} {e : Element} (hkey : s.place key = some e) :
    key ∈ s.lru := by
  obtain ⟨entry, hlookup, -⟩ := Option.map_eq_some_iff.mp hkey
  exact Map.mem_of_lookup hlookup

namespace Recent

variable {last : Key → Nat} {s : LruShard}

theorem congr {last' : Key → Nat} (hs : s.Recent last) (hlast : ∀ k ∈ s.lru, last' k = last k) :
    s.Recent last' :=
  ⟨hs.ordered.congr (fun _ => rfl) fun k _ hk => hlast k (mem_lru_of_place hk), hs.fresh⟩

theorem put (hs : s.Recent last) {time : Nat} (htime : ∀ k, last k < time) (now : Int) (key : Key)
    (size : Int) (expiresAt : Option Int) :
    (s.put now key size expiresAt).2.Recent (update last key time) := by
  unfold LruShard.put
  cases hlookup : s.lru.lookup key with
  | some e =>
    have hkey : s.place key = some e.element := by simp [place, hlookup]
    refine ⟨(hs.ordered.moveToFront hkey htime).congr (fun k => ?_) fun _ _ _ => rfl, ?_⟩
    · by_cases hk : k = key
      · subst hk
        rw [hkey]
        simp [place]
      · simp [place, AList.lookup_insert_ne hk]
    · intro x hx
      refine hs.fresh x ?_
      rcases List.mem_append.mp hx with hx | hx
      · exact List.mem_of_mem_filter hx
      · exact List.mem_of_mem_filter hx
  | none =>
    have hnew : s.place key = none := by simp [place, hlookup]
    refine ⟨hs.ordered.push hnew (fun x hx => Nat.ne_of_lt (hs.fresh x hx)) htime ?_ ?_, ?_⟩
    · simp [place]
    · intro k hk
      simp [place, AList.lookup_insert_ne hk]
    · intro x hx
      rcases List.mem_cons.mp hx with rfl | hx
      · exact Nat.lt_succ_self _
      · exact Nat.lt_succ_of_lt (hs.fresh x hx)

theorem drop (hs : s.Recent last) {key : Key} {e : EntryMeta}
    (hlookup : s.lru.lookup key = some e) : (s.drop key e).Recent last := by
  have hkey : s.place key = some e.element := by simp [place, hlookup]
  refine ⟨hs.ordered.erase hkey ?_ ?_, fun x hx => hs.fresh x (List.mem_of_mem_filter hx)⟩
  · simp [place, LruShard.drop]
  · intro k hk
    simp [place, LruShard.drop, AList.lookup_erase_ne hk]

theorem remove (hs : s.Recent last) (key : Key) : (s.remove key).2.Recent last := by
  unfold LruShard.remove
  cases hlookup : s.lru.lookup key with
  | some e => exact hs.drop hlookup
  | none => exact hs

/-- An eviction drops the tracked key whose last use is the oldest, if there is one. -/
theorem evict_cases (hs : s.Recent last) :
    (s.evict = (none, s) ∧ ∀ key, key ∉ s.lru) ∨
      ∃ key e, s.lru.lookup key = some e ∧ s.evict = (some (key, e.size), s.drop key e) ∧
        ∀ k ∈ s.lru, last key ≤ last k := by
  have hplace : ∀ k ∈ s.lru, ∃ e, s.place k = some e := by
    intro k hk
    obtain ⟨e, he⟩ := Option.isSome_iff_exists.mp (AList.lookup_isSome.mpr hk)
    exact ⟨e.element, by simp [place, he]⟩
  unfold LruShard.evict
  cases hback : s.lruList.getLast? with
  | none =>
    refine .inl ⟨rfl, fun key hmem => ?_⟩
    obtain ⟨e, he⟩ := hplace key hmem
    have hlist := (hs.ordered.mem_iff (e, key)).mpr he
    rw [List.getLast?_eq_none_iff.mp hback] at hlist
    cases hlist
  | some x =>
    obtain ⟨element, key⟩ := x
    have hkey := (hs.ordered.mem_iff (element, key)).mp (List.mem_of_getLast? hback)
    obtain ⟨e, hlookup, rfl⟩ := Option.map_eq_some_iff.mp hkey
    refine .inr ⟨key, e, hlookup, by simp [hlookup, LruShard.drop], fun k hk => ?_⟩
    obtain ⟨e', he'⟩ := hplace k hk
    exact hs.ordered.oldest hback he'

end Recent

end LruShard

namespace DiskCache

/-- The recency lists of all shards belong to their entries and to the last uses of the
keys. -/
structure Recent (last : Key → Nat) (d : DiskCache) : Prop where
  /-- Every tracked key is in its own shard. -/
  placed : d.Placed
  shards : ∀ i, (d.shards i).Recent last

theorem recent_new (last : Key → Nat) (disk : Disk) (maxSize maxAge : Int) :
    (DiskCache.new disk maxSize maxAge).Recent last := by
  refine ⟨fun i key hmem => ?_, fun i => LruShard.recent_empty last⟩
  cases hmem

namespace Recent

variable {last : Key → Nat} {d d' : DiskCache}

theorem of_shards (hd : d.Recent last) (hshards : d'.shards = d.shards) : d'.Recent last := by
  constructor
  · intro i key
    rw [hshards]
    exact hd.placed i key
  · intro i
    rw [hshards]
    exact hd.shards i

theorem touch (hd : d.Recent last) {time : Nat} (htime : ∀ k, last k < time) (now : Int)
    (key : Key) (size : Int) :
    (d.touch now key size).Recent (update last key time) := by
  refine ⟨(touch_sameOthers hd.placed now key size).placed, fun i => ?_⟩
  by_cases hi : i = shardIndex key
  · subst hi
    simp only [DiskCache.touch, setShard, update_self]
    exact (hd.shards (shardIndex key)).put htime ..
  · simp only [DiskCache.touch, setShard, update_of_ne hi]
    -- The key is not in this shard, so none of its keys is used.
    refine (hd.shards i).congr fun k hk => update_of_ne ?_ ..
    rintro rfl
    exact hi (hd.placed i k hk).symm

theorem of_erase (hd : d.Recent last) {key : Key} {s : LruShard}
    (hshards : d'.shards = (d.setShard (shardIndex key) s).shards)
    (hlru : s.lru = (d.shard key).lru.erase key) (hs : s.Recent last) : d'.Recent last := by
  refine ⟨(SameOthers.of_erase hd.placed hshards hlru).placed, fun i => ?_⟩
  rw [hshards]
  by_cases hi : i = shardIndex key
  · subst hi
    simpa only [setShard, update_self] using hs
  · simpa only [setShard, update_of_ne hi] using hd.shards i

theorem remove (hd : d.Recent last) (key : Key) : (d.remove key).Recent last := by
  refine hd.of_erase (s := ((d.shard key).remove key).2) ?_ ((d.shard key).remove_lru key)
    ((hd.shards _).remove key)
  rw [remove_eq]

/-- The loop of `evict` passes the shards without keys and drops the oldest key of the next
one. -/
theorem evictFrom_spec (hd : d.Recent last) {shards : List (Fin shardCount)}
    (hevict : d.evictFrom shards = some d') :
    ∃ passed i rest key e, shards = passed ++ i :: rest ∧
      (∀ j ∈ passed, ∀ k, k ∉ (d.shards j).lru) ∧ (d.shards i).lru.lookup key = some e ∧
      (∀ k ∈ (d.shards i).lru, last key ≤ last k) ∧
      d'.shards = (d.setShard i ((d.shards i).drop key e)).shards := by
  induction shards with
  | nil => cases hevict
  | cons i rest ih =>
    rw [evictFrom] at hevict
    rcases (hd.shards i).evict_cases with ⟨hnone, hempty⟩ | ⟨key, e, hlookup, hsome, holdest⟩
    · rw [hnone] at hevict
      obtain ⟨passed, i', rest', key, e, rfl, hpassed, hrest⟩ := ih hevict
      refine ⟨i :: passed, i', rest', key, e, rfl, fun j hj => ?_, hrest⟩
      rcases List.mem_cons.mp hj with rfl | hj
      · exact hempty
      · exact hpassed j hj
    · rw [hsome] at hevict
      cases hevict
      exact ⟨[], i, rest, key, e, rfl, by simp, hlookup, holdest, rfl⟩

/-- An eviction drops the oldest key of the first shard that has one. -/
theorem evict_spec (hd : d.Recent last) (hevict : d.evict = some d') :
    ∃ key e, (d.shard key).lru.lookup key = some e ∧
      (∀ j < shardIndex key, ∀ k, k ∉ (d.shards j).lru) ∧
      (∀ k ∈ (d.shard key).lru, last key ≤ last k) ∧
      d'.shards = (d.setShard (shardIndex key) ((d.shard key).drop key e)).shards := by
  obtain ⟨passed, i, rest, key, e, hsplit, hpassed, hlookup, holdest, hshards⟩ :=
    hd.evictFrom_spec hevict
  obtain rfl := hd.placed i key (Map.mem_of_lookup hlookup)
  refine ⟨key, e, hlookup, fun j hj => hpassed j ?_, holdest, hshards⟩
  -- The shards are tried in order, so a smaller one was passed.
  have hsorted := List.pairwise_lt_finRange shardCount
  rw [hsplit, List.pairwise_append, List.pairwise_cons] at hsorted
  have hmem : j ∈ passed ++ shardIndex key :: rest := hsplit ▸ List.mem_finRange j
  rcases List.mem_append.mp hmem with hin | hnext
  · exact hin
  · rcases List.mem_cons.mp hnext with rfl | hlater
    · exact absurd hj (lt_irrefl _)
    · exact absurd (hsorted.2.1.1 j hlater) (lt_asymm hj)

theorem evict (hd : d.Recent last) (hevict : d.evict = some d') : d'.Recent last := by
  obtain ⟨key, e, hlookup, -, -, hshards⟩ := hd.evict_spec hevict
  exact hd.of_erase hshards rfl ((hd.shards _).drop hlookup)

theorem ensureSpace (hd : d.Recent last) (size : Int) : (d.ensureSpace size).2.Recent last :=
  ensureSpace_invariant (fun _ _ hd hevict => hd.evict hevict) hd size

end Recent

/-- The evictions of `ensureSpace`, as many as it counts: the cache before and after each
round of its loop. -/
def evictions (d : DiskCache) (size : Int) : List (DiskCache × DiskCache) :=
  (List.range ((d.ensureSpace size).2.stats.evictions - d.stats.evictions)).map fun round =>
    ((ensureSpaceLoop round d size).2, (ensureSpaceLoop (round + 1) d size).2)

/-- A loop that counts an eviction begins with one. -/
theorem exists_evict_of_counted {fuel : Nat} {d : DiskCache} {size : Int}
    (hcount : d.stats.evictions < (ensureSpaceLoop fuel d size).2.stats.evictions) :
    ∃ fuel' d', fuel = fuel' + 1 ∧ d.evict = some d' ∧
      ∀ more, ensureSpaceLoop (more + 1) d size = ensureSpaceLoop more d' size := by
  cases fuel with
  | zero => exact absurd hcount (Nat.lt_irrefl _)
  | succ fuel =>
    unfold ensureSpaceLoop at hcount
    split at hcount
    · next hover =>
      cases hevict : d.evict with
      | none => simp [hevict] at hcount
      | some d' => exact ⟨fuel, d', rfl, rfl, fun more => by simp [ensureSpaceLoop, hover, hevict]⟩
    · exact absurd hcount (Nat.lt_irrefl _)

/-- Every counted round of the loop is one eviction. -/
theorem evict_ensureSpaceLoop {round fuel : Nat} {d : DiskCache} {size : Int}
    (hround : d.stats.evictions + round < (ensureSpaceLoop fuel d size).2.stats.evictions) :
    (ensureSpaceLoop round d size).2.evict = some (ensureSpaceLoop (round + 1) d size).2 := by
  induction round generalizing d fuel with
  | zero =>
    obtain ⟨-, d', -, hevict, hloop⟩ := exists_evict_of_counted hround
    rw [hloop]
    exact hevict
  | succ round ih =>
    obtain ⟨fuel, d', rfl, hevict, hloop⟩ :=
      exists_evict_of_counted (Nat.lt_of_le_of_lt (Nat.le_add_right ..) hround)
    obtain ⟨i, s, key, e, -, -, -, -, hd'⟩ := DiskCache.evict_spec hevict
    have hcount : d'.stats.evictions = d.stats.evictions + 1 := by rw [hd']
    rw [hloop, hloop]
    rw [hloop, ← Nat.add_assoc, Nat.add_right_comm, ← hcount] at hround
    exact ih hround

theorem mem_evictions {d : DiskCache} {size : Int} {p : DiskCache × DiskCache}
    (hp : p ∈ d.evictions size) :
    ∃ round, p.1 = (ensureSpaceLoop round d size).2 ∧ p.1.evict = some p.2 := by
  obtain ⟨round, hround, rfl⟩ := List.mem_map.mp hp
  refine ⟨round, rfl, ?_⟩
  rw [List.mem_range, ensureSpace] at hround
  split at hround
  · exact absurd hround (by simp)
  · exact evict_ensureSpaceLoop (Nat.add_lt_of_lt_sub' hround)

instance (d : DiskCache) (key : Key) : Decidable (d.Tracks key) :=
  inferInstanceAs (Decidable (∃ i, key ∈ (d.shards i).lru))

/-- The key a cache has lost is one whose last use is the oldest of all tracked keys. -/
def LosesOldest (last : Key → Nat) (d d' : DiskCache) : Prop :=
  ∀ key, d.Tracks key → ¬ d'.Tracks key → ∀ k, d.Tracks k → last key ≤ last k

/-- A tracked key whose last use is the oldest is in the first shard that has a key. -/
def OldestAhead (last : Key → Nat) (d : DiskCache) : Prop :=
  ∃ key, d.Tracks key ∧ (∀ k, d.Tracks k → last key ≤ last k) ∧
    ∀ j < shardIndex key, ∀ k, k ∉ (d.shards j).lru

theorem Placed.tracks_iff {d : DiskCache} (hplaced : d.Placed) (key : Key) :
    d.Tracks key ↔ key ∈ (d.shard key).lru := by
  refine ⟨fun ⟨i, hmem⟩ => ?_, fun hmem => ⟨_, hmem⟩⟩
  rw [shard, hplaced i key hmem]
  exact hmem

/-- An eviction drops the oldest key of all exactly if that is in the first shard that has
a key. -/
theorem Recent.losesOldest_iff {last : Key → Nat} {d d' : DiskCache} (hd : d.Recent last)
    (hevict : d.evict = some d') : LosesOldest last d d' ↔ d.OldestAhead last := by
  obtain ⟨victim, e, hlookup, hfirst, holdest, hshards⟩ := hd.evict_spec hevict
  have htracked : d.Tracks victim :=
    (hd.placed.tracks_iff victim).mpr (Map.mem_of_lookup hlookup)
  have hothers := SameOthers.of_erase (s := (d.shard victim).drop victim e) hd.placed hshards rfl
  have hlost : ∀ key, d.Tracks key → (¬ d'.Tracks key ↔ key = victim) := by
    intro key hkey
    constructor
    · intro hgone
      by_contra hne
      exact hgone ((hothers.tracks_iff hne).mpr hkey)
    · rintro rfl hstill
      rw [hothers.placed.tracks_iff, shard, hshards] at hstill
      simp [setShard, LruShard.drop] at hstill
  constructor
  · intro hloses
    exact ⟨victim, htracked, hloses victim htracked ((hlost victim htracked).mpr rfl), hfirst⟩
  · rintro ⟨key, hkey, hmin, hahead⟩ lost hlostTracked hgone k hk
    obtain rfl := (hlost lost hlostTracked).mp hgone
    -- Both keys are in the first shard that has one.
    have hshard : shardIndex key = shardIndex lost := by
      rcases lt_trichotomy (shardIndex key) (shardIndex lost) with hlt | heq | hgt
      · exact absurd ((hd.placed.tracks_iff key).mp hkey) (hfirst _ hlt key)
      · exact heq
      · exact absurd ((hd.placed.tracks_iff lost).mp hlostTracked) (hahead _ hgt lost)
    have hmem : key ∈ (d.shard lost).lru := by
      rw [shard, ← hshard]
      exact (hd.placed.tracks_iff key).mp hkey
    exact Nat.le_trans (holdest key hmem) (hmin k hk)

end DiskCache

/-- The evictions of a call. -/
def Access.evictions (d : DiskCache) : Access → List (DiskCache × DiskCache)
  | .set w => if DiskCache.storable w.statusCode w.body then d.evictions w.size else []
  | .stream _ _ _ _ => []

/-- The cache with the last use of every key: the number of the write that stored it or
of the hit that read it. -/
structure Used where
  cache : DiskCache
  uses : Nat
  last : Key → Nat

namespace Used

/-- A key is used. -/
def use (s : Used) (key : Key) (d : DiskCache) : Used :=
  ⟨d, s.uses + 1, update s.last key (s.uses + 1)⟩

/-- The state after a call. -/
def next (s : Used) : Access → Used
  | .set w =>
      let r := w.run s.cache
      if DiskCache.storable w.statusCode w.body && r.1.isOk then s.use w.key r.2
      else { s with cache := r.2 }
  | .stream now w key ttl =>
      let r := s.cache.streamCachedResponse now w key ttl
      if r.result.isOk then s.use key r.cache else { s with cache := r.cache }

/-- One call; every call can be made in every state. -/
def step (s : Used) (a : Access) : Option Used := some (s.next a)

/-- A new cache over a directory. -/
def init (disk : Disk) (maxSize maxAge : Int) : Used :=
  ⟨.new disk maxSize maxAge, 0, fun _ => 0⟩

/-- What every run keeps. -/
structure Ordered (s : Used) : Prop where
  /-- The lists are in the order of the last uses. -/
  recent : s.cache.Recent s.last
  bounded : ∀ key, s.last key ≤ s.uses

theorem Ordered.of_recent {s : Used} (hs : s.Ordered) {d : DiskCache} (hd : d.Recent s.last) :
    Ordered { s with cache := d } :=
  ⟨hd, hs.bounded⟩

theorem Ordered.touch {s : Used} (hs : s.Ordered) {d : DiskCache} (hd : d.Recent s.last)
    (now : Int) (key : Key) (size : Int) : (s.use key (d.touch now key size)).Ordered := by
  refine ⟨hd.touch (fun k => Nat.lt_succ_of_le (hs.bounded k)) now key size, fun k => ?_⟩
  simp only [use]
  by_cases hk : k = key
  · subst hk
    rw [update_self]
  · rw [update_of_ne hk]
    exact Nat.le_succ_of_le (hs.bounded k)

theorem Ordered.next {s : Used} (hs : s.Ordered) (a : Access) : (s.next a).Ordered := by
  cases a with
  | set w =>
    have hspace := hs.recent.ensureSpace w.size
    have hends := w.run_ends s.cache
    simp only [Used.next]
    generalize w.run s.cache = r at hends
    cases hends with
    | skipped hstorable =>
      simp only [hstorable, Bool.false_and, Bool.false_eq_true, if_false]
      exact hs
    | failed hok e =>
      rw [hok] at hspace
      simp only [Except.isOk, Except.toBool, Bool.and_false, Bool.false_eq_true, if_false]
      exact hs.of_recent hspace
    | withdrawn hok =>
      rw [hok] at hspace
      simp only [Except.isOk, Except.toBool, Bool.and_false, Bool.false_eq_true, if_false]
      exact hs.of_recent (hspace.of_shards rfl)
    | stored hstorable hok =>
      rw [hok] at hspace
      simp only [hstorable, Except.isOk, Except.toBool, Bool.and_self, if_true]
      exact hs.touch (d := w.writeFiles _) (hspace.of_shards rfl) ..
  | stream now w key ttl =>
    simp only [Used.next]
    rcases s.cache.streamCachedResponse_cases now w key ttl with
      ⟨⟨e, hresult⟩, hcache⟩ | ⟨⟨e, hresult⟩, hcache⟩ | ⟨info, m, -, -, hresult, hcache⟩
    · rw [hcache, hresult]
      exact hs
    · rw [hcache, hresult]
      refine hs.of_recent (DiskCache.Recent.remove ?_ key)
      exact hs.recent.of_shards rfl
    · rw [hcache, hresult]
      exact hs.touch hs.recent ..

theorem ordered_of_reaches {disk : Disk} {maxSize maxAge : Int} {s : Used}
    (hreach : Runs.Reaches step Runs.Unrestricted (init disk maxSize maxAge) s) : s.Ordered := by
  refine hreach.invariant (fun s a t hs _ hstep => ?_) ?_
  · cases hstep
    exact hs.next a
  · exact ⟨DiskCache.recent_new _ disk maxSize maxAge, fun _ => Nat.le_refl 0⟩

end Used

/-- In every run of reads and writes, an eviction drops the least recently used key of the
whole cache exactly if that one is in the first shard that has a key. -/
theorem losesOldest_iff_of_reaches {disk : Disk} {maxSize maxAge : Int} {s : Used}
    (hreach : Runs.Reaches Used.step Runs.Unrestricted (.init disk maxSize maxAge) s)
    {a : Access} {d d' : DiskCache} (hevicts : (d, d') ∈ a.evictions s.cache) :
    DiskCache.LosesOldest s.last d d' ↔ d.OldestAhead s.last := by
  have hrecent := (Used.ordered_of_reaches hreach).recent
  have hpair : d.Recent s.last ∧ d.evict = some d' := by
    cases a with
    | set w =>
      simp only [Access.evictions] at hevicts
      split at hevicts
      · obtain ⟨round, rfl, hevict⟩ := DiskCache.mem_evictions hevicts
        refine ⟨?_, hevict⟩
        exact DiskCache.ensureSpaceLoop_invariant (fun _ _ hd hevict => hd.evict hevict) hrecent ..
      · cases hevicts
    | stream now w key ttl => cases hevicts
  exact hpair.1.losesOldest_iff hpair.2

/-- The key of a hash whose first digit is a one and whose other digits are zeros. -/
def tenKey : Key := ⟨0x31 :: List.replicate 63 0x30, by decide, by decide⟩

def twosKey : Key := ⟨List.replicate 64 0x32, by decide, by decide⟩

/-- The write of a small response at a time. -/
def writeAt (now : Int) (key : Key) : Access := .set { plainWrite key [0x78] with now := now }

/-- The evictions of a write that follows two others. -/
def thirdEvictions (s : Used) : List (DiskCache × DiskCache) :=
  (writeAt 3 onesKey).evictions s.cache

def lastThenFirst : List Access := [writeAt 1 tenKey, writeAt 2 zeroKey]

/-- The next write evicts the key that was written last, as its shard comes first. -/
theorem lastThenFirst_loses_newest :
    ∃ s, Runs.Reaches Used.step Runs.Unrestricted (.init ∅ 40 0) s ∧
      ∃ p ∈ thirdEvictions s, (p.1.Tracks zeroKey ∧ ¬ p.2.Tracks zeroKey ∧ p.1.Tracks tenKey ∧
        s.last tenKey < s.last zeroKey) ∧ ¬ DiskCache.LosesOldest s.last p.1 p.2 := by
  have hallowed := Runs.admitted_unrestricted Used.step (.init ∅ 40 0) lastThenFirst
  have hlost : ∃ p ∈ thirdEvictions (lastThenFirst.foldl Used.next (.init ∅ 40 0)),
      p.1.Tracks zeroKey ∧ ¬ p.2.Tracks zeroKey ∧ p.1.Tracks tenKey ∧
        (lastThenFirst.foldl Used.next (.init ∅ 40 0)).last tenKey <
          (lastThenFirst.foldl Used.next (.init ∅ 40 0)).last zeroKey := by
    decide
  obtain ⟨p, hp, hfacts⟩ := hlost
  refine ⟨_, Runs.reaches_foldl hallowed, p, hp, hfacts, ?_⟩
  obtain ⟨hbefore, hafter, hother, hlt⟩ := hfacts
  exact fun hloses => absurd (hloses zeroKey hbefore hafter tenKey hother) (Nat.not_le_of_lt hlt)

def firstTwice : List Access := [writeAt 1 zeroKey, writeAt 2 twosKey]

/-- The next write evicts the key that was written first. -/
theorem firstTwice_loses_oldest :
    ∃ s, Runs.Reaches Used.step Runs.Unrestricted (.init ∅ 40 0) s ∧
      ∃ p ∈ thirdEvictions s, (p.1.Tracks zeroKey ∧ ¬ p.2.Tracks zeroKey) ∧
        DiskCache.LosesOldest s.last p.1 p.2 := by
  have hreach : Runs.Reaches Used.step Runs.Unrestricted (.init ∅ 40 0) _ :=
    Runs.reaches_foldl (Runs.admitted_unrestricted Used.step (.init ∅ 40 0) firstTwice)
  have hlost : ∃ p ∈ thirdEvictions (firstTwice.foldl Used.next (.init ∅ 40 0)),
      p.1.Tracks zeroKey ∧ ¬ p.2.Tracks zeroKey ∧
        ∀ k ∈ (List.finRange shardCount).flatMap fun i => (p.1.shards i).lru.keys,
          (firstTwice.foldl Used.next (.init ∅ 40 0)).last zeroKey ≤
            (firstTwice.foldl Used.next (.init ∅ 40 0)).last k := by
    decide
  obtain ⟨p, hp, hbefore, hafter, hmin⟩ := hlost
  refine ⟨_, hreach, p, hp, ⟨hbefore, hafter⟩, (losesOldest_iff_of_reaches hreach hp).mpr ?_⟩
  refine ⟨zeroKey, hbefore, fun k hk => hmin k (DiskCache.mem_purgeAll_keys.mpr hk), ?_⟩
  intro j hj
  have hzero : (DiskCache.shardIndex zeroKey).val = 0 := by decide
  exact absurd (hzero ▸ Fin.lt_def.mp hj) (Nat.not_lt_zero _)

end Peretum.Cache
