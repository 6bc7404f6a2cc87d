import Peretum.Cache.Recency

/-!
# What the sweep removes

The sweep forgets the entries whose expiry has passed and removes their files. The path
it builds for a body lacks the subdirectory, so the sidecar goes and the body stays.
This file says what the sweep leaves of the index, of the recency lists and of the
files, and compares that with a sweep of exactly the expired entries.
-/

namespace Peretum.Cache

open Go

namespace LruShard

/-- The keys `findExpired` returns are the tracked ones whose expiry has passed. -/
theorem mem_findExpired (s : LruShard) (now : Int) (key : Key) :
    key ∈ (s.findExpired now).1 ↔ ∃ e, s.lru.lookup key = some e ∧ e.expired now = true := by
  simp only [findExpired, List.mem_map, List.mem_filter]
  constructor
  · rintro ⟨⟨k, e⟩, ⟨hmem, hexpired⟩, rfl⟩
    exact ⟨e, AList.mem_lookup_iff.mpr hmem, hexpired⟩
  · rintro ⟨e, hlookup, hexpired⟩
    exact ⟨⟨key, e⟩, ⟨AList.mem_lookup_iff.mp hlookup, hexpired⟩, rfl⟩

/-- Dropping keys takes their places out of the recency list and leaves the others. -/
theorem Recent.lruList_dropAll {last : Key → Nat} {s : LruShard} (hs : s.Recent last)
    (keys : List Key) :
    (s.dropAll keys).lruList = s.lruList.filter fun x => !keys.contains x.2 := by
  induction keys generalizing s with
  | nil =>
    have hall : s.lruList.filter (fun x => !([] : List Key).contains x.2) = s.lruList :=
      List.filter_eq_self.mpr fun x _ => rfl
    rw [hall]
    rfl
  | cons key keys ih =>
    have hstep : (s.remove key).2.lruList = s.lruList.filter fun x => x.2 ≠ key := by
      unfold LruShard.remove
      cases hlookup : s.lru.lookup key with
      | some e =>
        have hplace : s.place key = some e.element := by simp [place, hlookup]
        exact hs.ordered.filter_eq hplace
      | none =>
        refine (List.filter_eq_self.mpr fun x hx => ?_).symm
        have hplace := (hs.ordered.mem_iff x).mp hx
        have hne : x.2 ≠ key := by
          intro hk
          rw [place, hk, hlookup] at hplace
          cases hplace
        simpa using hne
    have hrest : (s.dropAll (key :: keys)).lruList =
        (s.remove key).2.lruList.filter fun x => !keys.contains x.2 := ih (hs.remove key)
    rw [hrest, hstep, List.filter_filter]
    refine List.filter_congr fun x _ => ?_
    by_cases hk : x.2 = key
    · simp [hk]
    · simp [hk]

end LruShard

namespace DiskCache

/-- A tracked key whose expiry has passed when the sweep comes to its shard. -/
def Expired (d : DiskCache) (now : Fin shardCount → Int) (key : Key) : Prop :=
  ∃ i e, (d.shards i).lru.lookup key = some e ∧ e.expired (now i) = true

/-- The second cache is the first one without exactly its expired entries: their files and
what the index has of them are gone, and everything of any other key is as it was. -/
structure WithoutExpired (d : DiskCache) (now : Fin shardCount → Int) (d' : DiskCache) : Prop where
  removed : ∀ key, d.Expired now key →
    d'.disk.lookup (cachePath key metaExt) = none ∧
      d'.disk.lookup (cachePath key bodyExt) = none ∧ ¬ d'.Tracks key
  files : ∀ key, ¬ d.Expired now key →
    d'.disk.lookup (cachePath key metaExt) = d.disk.lookup (cachePath key metaExt) ∧
      d'.disk.lookup (cachePath key bodyExt) = d.disk.lookup (cachePath key bodyExt)
  entries : ∀ key, ¬ d.Expired now key →
    ∀ i, (d'.shards i).lru.lookup key = (d.shards i).lru.lookup key
  /-- The recency lists have lost no other key, and their order is as it was. -/
  lists : ∀ i, (d'.shards i).lruList.Sublist (d.shards i).lruList ∧
    ∀ x ∈ (d.shards i).lruList, ¬ d.Expired now x.2 → x ∈ (d'.shards i).lruList

theorem cachePath_ne_sweepBody (key k : Key) (ext : Str) :
    cachePath key ext ≠ [k.digits.drop 2 ++ bodyExt] := by
  simp [cachePath]

theorem lookup_meta_sweepFiles (disk : Disk) (keys : List Key) (k : Key) :
    (keys.foldl sweepFiles disk).lookup (cachePath k metaExt) =
      if k ∈ keys then none else disk.lookup (cachePath k metaExt) := by
  induction keys generalizing disk with
  | nil => simp
  | cons key keys ih =>
    have hne := cachePath_ne_sweepBody k key metaExt
    rw [List.foldl_cons, ih, sweepFiles, Disk.lookup_remove, if_neg hne, Disk.lookup_remove]
    by_cases hk : k = key
    · simp [hk]
    · have hpath : cachePath k metaExt ≠ cachePath key metaExt :=
        fun h => hk (cachePath_injective h)
      simp [hk, hpath]

theorem lookup_body_sweepFiles (disk : Disk) (keys : List Key) (k : Key) :
    (keys.foldl sweepFiles disk).lookup (cachePath k bodyExt) =
      disk.lookup (cachePath k bodyExt) := by
  induction keys generalizing disk with
  | nil => rfl
  | cons key keys ih =>
    have hbody := cachePath_ne_sweepBody k key bodyExt
    have hmeta := (cachePath_meta_ne_body key k).symm
    rw [List.foldl_cons, ih, sweepFiles, Disk.lookup_remove, if_neg hbody, Disk.lookup_remove,
      if_neg hmeta]

/-- The sweep of some shards: each of them loses its expired keys, and so does the disk. -/
theorem foldl_sweepShard (now : Fin shardCount → Int) {shards : List (Fin shardCount)}
    (hnodup : shards.Nodup) (d : DiskCache) :
    (∀ i, ((shards.foldl (fun d i => d.sweepShard (now i) i) d).shards i) =
        if i ∈ shards then ((d.shards i).findExpired (now i)).2.2 else d.shards i) ∧
      (shards.foldl (fun d i => d.sweepShard (now i) i) d).disk =
        (shards.flatMap fun i => ((d.shards i).findExpired (now i)).1).foldl sweepFiles d.disk := by
  induction shards generalizing d with
  | nil => simp
  | cons i shards ih =>
    obtain ⟨hnotMem, hrest⟩ := List.nodup_cons.mp hnodup
    obtain ⟨hshards, hdisk⟩ := ih hrest (d.sweepShard (now i) i)
    have hself : (d.sweepShard (now i) i).shards i = ((d.shards i).findExpired (now i)).2.2 := by
      simp [sweepShard, setShard]
    have hother : ∀ j, j ≠ i → (d.sweepShard (now i) i).shards j = d.shards j := by
      intro j hj
      simp [sweepShard, setShard, hj]
    constructor
    · intro j
      rw [List.foldl_cons, hshards]
      by_cases hj : j = i
      · subst hj
        rw [if_neg hnotMem, hself, if_pos List.mem_cons_self]
      · simp [hother j hj, hj]
    · have hlater : (shards.flatMap fun j =>
          (((d.sweepShard (now i) i).shards j).findExpired (now j)).1) =
          shards.flatMap fun j => ((d.shards j).findExpired (now j)).1 := by
        refine List.flatMap_congr fun j hj => ?_
        rw [hother j fun heq => hnotMem (heq ▸ hj)]
      rw [List.foldl_cons, hdisk, hlater, List.flatMap_cons, List.foldl_append]
      rfl

theorem shards_sweep (d : DiskCache) (now : Fin shardCount → Int) (i : Fin shardCount) :
    (d.sweep now).shards i = (d.shards i).dropAll ((d.shards i).findExpired (now i)).1 := by
  have h := (foldl_sweepShard now (List.nodup_finRange shardCount) d).1 i
  rw [if_pos (List.mem_finRange i)] at h
  exact h

/-- The keys whose files the sweep removes are the expired ones. -/
theorem mem_flatMap_findExpired (d : DiskCache) (now : Fin shardCount → Int) (key : Key) :
    key ∈ ((List.finRange shardCount).flatMap fun i => ((d.shards i).findExpired (now i)).1) ↔
      d.Expired now key := by
  simp only [List.mem_flatMap, List.mem_finRange, true_and, LruShard.mem_findExpired]
  rfl

theorem lookup_meta_sweep (d : DiskCache) (now : Fin shardCount → Int) (key : Key) :
    (d.Expired now key → (d.sweep now).disk.lookup (cachePath key metaExt) = none) ∧
      (¬ d.Expired now key → (d.sweep now).disk.lookup (cachePath key metaExt) =
        d.disk.lookup (cachePath key metaExt)) := by
  rw [sweep, (foldl_sweepShard now (List.nodup_finRange shardCount) d).2, lookup_meta_sweepFiles,
    ← d.mem_flatMap_findExpired now key]
  exact ⟨fun h => if_pos h, fun h => if_neg h⟩

theorem lookup_body_sweep (d : DiskCache) (now : Fin shardCount → Int) (key : Key) :
    (d.sweep now).disk.lookup (cachePath key bodyExt) = d.disk.lookup (cachePath key bodyExt) := by
  rw [sweep, (foldl_sweepShard now (List.nodup_finRange shardCount) d).2, lookup_body_sweepFiles]

variable {d : DiskCache}

theorem lookup_sweep {now : Fin shardCount → Int} {key : Key} (hkey : ¬ d.Expired now key)
    (i : Fin shardCount) :
    ((d.sweep now).shards i).lru.lookup key = (d.shards i).lru.lookup key := by
  rw [shards_sweep, LruShard.lookup_dropAll, if_neg]
  intro hmem
  exact hkey ⟨i, ((d.shards i).mem_findExpired (now i) key).mp hmem⟩

theorem lruList_sweep {last : Key → Nat} (hd : d.Recent last) (now : Fin shardCount → Int)
    (i : Fin shardCount) :
    ((d.sweep now).shards i).lruList.Sublist (d.shards i).lruList ∧
      ∀ x ∈ (d.shards i).lruList, ¬ d.Expired now x.2 → x ∈ ((d.sweep now).shards i).lruList := by
  rw [shards_sweep, (hd.shards i).lruList_dropAll]
  refine ⟨List.filter_sublist, fun x hx hkept => List.mem_filter.mpr ⟨hx, ?_⟩⟩
  have hnotMem : x.2 ∉ ((d.shards i).findExpired (now i)).1 := fun hmem =>
    hkept ⟨i, ((d.shards i).mem_findExpired (now i) x.2).mp hmem⟩
  simpa using hnotMem

/-- Every tracked key has a body. -/
structure Bodied (d : DiskCache) : Prop where
  /-- Every tracked key is in its own shard. -/
  placed : d.Placed
  body : ∀ key, d.Tracks key → (d.disk.lookup (cachePath key bodyExt)).isSome = true

namespace Bodied

variable {d d' : DiskCache} {key : Key}

theorem of_sameOthers (hd : d.Bodied) (hindex : SameOthers d d' key) (hfiles : ∀ k, k ≠ key →
      d'.disk.lookup (cachePath k bodyExt) = d.disk.lookup (cachePath k bodyExt))
    (hself : d'.Tracks key → (d'.disk.lookup (cachePath key bodyExt)).isSome = true) :
    d'.Bodied := by
  refine ⟨hindex.placed, fun k hk => ?_⟩
  by_cases heq : k = key
  · subst heq
    exact hself hk
  · rw [hfiles k heq]
    exact hd.body k ((hindex.tracks_iff heq).mp hk)

theorem of_erase {s : LruShard} (hd : d.Bodied)
    (hshards : d'.shards = (d.setShard (shardIndex key) s).shards)
    (hlru : s.lru = (d.shard key).lru.erase key) (hdisk : d'.disk = Disk.removeEntry d.disk key) :
    d'.Bodied := by
  have hindex : SameOthers d d' key := .of_erase hd.placed hshards hlru
  refine hd.of_sameOthers hindex (fun k hk => ?_) fun htracks => ?_
  · rw [hdisk, Disk.lookup_body_removeEntry, if_neg hk]
  · rw [hindex.placed.tracks_iff, shard, hshards] at htracks
    simp [setShard, hlru] at htracks

theorem evict (hd : d.Bodied) (hevict : d.evict = some d') : d'.Bodied := by
  obtain ⟨i, s, key, e, hlookup, hlru, -, -, rfl⟩ := DiskCache.evict_spec hevict
  obtain rfl := hd.placed i key (Map.mem_of_lookup hlookup)
  exact hd.of_erase rfl hlru rfl

theorem touch (hd : d.Bodied) (now : Int) (size : Int)
    (hbody : (d.disk.lookup (cachePath key bodyExt)).isSome = true) :
    (d.touch now key size).Bodied :=
  hd.of_sameOthers (touch_sameOthers hd.placed now key size) (fun _ _ => rfl) fun _ => hbody

end Bodied

end DiskCache

namespace Access

/-- The cache after a call. -/
def next (d : DiskCache) : Access → DiskCache
  | .set w => (w.run d).2
  | .stream now w key ttl => (d.streamCachedResponse now w key ttl).cache

/-- One call; every call can be made in every state. -/
def step (d : DiskCache) (a : Access) : Option DiskCache := some (a.next d)

variable {d : DiskCache}

/-- Every call keeps the bodies of the tracked keys. -/
theorem bodied_next (hd : d.Bodied) (a : Access) : (a.next d).Bodied := by
  cases a with
  | set w =>
    have hspace : (d.ensureSpace w.size).2.Bodied :=
      DiskCache.ensureSpace_invariant (fun _ _ hd hevict => hd.evict hevict) hd w.size
    have hends := w.run_ends d
    simp only [next]
    generalize w.run d = r at hends
    cases hends with
    | skipped => exact hd
    | failed hok e =>
      rw [hok] at hspace
      exact hspace
    | withdrawn hok =>
      rw [hok] at hspace
      refine ⟨hspace.placed, fun key htracks => ?_⟩
      have hne := (cachePath_meta_ne_body w.key key).symm
      simp only [Write.withdraw, Write.writeSidecar, Disk.lookup_remove, Disk.lookup_write,
        if_neg hne]
      exact hspace.body key htracks
    | @stored d' hstorable hok =>
      rw [hok] at hspace
      have hfiles : (w.writeFiles d').Bodied := by
        refine ⟨hspace.placed, fun key htracks => ?_⟩
        have hne := (cachePath_meta_ne_body w.key key).symm
        rw [w.lookup_writeFiles, if_neg hne]
        split
        · rfl
        · exact hspace.body key htracks
      refine hfiles.touch w.now w.size ?_
      rw [w.lookup_writeFiles, if_pos rfl]
      rfl
  | stream now w key ttl =>
    simp only [next]
    rcases d.streamCachedResponse_cases now w key ttl with
      ⟨-, hcache⟩ | ⟨-, hcache⟩ | ⟨info, m, -, -, hresult, hcache⟩
    · rw [hcache]
      exact hd
    · rw [hcache, DiskCache.remove_eq]
      exact hd.of_erase rfl ((d.shard key).remove_lru key) rfl
    · rw [hcache]
      obtain ⟨-, -, file, -, -, -, -, -, hbody⟩ :=
        (d.streamCachedResponse_ok_iff now w key ttl).mp hresult
      refine hd.touch now _ ?_
      rw [hbody]
      rfl

theorem bodied_of_reaches {disk : Disk} {maxSize maxAge : Int}
    (hreach : Runs.Reaches step Runs.Unrestricted (.new disk maxSize maxAge) d) : d.Bodied := by
  refine hreach.invariant (fun d a d' hd _ hstep => ?_) ⟨?_, ?_⟩
  · cases hstep
    exact bodied_next hd a
  · exact (DiskCache.recent_new (fun _ => 0) disk maxSize maxAge).placed
  · rintro key ⟨i, hmem⟩
    cases hmem

theorem exists_used_of_reaches {disk : Disk} {maxSize maxAge : Int}
    (hreach : Runs.Reaches step Runs.Unrestricted (.new disk maxSize maxAge) d) :
    ∃ s, Runs.Reaches Used.step Runs.Unrestricted (.init disk maxSize maxAge) s ∧ s.cache = d := by
  refine hreach.invariant (fun d a d' (hd : ∃ s, Runs.Reaches Used.step Runs.Unrestricted
    (.init disk maxSize maxAge) s ∧ s.cache = d) _ hstep => ?_) ⟨_, .refl, rfl⟩
  obtain ⟨s, hs, rfl⟩ := hd
  cases hstep
  refine ⟨s.next a, hs.tail ⟨a, trivial, rfl⟩, ?_⟩
  cases a with
  | set w | stream now w key ttl =>
    simp only [Used.next, next]
    split
    · rfl
    · rfl

end Access

/-- In every state that reads and writes lead to, a sweep removes exactly the expired
entries if and only if there are none: the body of an expired entry stays. -/
theorem withoutExpired_sweep_iff {disk : Disk} {maxSize maxAge : Int} {d : DiskCache}
    (hreach : Runs.Reaches Access.step Runs.Unrestricted (.new disk maxSize maxAge) d)
    (now : Fin shardCount → Int) :
    d.WithoutExpired now (d.sweep now) ↔ ∀ key, ¬ d.Expired now key := by
  constructor
  · intro hexact key hexpired
    obtain ⟨-, hbody, -⟩ := hexact.removed key hexpired
    have htracks : d.Tracks key := by
      obtain ⟨i, e, hlookup, -⟩ := hexpired
      exact ⟨i, Map.mem_of_lookup hlookup⟩
    have hstays := (Access.bodied_of_reaches hreach).body key htracks
    rw [d.lookup_body_sweep] at hbody
    rw [hbody] at hstays
    cases hstays
  · intro hnone
    obtain ⟨s, hs, rfl⟩ := Access.exists_used_of_reaches hreach
    have hrecent := (Used.ordered_of_reaches hs).recent
    constructor
    · exact fun key hexpired => absurd hexpired (hnone key)
    · exact fun key hkey => ⟨(s.cache.lookup_meta_sweep now key).2 hkey,
        s.cache.lookup_body_sweep now key⟩
    · exact fun key hkey i => DiskCache.lookup_sweep hkey i
    · exact fun i => DiskCache.lruList_sweep hrecent now i

/-- An entry is written to a cache with an age limit of ten. -/
def agedCache : DiskCache := [writeAt 0 zeroKey].foldl (fun d a => a.next d) (.new ∅ 0 10)

theorem reaches_agedCache :
    Runs.Reaches Access.step Runs.Unrestricted (.new ∅ 0 10) agedCache :=
  Runs.reaches_foldl (Runs.admitted_unrestricted Access.step _ _)

/-- A sweep after its expiry forgets the entry and removes its sidecar, and leaves its
body. -/
theorem agedCache_body_stays :
    Runs.Reaches Access.step Runs.Unrestricted (.new ∅ 0 10) agedCache ∧
      agedCache.Expired (fun _ => 11) zeroKey ∧
      (agedCache.sweep fun _ => 11).disk.lookup (cachePath zeroKey metaExt) = none ∧
      (agedCache.sweep fun _ => 11).disk.lookup (cachePath zeroKey bodyExt) = some ⟨[0x78], 0⟩ ∧
      ¬ agedCache.WithoutExpired (fun _ => 11) (agedCache.sweep fun _ => 11) := by
  have hexpired : agedCache.Expired (fun _ => 11) zeroKey :=
    (agedCache.mem_flatMap_findExpired _ _).mp (by decide)
  have hbody : (agedCache.sweep fun _ => 11).disk.lookup (cachePath zeroKey bodyExt) =
      some ⟨[0x78], 0⟩ := by
    rw [agedCache.lookup_body_sweep]
    decide
  refine ⟨reaches_agedCache, hexpired, (agedCache.lookup_meta_sweep _ _).1 hexpired, hbody, ?_⟩
  intro hexact
  have hgone := (hexact.removed zeroKey hexpired).2.1
  rw [hbody] at hgone
  cases hgone

/-- A sweep before its expiry changes nothing. -/
theorem agedCache_kept :
    Runs.Reaches Access.step Runs.Unrestricted (.new ∅ 0 10) agedCache ∧
      agedCache.WithoutExpired (fun _ => 10) (agedCache.sweep fun _ => 10) := by
  refine ⟨reaches_agedCache, (withoutExpired_sweep_iff reaches_agedCache _).mpr ?_⟩
  intro key hexpired
  have hnone : ((List.finRange shardCount).flatMap fun i =>
      ((agedCache.shards i).findExpired 10).1) = [] := by decide
  have hmem := (agedCache.mem_flatMap_findExpired (fun _ => 10) key).mpr hexpired
  rw [hnone] at hmem
  cases hmem

end Peretum.Cache
