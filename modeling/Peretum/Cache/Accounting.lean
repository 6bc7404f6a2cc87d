import Mathlib.Algebra.BigOperators.Fin
import Mathlib.Algebra.Order.BigOperators.Group.Finset
import Peretum.Cache.Purge

/-!
# The recorded size of the cache

The cache keeps its total size in one counter, beside a size in every shard and
one in every tracked entry. This file says how each operation moves the three
totals. Reads, writes, evictions and sweeps move them together; the purges of a
narrower scope take the number of dropped entries off the counter instead of
their sizes, and only a purge of everything brings the totals together again.
-/

namespace Peretum.Cache

open Go

namespace DiskCache

/-- The total weight of the tracked entries of all shards. -/
def total (f : Key → EntryMeta → Int) (d : DiskCache) : Int := ∑ i, Map.sum f (d.shards i).lru

/-- The sum of the recorded sizes of all tracked entries. -/
abbrev recordedSize (d : DiskCache) : Int := d.total (fun _ e => e.size)

/-- The sum of the sizes of the shards. -/
def shardSizes (d : DiskCache) : Int := ∑ i, (d.shards i).size

theorem total_setShard (f : Key → EntryMeta → Int) (d : DiskCache) (i : Fin shardCount)
    (s : LruShard) :
    (d.setShard i s).total f = d.total f + (Map.sum f s.lru - Map.sum f (d.shards i).lru) :=
  Sums.sum_update (fun _ (s : LruShard) => Map.sum f s.lru) d.shards i s

theorem shardSizes_setShard (d : DiskCache) (i : Fin shardCount) (s : LruShard) :
    (d.setShard i s).shardSizes = d.shardSizes + (s.size - (d.shards i).size) :=
  Sums.sum_update (fun _ (s : LruShard) => s.size) d.shards i s

variable {d d' : DiskCache}

theorem all_setShard {P : EntryMeta → Prop} (hall : ∀ j, (d.shards j).All P) (i : Fin shardCount)
    {s : LruShard} (hs : s.All P) : ∀ j, ((d.setShard i s).shards j).All P :=
  (Function.forall_update_iff d.shards fun _ s => s.All P).mpr ⟨hs, fun j _ => hall j⟩

/-- No entry of an index has a recorded size below zero. -/
def NonnegSizes (shards : Fin shardCount → LruShard) : Prop :=
  ∀ i, (shards i).All fun e => 0 ≤ e.size

theorem NonnegSizes.update {shards : Fin shardCount → LruShard} (hnonneg : NonnegSizes shards)
    (i : Fin shardCount) {s : LruShard} (hs : s.All fun e => 0 ≤ e.size) :
    NonnegSizes (Function.update shards i s) :=
  (Function.forall_update_iff shards fun _ s => s.All fun e => 0 ≤ e.size).mpr
    ⟨hs, fun j _ => hnonneg j⟩

theorem touch_spec (d : DiskCache) (now : Int) (key : Key) (size : Int) :
    ∃ (s : LruShard) (e : EntryMeta), e.size = size ∧
      s.lru = (d.shard key).lru.insert key e ∧
      s.size = (d.shard key).size + (size - (d.shard key).sizeOf key) ∧
      d.touch now key size = { d.setShard (shardIndex key) s with
        currentSize := d.currentSize + (size - (d.shard key).sizeOf key) } := by
  let expiresAt := if 0 < d.maxAge then some (now + d.maxAge) else none
  obtain ⟨hdelta, hsize, e, he, hlru⟩ := (d.shard key).put_spec now key size expiresAt
  refine ⟨((d.shard key).put now key size expiresAt).2, e, he, hlru, hsize, ?_⟩
  rw [← hdelta]
  rfl

theorem remove_eq (d : DiskCache) (key : Key) :
    d.remove key = { d.setShard (shardIndex key) ((d.shard key).remove key).2 with
      currentSize := d.currentSize - (d.shard key).sizeOf key } := by
  unfold remove LruShard.remove LruShard.sizeOf LruShard.weight
  cases (d.shard key).lru.lookup key with
  | some e => rfl
  | none =>
    have hself : d.setShard (shardIndex key) (d.shard key) = d := by
      simp [setShard, shard]
    simp [hself]

/-- What `evict` does to the cache when it finds an entry to drop. -/
theorem evict_spec (hevict : d.evict = some d') :
    ∃ (i : Fin shardCount) (s : LruShard) (key : Key) (e : EntryMeta),
      (d.shards i).lru.lookup key = some e ∧ s.lru = (d.shards i).lru.erase key ∧
      s.size = (d.shards i).size - e.size ∧ s.lruList.length < (d.shards i).lruList.length ∧
      d' = { d.setShard i s with
        currentSize := d.currentSize - e.size
        disk := Disk.removeEntry d.disk key
        stats := { d.stats with evictions := d.stats.evictions + 1 } } := by
  unfold evict at hevict
  generalize List.finRange shardCount = shards at hevict
  induction shards with
  | nil => cases hevict
  | cons i rest ih =>
    rcases (d.shards i).evict_cases with hnone | ⟨key, e, hlookup, hfst, hlru, hsize, hlength⟩
    · exact ih (by simpa [evictFrom, hnone] using hevict)
    · have hpair : (d.shards i).evict = (some (key, e.size), (d.shards i).evict.2) :=
        Prod.ext hfst rfl
      refine ⟨i, (d.shards i).evict.2, key, e, hlookup, hlru, hsize, hlength, ?_⟩
      rw [evictFrom, hpair] at hevict
      exact (Option.some.inj hevict).symm

/-- Every eviction shortens a recency list. -/
theorem tracked_lt_of_evict (hevict : d.evict = some d') : d'.tracked < d.tracked := by
  obtain ⟨i, s, key, e, -, -, -, hlength, hd'⟩ := evict_spec hevict
  have hsum : ∀ d : DiskCache, (d.tracked : Int) = ∑ i, ((d.shards i).lruList.length : Int) := by
    intro d
    rw [tracked, ← Fin.sum_univ_def, Nat.cast_sum]
  have hshards : d'.shards = Function.update d.shards i s := by rw [hd', setShard]
  have hupdate := Sums.sum_update (fun _ (s : LruShard) => (s.lruList.length : Int)) d.shards i s
  rw [← hshards, ← hsum d, ← hsum d'] at hupdate
  omega

/-- The number of tracked entries is enough fuel for the loop of `ensureSpace`: with any
more it gives the same answer. -/
theorem ensureSpaceLoop_eq_of_tracked_lt {fuel more : Nat} (hfuel : d.tracked < fuel)
    (hmore : d.tracked < more) (size : Int) :
    ensureSpaceLoop fuel d size = ensureSpaceLoop more d size := by
  induction fuel generalizing d more with
  | zero => omega
  | succ fuel ih =>
    cases more with
    | zero => omega
    | succ more =>
      unfold ensureSpaceLoop
      split
      · cases hevict : d.evict with
        | none => rfl
        | some d' =>
          have hlt := tracked_lt_of_evict hevict
          exact ih (by omega) (by omega)
      · rfl

/-- Every tracked entry has a recorded size of more than one byte. -/
def Sized (d : DiskCache) : Prop := ∀ i, (d.shards i).All (fun e => 1 < e.size)

/-- The three totals have moved by the same amount, and every entry has a size. -/
structure Keeps (d d' : DiskCache) : Prop where
  sized : d'.Sized
  /-- The counter moved as the sizes of the entries did. -/
  entries : d'.currentSize - d'.recordedSize = d.currentSize - d.recordedSize
  shards : d'.currentSize - d'.shardSizes = d.currentSize - d.shardSizes

/-- Nothing but the index and the counter matters. -/
theorem Keeps.of_eq (hsized : d.Sized) (hshards : d'.shards = d.shards)
    (hcurrent : d'.currentSize = d.currentSize) : Keeps d d' := by
  refine ⟨?_, ?_, ?_⟩
  · unfold Sized
    rw [hshards]
    exact hsized
  · simp only [recordedSize, total, hshards, hcurrent]
  · simp only [shardSizes, hshards, hcurrent]

theorem Keeps.trans {d₁ d₂ d₃ : DiskCache} (h₁ : Keeps d₁ d₂) (h₂ : Keeps d₂ d₃) :
    Keeps d₁ d₃ :=
  ⟨h₂.sized, h₂.entries.trans h₁.entries, h₂.shards.trans h₁.shards⟩

/-- The totals move together when one shard and the counter do. -/
theorem Keeps.of_setShard {i : Fin shardCount} {s : LruShard} (delta : Int) (hsized : d.Sized)
    (hsize : s.All fun e => 1 < e.size) (hentries : Map.sum (fun _ e => e.size) s.lru =
      Map.sum (fun _ e => e.size) (d.shards i).lru + delta)
    (hshard : s.size = (d.shards i).size + delta) (hshards : d'.shards = (d.setShard i s).shards)
    (hcurrent : d'.currentSize = d.currentSize + delta) : Keeps d d' := by
  have htotal : d'.recordedSize = d.recordedSize + delta := by
    have h := total_setShard (fun _ e => e.size) d i s
    unfold recordedSize total at h ⊢
    rw [hshards, h]
    omega
  have hsum : d'.shardSizes = d.shardSizes + delta := by
    have h := shardSizes_setShard d i s
    unfold shardSizes at h ⊢
    rw [hshards, h]
    omega
  refine ⟨?_, by omega, by omega⟩
  intro j
  rw [hshards]
  exact all_setShard hsized i hsize j

/-- A put of a real size moves the totals together. -/
theorem touch_keeps (hsized : d.Sized) (now : Int) (key : Key) {size : Int} (hsize : 1 < size) :
    Keeps d (d.touch now key size) := by
  obtain ⟨s, e, he, hlru, hshard, htouch⟩ := d.touch_spec now key size
  refine .of_setShard (size - (d.shard key).sizeOf key) hsized ?_ ?_ hshard
    (by rw [htouch]) (by rw [htouch])
  · exact (hsized (shardIndex key)).of_insert (by omega) hlru
  · rw [hlru, LruShard.sum_lru_insert, he]
    change _ = Map.sum _ (d.shard key).lru + (size - (d.shard key).weight _ key)
    omega

theorem remove_keeps (hsized : d.Sized) (key : Key) : Keeps d (d.remove key) := by
  have hremove := d.remove_eq key
  have hlru := (d.shard key).remove_lru key
  refine .of_setShard (-(d.shard key).sizeOf key) hsized ?_ ?_
    ((d.shard key).remove_size key) (by rw [hremove]) (by rw [hremove]; rfl)
  · exact (hsized (shardIndex key)).of_erase hlru
  · rw [hlru, Map.sum_erase]
    rfl

theorem evict_keeps (hsized : d.Sized) (hevict : d.evict = some d') : Keeps d d' := by
  obtain ⟨i, s, key, e, hlookup, hlru, hsize, -, rfl⟩ := evict_spec hevict
  refine .of_setShard (-e.size) (i := i) (s := s) hsized ?_ ?_ hsize rfl rfl
  · exact (hsized i).of_erase hlru
  · rw [hlru, Map.sum_erase, hlookup]
    rfl

/-- Making space moves the totals together, as each of its evictions does. -/
theorem ensureSpace_keeps (hsized : d.Sized) (size : Int) : Keeps d (d.ensureSpace size).2 :=
  ensureSpace_invariant (fun _ _ hkeeps hevict => hkeeps.trans (evict_keeps hkeeps.sized hevict))
    (.of_eq hsized rfl rfl) size

/-- A write moves the totals together, whether it succeeds or not. -/
theorem write_keeps (hsized : d.Sized) (w : Write) : Keeps d (w.run d).2 := by
  have hspace := ensureSpace_keeps hsized w.size
  have hends := w.run_ends d
  generalize w.run d = r at hends
  -- The files are written before the entry is put, and none of them is counted.
  cases hends with
  | skipped => exact .of_eq hsized rfl rfl
  | failed hok e =>
    rw [hok] at hspace
    exact hspace
  | withdrawn hok =>
    rw [hok] at hspace
    exact hspace.trans (.of_eq hspace.sized rfl rfl)
  | stored hstorable hok =>
    rw [hok] at hspace
    have hlength := two_lt_length_writeMetadata w.statusCode w.host w.path w.headers
    have hfiles : Keeps d (w.writeFiles _) := hspace.trans (.of_eq hspace.sized rfl rfl)
    refine hfiles.trans (touch_keeps hfiles.sized w.now w.key ?_)
    unfold Write.size Write.sidecar
    omega

/-- A read moves the totals together, whether it is a hit or not. -/
theorem streamCachedResponse_keeps (hsized : d.Sized) (now : Int) (w : ResponseWriter) (key : Key)
    (ttl : Int) : Keeps d (d.streamCachedResponse now w key ttl).cache := by
  rcases d.streamCachedResponse_cases now w key ttl with
    ⟨-, hcache⟩ | ⟨-, hcache⟩ | ⟨info, m, -, hread, -, hcache⟩
  · rw [hcache]
    exact .of_eq hsized rfl rfl
  · rw [hcache]
    have hfiles : Keeps d { d with disk := Disk.removeEntry d.disk key } := .of_eq hsized rfl rfl
    exact hfiles.trans (remove_keeps hfiles.sized key)
  · rw [hcache]
    have hlength := one_lt_length_of_readMetadata_eq_ok hread
    exact touch_keeps hsized now key (by omega)

theorem sweepShard_keeps (hsized : d.Sized) (now : Int) (i : Fin shardCount) :
    Keeps d (d.sweepShard now i) := by
  have hnodup := (d.shards i).findExpired_nodup now
  have htotal := (d.shards i).findExpired_total now
  have hnonneg : 0 ≤ ((d.shards i).findExpired now).2.1 := by
    refine LruShard.findExpired_nonneg (fun key e hlookup => ?_) now
    have hsize := hsized i key e hlookup
    omega
  refine .of_setShard (-((d.shards i).findExpired now).2.1) (i := i)
    (s := ((d.shards i).findExpired now).2.2) hsized ?_ ?_ ?_ rfl ?_
  · exact (hsized i).dropAll _
  · rw [htotal]
    exact (d.shards i).sum_dropAll _ hnodup
  · rw [htotal]
    exact (d.shards i).dropAll_size hnodup
  · -- Nothing is subtracted for a shard without expired entries, where the total is zero.
    change (if 0 < ((d.shards i).findExpired now).2.1 then
      d.currentSize - ((d.shards i).findExpired now).2.1 else d.currentSize) = _
    split
    · omega
    · omega

theorem sweep_keeps (hsized : d.Sized) (now : Fin shardCount → Int) : Keeps d (d.sweep now) := by
  unfold sweep
  generalize List.finRange shardCount = shards
  induction shards generalizing d with
  | nil => exact .of_eq hsized rfl rfl
  | cons i shards ih =>
    have hshard := sweepShard_keeps hsized (now i) i
    exact hshard.trans (ih hshard.sized)

/-- What the purged entries of a shard weigh beyond the one byte each is counted for. -/
def excess (d : DiskCache) (sel : Str → Str → Bool) (i : Fin shardCount) : Int :=
  ((d.toRemove sel i).map (d.shards i).sizeOf).sum - (d.toRemove sel i).length

theorem toRemove_nodup (d : DiskCache) (sel : Str → Str → Bool) (i : Fin shardCount) :
    (d.toRemove sel i).Nodup :=
  (d.shards i).lru.keys_nodup.filter _

/-- A purged entry has more than one byte, so there is an excess where anything is purged. -/
theorem length_le_excess (hsized : d.Sized) (sel : Str → Str → Bool) (i : Fin shardCount) :
    ((d.toRemove sel i).length : Int) ≤ d.excess sel i := by
  have hsum : (d.toRemove sel i).length • (2 : Int) ≤
      ((d.toRemove sel i).map (d.shards i).sizeOf).sum := by
    rw [← List.length_map (f := (d.shards i).sizeOf)]
    refine List.card_nsmul_le_sum _ _ fun x hx => ?_
    obtain ⟨key, hkey, rfl⟩ := List.mem_map.mp hx
    have htracked : key ∈ (d.shards i).lru := AList.mem_keys.mpr (List.mem_of_mem_filter hkey)
    obtain ⟨e, he⟩ := Option.isSome_iff_exists.mp (AList.lookup_isSome.mpr htracked)
    have hsize := hsized i key e he
    simp only [LruShard.weight, he, Option.elim_some]
    omega
  unfold excess
  rw [nsmul_eq_mul] at hsum
  omega

theorem excess_nonneg (hsized : d.Sized) (sel : Str → Str → Bool) (i : Fin shardCount) :
    0 ≤ d.excess sel i :=
  Int.le_trans (Int.natCast_nonneg _) (length_le_excess hsized sel i)

theorem excess_eq_zero_iff (hsized : d.Sized) (sel : Str → Str → Bool) (i : Fin shardCount) :
    d.excess sel i = 0 ↔ d.toRemove sel i = [] := by
  have hlength := length_le_excess hsized sel i
  constructor
  · intro hzero
    exact List.length_eq_zero_iff.mp (by omega)
  · intro hnil
    simp [excess, hnil]

theorem recordedSize_purgeIndex (d : DiskCache) (sel : Str → Str → Bool) :
    (d.purgeIndex sel).2.recordedSize =
      d.recordedSize - ∑ i, ((d.toRemove sel i).map (d.shards i).sizeOf).sum := by
  unfold recordedSize total
  rw [← Finset.sum_sub_distrib]
  exact Finset.sum_congr rfl fun i _ => (d.shards i).sum_dropAll _ (d.toRemove_nodup sel i)

theorem shardSizes_purgeIndex (d : DiskCache) (sel : Str → Str → Bool) :
    (d.purgeIndex sel).2.shardSizes =
      d.shardSizes - ∑ i, ((d.toRemove sel i).map (d.shards i).sizeOf).sum := by
  unfold shardSizes
  rw [← Finset.sum_sub_distrib]
  exact Finset.sum_congr rfl fun i _ => (d.shards i).dropAll_size (d.toRemove_nodup sel i)

/-- A purge takes the number of the purged entries off the counter. -/
theorem currentSize_purgeIndex (d : DiskCache) (sel : Str → Str → Bool) :
    (d.purgeIndex sel).2.currentSize =
      d.currentSize - ∑ i, ((d.toRemove sel i).length : Int) := by
  have hpurged : (((List.finRange shardCount).map fun i => (d.toRemove sel i).length).sum : Nat) =
      ∑ i, (d.toRemove sel i).length := (Fin.sum_univ_def _).symm
  change d.currentSize - _ = _
  rw [hpurged, Nat.cast_sum]

/-- After a purge the counter exceeds the recorded sizes by the excess of what was purged. -/
theorem purgeIndex_drift (d : DiskCache) (sel : Str → Str → Bool) :
    (d.purgeIndex sel).2.currentSize - (d.purgeIndex sel).2.recordedSize =
      d.currentSize - d.recordedSize + ∑ i, d.excess sel i := by
  have hexcess : ∑ i, d.excess sel i =
      ∑ i, ((d.toRemove sel i).map (d.shards i).sizeOf).sum -
        ∑ i, ((d.toRemove sel i).length : Int) := Finset.sum_sub_distrib _ _
  have htotal := d.recordedSize_purgeIndex sel
  have hcurrent := currentSize_purgeIndex d sel
  omega

/-- The totals stay comparable in every run: the shards agree with their entries, and the
counter never falls below them. -/
structure Audited (d : DiskCache) : Prop where
  sized : d.Sized
  shards : d.shardSizes = d.recordedSize
  counter : d.recordedSize ≤ d.currentSize

/-- A cache without tracked entries has nothing to count. -/
theorem recordedSize_of_untracked (hnone : ∀ key, ¬ d.Tracks key) : d.recordedSize = 0 := by
  refine Finset.sum_eq_zero fun i _ => ?_
  have hempty : (d.shards i).lru.entries = [] := by
    by_contra hne
    obtain ⟨x, hx⟩ := List.exists_mem_of_ne_nil _ hne
    exact hnone x.1 ⟨i, AList.mem_keys.mpr (List.mem_map.mpr ⟨x, hx, rfl⟩)⟩
  simp [Map.sum, hempty]

theorem recordedSize_new (disk : Disk) (maxSize maxAge : Int) :
    (new disk maxSize maxAge).recordedSize = 0 := by
  simp [recordedSize, total, new, LruShard.empty]

theorem new_audited (disk : Disk) (maxSize maxAge : Int) : (new disk maxSize maxAge).Audited := by
  have hrecorded := recordedSize_new disk maxSize maxAge
  have hshards : (new disk maxSize maxAge).shardSizes = 0 := by
    simp [shardSizes, new, LruShard.empty]
  refine ⟨?_, by omega, by rw [hrecorded]; rfl⟩
  intro i key e hlookup
  cases hlookup

/-- Operations that move the totals together keep them comparable. -/
theorem Audited.of_keeps (haudited : d.Audited) (hkeeps : Keeps d d') : d'.Audited := by
  have hentries := hkeeps.entries
  have hshards := hkeeps.shards
  have hsame := haudited.shards
  have hcounter := haudited.counter
  exact ⟨hkeeps.sized, by omega, by omega⟩

theorem Audited.purgeIndex (haudited : d.Audited) (sel : Str → Str → Bool) :
    (d.purgeIndex sel).2.Audited := by
  have hdrift := d.purgeIndex_drift sel
  have htotal := d.recordedSize_purgeIndex sel
  have hsizes := d.shardSizes_purgeIndex sel
  have hsame := haudited.shards
  have hcounter := haudited.counter
  have hexcess : 0 ≤ ∑ i, d.excess sel i :=
    Finset.sum_nonneg fun i _ => excess_nonneg haudited.sized sel i
  refine ⟨?_, by omega, by omega⟩
  intro i
  exact (haudited.sized i).dropAll _

/-- A purge keeps the counter right exactly when it was right and nothing is purged. -/
theorem purgeIndex_currentSize_eq_iff (haudited : d.Audited) (sel : Str → Str → Bool) :
    (d.purgeIndex sel).2.currentSize = (d.purgeIndex sel).2.recordedSize ↔
      d.currentSize = d.recordedSize ∧ ∀ i, d.toRemove sel i = [] := by
  have hdrift := d.purgeIndex_drift sel
  have hcounter := haudited.counter
  have hnonneg : ∀ i ∈ Finset.univ, 0 ≤ d.excess sel i := fun i _ =>
    excess_nonneg haudited.sized sel i
  have hexcess := Finset.sum_nonneg hnonneg
  have hzero : ∑ i, d.excess sel i = 0 ↔ ∀ i, d.toRemove sel i = [] := by
    rw [Finset.sum_eq_zero_iff_of_nonneg hnonneg]
    simp only [Finset.mem_univ, true_imp_iff, excess_eq_zero_iff haudited.sized]
  rw [← hzero]
  omega

/-- A purge of everything leaves nothing to count. -/
theorem purgeAll_audited (d : DiskCache) :
    d.purgeAll.2.Audited ∧ d.purgeAll.2.currentSize = d.purgeAll.2.recordedSize := by
  have hrecorded : d.purgeAll.2.recordedSize = 0 := by
    simp [recordedSize, total, purgeAll]
  have hshards : d.purgeAll.2.shardSizes = 0 := by
    simp [shardSizes, purgeAll]
  have hcurrent : d.purgeAll.2.currentSize = 0 := rfl
  refine ⟨⟨?_, by omega, by omega⟩, by omega⟩
  intro i key e hlookup
  cases hlookup

end DiskCache

/-- A call of one of the operations on the index, with what it observes. -/
inductive CacheOp where
  /-- `SetResponseToCache`. -/
  | set (w : Write)
  /-- `StreamCachedResponseTTL`, and `StreamCachedResponse` with a TTL of zero. -/
  | stream (now : Int) (w : ResponseWriter) (key : Key) (ttl : Int)
  | sweep (now : Fin shardCount → Int)
  | evict
  | purgeByHost (host : Str)
  | purgeByHostPath (host path : Str)
  | purgeByHostPrefix (host pathPrefix : Str)
  | purgeAll

namespace CacheOp

/-- The cache after a call. -/
def run (d : DiskCache) : CacheOp → DiskCache
  | set w => (w.run d).2
  | stream now w key ttl => (d.streamCachedResponse now w key ttl).cache
  | sweep now => d.sweep now
  | evict => d.evict.getD d
  | purgeByHost host => (d.purgeByHost host).2
  | purgeByHostPath host path => (d.purgeByHostPath host path false).2
  | purgeByHostPrefix host pathPrefix => (d.purgeByHostPath host pathPrefix true).2
  | purgeAll => d.purgeAll.2

/-- The cache after a sequence of calls. -/
def runAll (d : DiskCache) (ops : List CacheOp) : DiskCache := ops.foldl run d

/-- The test a purge of a narrower scope applies to the host and path of an entry. -/
def selection : CacheOp → Option (Str → Str → Bool)
  | purgeByHost host => some fun h _ => h == host
  | purgeByHostPath host path => some fun h p =>
      if host ≠ [] ∧ h ≠ host then false else p == path
  | purgeByHostPrefix host pathPrefix => some fun h p =>
      if host ≠ [] ∧ h ≠ host then false else hasPrefix p pathPrefix
  | _ => none

/-- A purge of a narrower scope walks the index with its test. -/
theorem run_of_selection {op : CacheOp} {sel : Str → Str → Bool}
    (hsel : op.selection = some sel) (d : DiskCache) : op.run d = (d.purgeIndex sel).2 := by
  cases op with
  | purgeByHost host | purgeByHostPath host path | purgeByHostPrefix host pathPrefix =>
    cases hsel
    rfl
  | _ => cases hsel

variable {d : DiskCache}

/-- Every call but a purge moves the totals together. -/
theorem run_keeps {op : CacheOp} (hsel : op.selection = none) (hall : op ≠ purgeAll)
    (hsized : d.Sized) : d.Keeps (op.run d) := by
  cases op with
  | set w => exact DiskCache.write_keeps hsized w
  | stream now w key ttl => exact DiskCache.streamCachedResponse_keeps hsized now w key ttl
  | sweep now => exact DiskCache.sweep_keeps hsized now
  | evict =>
    unfold run
    cases hevict : d.evict with
    | none => exact .of_eq hsized rfl rfl
    | some d' => exact DiskCache.evict_keeps hsized hevict
  | purgeAll => exact absurd rfl hall
  | _ => cases hsel

theorem runAll_concat (d : DiskCache) (ops : List CacheOp) (op : CacheOp) :
    runAll d (ops ++ [op]) = op.run (runAll d ops) := by
  simp [runAll]

/-- Every call keeps the totals comparable. -/
theorem run_audited (haudited : d.Audited) (op : CacheOp) : (op.run d).Audited := by
  cases hsel : op.selection with
  | some sel =>
    rw [run_of_selection hsel]
    exact haudited.purgeIndex sel
  | none =>
    by_cases hall : op = purgeAll
    · rw [hall]
      exact d.purgeAll_audited.1
    · exact haudited.of_keeps (run_keeps hsel hall haudited.sized)

theorem runAll_audited (haudited : d.Audited) (ops : List CacheOp) : (runAll d ops).Audited := by
  induction ops using List.reverseRecOn with
  | nil => exact haudited
  | append_singleton ops op ih =>
    rw [runAll_concat]
    exact run_audited ih op

/-- No purge of a narrower scope found an entry to drop since the last purge of
everything. -/
def NoneFound (d : DiskCache) (ops : List CacheOp) : Prop :=
  ∀ before op after sel, ops = before ++ op :: after → op.selection = some sel →
    purgeAll ∉ after → ∀ i, (runAll d before).toRemove sel i = []

theorem noneFound_concat (d : DiskCache) (ops : List CacheOp) (op : CacheOp) :
    NoneFound d (ops ++ [op]) ↔ (op = purgeAll ∨ NoneFound d ops) ∧
      ∀ sel, op.selection = some sel → ∀ i, (runAll d ops).toRemove sel i = [] := by
  constructor
  · intro hnone
    refine ⟨?_, fun sel hsel => hnone ops op [] sel rfl hsel (by simp)⟩
    by_cases hall : op = purgeAll
    · exact .inl hall
    · refine .inr fun before op' after sel hops hsel hafter => ?_
      refine hnone before op' (after ++ [op]) sel (by simp [hops]) hsel ?_
      simp [hafter, Ne.symm hall]
  · rintro ⟨hbefore, hlast⟩ before op' after sel hops hsel hafter
    -- The purge is the last call, or the last call comes after it.
    rcases List.eq_nil_or_concat' after with rfl | ⟨rest, last, rfl⟩
    · obtain ⟨rfl, hop⟩ := List.append_inj' hops rfl
      obtain rfl : op = op' := List.singleton_inj.mp hop
      exact hlast sel hsel
    · rw [← List.cons_append, ← List.append_assoc] at hops
      obtain ⟨hfront, hop⟩ := List.append_inj' hops rfl
      obtain rfl : op = last := List.singleton_inj.mp hop
      rcases hbefore with hall | hnone
      · exact absurd (by simp [hall]) hafter
      · exact hnone before op' rest sel hfront hsel (fun hmem => hafter (by simp [hmem]))

/-- In every run of a new cache the counter is right exactly when no purge of a narrower
scope found an entry since the last purge of everything. -/
theorem currentSize_eq_iff_noneFound (disk : Disk) (maxSize maxAge : Int)
    (ops : List CacheOp) :
    (runAll (.new disk maxSize maxAge) ops).currentSize =
        (runAll (.new disk maxSize maxAge) ops).recordedSize ↔
      NoneFound (.new disk maxSize maxAge) ops := by
  have hnew := DiskCache.new_audited disk maxSize maxAge
  induction ops using List.reverseRecOn with
  | nil =>
    have hempty : NoneFound (.new disk maxSize maxAge) [] := by
      intro before op after sel hops
      exact absurd hops (by simp)
    exact iff_of_true (DiskCache.recordedSize_new disk maxSize maxAge).symm hempty
  | append_singleton ops op ih =>
    have haudited := runAll_audited hnew ops
    have hprevious := ih.symm
    rw [runAll_concat, noneFound_concat, hprevious]
    cases hsel : op.selection with
    | some sel =>
      have hall : op ≠ purgeAll := by
        rintro rfl
        cases hsel
      rw [run_of_selection hsel, DiskCache.purgeIndex_currentSize_eq_iff haudited]
      simp [hall]
    | none =>
      by_cases hall : op = purgeAll
      · subst hall
        simp [run, (runAll (.new disk maxSize maxAge) ops).purgeAll_audited.2]
      · have hentries := (run_keeps hsel hall haudited.sized).entries
        simp only [hall, false_or, reduceCtorEq, false_imp_iff, implies_true, and_true]
        omega

end CacheOp

/-- The counter agrees with the tracked entries and with the shards. -/
structure DiskCache.Accounted (d : DiskCache) : Prop where
  entries : d.currentSize = d.recordedSize
  shards : d.currentSize = d.shardSizes
  untracked : (∀ key, ¬ d.Tracks key) → d.currentSize = 0

/-- After every sequence of calls on a new cache the accounts are right exactly when no
purge of a narrower scope found an entry since the last purge of everything: such a
purge takes one byte off the counter for each entry it drops. -/
theorem accounted_iff_noneFound (disk : Disk) (maxSize maxAge : Int) (ops : List CacheOp) :
    (CacheOp.runAll (.new disk maxSize maxAge) ops).Accounted ↔
      CacheOp.NoneFound (.new disk maxSize maxAge) ops := by
  have hnew := DiskCache.new_audited disk maxSize maxAge
  have hshards := (CacheOp.runAll_audited hnew ops).shards
  rw [← CacheOp.currentSize_eq_iff_noneFound]
  constructor
  · exact fun haccounted => haccounted.entries
  · intro hentries
    refine ⟨hentries, hentries.trans hshards.symm, fun huntracked => ?_⟩
    rw [hentries, DiskCache.recordedSize_of_untracked huntracked]

/-- One object is stored and its site purged. -/
def storeAndPurge : List CacheOp :=
  [.set ⟨0, ⟨true, true⟩, zeroKey, str "example.com", str "/a", 200, ∅, str "x"⟩,
    .purgeByHost (str "example.com")]

/-- The purge of the only object leaves its size but one byte in the counter, though
nothing is tracked any more. -/
theorem storeAndPurge_not_accounted :
    (CacheOp.runAll (.new ∅ 0 0) storeAndPurge).currentSize = 28 ∧
      ¬ (CacheOp.runAll (.new ∅ 0 0) storeAndPurge).Accounted := by
  have hcurrent : (CacheOp.runAll (.new ∅ 0 0) storeAndPurge).currentSize = 28 := by decide
  have hrecorded : (CacheOp.runAll (.new ∅ 0 0) storeAndPurge).recordedSize = 0 := by decide
  refine ⟨hcurrent, fun haccounted => ?_⟩
  have hentries := haccounted.entries
  omega

end Peretum.Cache
