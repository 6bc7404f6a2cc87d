import Peretum.Runs
import Peretum.Cache.Bytes

/-!
# The limit on the bytes on disk

`MaxSize` limits the recorded sizes. Whether it also limits the bytes below the
cache directory depends on how well the recorded sizes follow the files. A write
records the size of both files of an entry, but a read records that of the sidecar
alone, and a restart forgets the entries without removing their files.
-/

namespace Peretum.Cache

open Go Function

/-- The cache with the keys that were read since they were last written. -/
structure Traced where
  cache : DiskCache
  /-- The keys read since they were last written. -/
  read : Key → Bool

/-- A call of one of the two operations a request uses. -/
inductive Access where
  /-- `SetResponseToCache`. -/
  | set (w : Write)
  /-- `StreamCachedResponseTTL`, and `StreamCachedResponse` with a TTL of zero. -/
  | stream (now : Int) (w : ResponseWriter) (key : Key) (ttl : Int)

namespace Traced

/-- The state after a call. -/
def next (s : Traced) : Access → Traced
  | .set w =>
      let r := w.run s.cache
      let stored := DiskCache.storable w.statusCode w.body && r.1.isOk
      ⟨r.2, if stored then update s.read w.key false else s.read⟩
  | .stream now w key ttl =>
      let r := s.cache.streamCachedResponse now w key ttl
      ⟨r.cache, if r.result.isOk then update s.read key true else s.read⟩

/-- One call; every call can be made in every state. -/
def step (s : Traced) (a : Access) : Option Traced := some (s.next a)

/-- A cache over an empty directory. -/
def init (maxSize maxAge : Int) : Traced := ⟨.new ∅ maxSize maxAge, fun _ => false⟩

/-- A response is stored only while every other tracked entry is as it was written: none
of them was read since. -/
def WrittenBack (s : Traced) : Access → Prop
  | .set w => DiskCache.storable w.statusCode w.body = true →
      ∀ key, key ≠ w.key → s.cache.Tracks key → s.read key = false
  | .stream _ _ _ _ => True

/-- What such runs keep: the entries that were not read since are covered by their
recorded sizes, and the bytes are within the limit. -/
structure Within (maxSize : Int) (s : Traced) : Prop where
  /-- The index and the files fit together. -/
  backed : s.cache.Backed
  sized : s.cache.Sized
  counter : s.cache.currentSize = s.cache.recordedSize
  /-- An entry that was not read since it was written is covered by its recorded size. -/
  covered : ∀ i key e, (s.cache.shards i).lru.lookup key = some e → s.read key = false →
    s.cache.disk.entryBytes key ≤ e.size
  limit : s.cache.maxSize = maxSize
  bound : s.cache.disk.bytes ≤ maxSize

variable {maxSize : Int} {s : Traced}

/-- Losing entries keeps what is left covered and within the limit. -/
theorem Within.of_shrinks (hwithin : s.Within maxSize) {d : DiskCache}
    (hshrinks : s.cache.Shrinks d) (hkeeps : s.cache.Keeps d) :
    Within maxSize ⟨d, s.read⟩ where
  backed := hshrinks.backed
  sized := hkeeps.sized
  counter := by
    have hentries := hkeeps.entries
    have hcounter := hwithin.counter
    change d.currentSize = d.recordedSize
    omega
  covered i key e hlookup hread :=
    le_trans (hshrinks.entryBytes key)
      (hwithin.covered i key e (hshrinks.lookup i key e hlookup) hread)
  limit := hshrinks.maxSize.trans hwithin.limit
  bound := le_trans hshrinks.bytes hwithin.bound

/-- A hit changes the recorded size of its key, which counts as read from then on. -/
theorem Within.hit (hwithin : s.Within maxSize) (now : Int) (key : Key) {size : Int}
    (hsize : 1 < size) :
    Within maxSize ⟨s.cache.touch now key size, update s.read key true⟩ := by
  have hkeeps := DiskCache.touch_keeps hwithin.sized now key hsize
  have hindex := DiskCache.touch_sameOthers hwithin.backed.placed now key size
  have hsame : Disk.SameElsewhere s.cache.disk s.cache.disk key := ⟨rfl, fun _ _ => rfl⟩
  have hentries := hkeeps.entries
  have hcounter := hwithin.counter
  refine ⟨hwithin.backed.touch hsame now size, hkeeps.sized, by dsimp only; omega, ?_,
    hwithin.limit, hwithin.bound⟩
  intro i k e hlookup hread
  have hk : k ≠ key := by
    rintro rfl
    exact absurd hread (by simp)
  dsimp only at hlookup hread
  rw [update_of_ne hk] at hread
  rw [hindex.lookup i k hk] at hlookup
  exact hwithin.covered i k e hlookup hread

/-- Storing a response puts its size on record, and the space made for it is enough when
every other entry is covered. -/
theorem Within.stored (hmax : 0 < maxSize) (hwithin : s.Within maxSize) {w : Write} {d : DiskCache}
    (hspace : s.cache.ensureSpace w.size = (true, d))
    (hread : ∀ key, key ≠ w.key → s.cache.Tracks key → s.read key = false) :
    Within maxSize ⟨(w.writeFiles d).touch w.now w.key w.size,
      update s.read w.key false⟩ := by
  have hshrinks := DiskCache.ensureSpace_shrinks hwithin.backed w.size
  have hkeeps := DiskCache.ensureSpace_keeps hwithin.sized w.size
  rw [hspace] at hshrinks hkeeps
  have hspared : Within maxSize ⟨d, s.read⟩ := hwithin.of_shrinks hshrinks hkeeps
  have hfits := DiskCache.ensureSpace_fits (by rw [hwithin.limit]; omega) hspace
  have hfiles := w.writeFiles_sameElsewhere d
  have hentry := w.entryBytes_writeFiles d
  have hindex := DiskCache.touch_sameOthers (d := w.writeFiles d) hspared.backed.placed w.now w.key
    w.size
  have hbacked : ((w.writeFiles d).touch w.now w.key w.size).Backed :=
    hspared.backed.touch hfiles w.now w.size
  have hput : (w.writeFiles d).Keeps ((w.writeFiles d).touch w.now w.key w.size) := by
    refine DiskCache.touch_keeps (d := w.writeFiles d) hspared.sized w.now w.key ?_
    have hlength := two_lt_length_writeMetadata w.statusCode w.host w.path w.headers
    unfold Write.size Write.sidecar
    omega
  refine ⟨hbacked, hput.sized, ?_, ?_, hspared.limit, ?_⟩
  · have hentries := hput.entries
    have hcounter : (w.writeFiles d).currentSize = (w.writeFiles d).recordedSize :=
      hspared.counter
    dsimp only
    omega
  · intro i k e hlookup hk
    dsimp only at hlookup hk ⊢
    by_cases hkey : k = w.key
    · subst hkey
      obtain rfl := hbacked.placed i w.key (Map.mem_of_lookup hlookup)
      obtain ⟨e', hsize, hlookup'⟩ := (w.writeFiles d).lookup_touch w.now w.key w.size
      obtain rfl : e' = e := Option.some.inj (hlookup'.symm.trans hlookup)
      exact le_of_eq (hentry.trans hsize.symm)
    · rw [update_of_ne hkey] at hk
      rw [hindex.lookup i k hkey] at hlookup
      exact le_trans (le_of_eq (hfiles.entryBytes k hkey)) (hspared.covered i k e hlookup hk)
  · -- The other bytes are covered by what is on record, which leaves space for the new ones.
    have hothers : d.disk.bytes - d.disk.entryBytes w.key ≤ d.recordedSize := by
      refine hspared.backed.bytes_sub_entryBytes_le hspared.sized fun i k e hk hlookup => ?_
      have htracked : s.cache.Tracks k :=
        ⟨i, Map.mem_of_lookup (hshrinks.lookup i k e hlookup)⟩
      exact hspared.covered i k e hlookup (hread k hk htracked)
    have hbytes := hfiles.bytes
    have hcounter : d.currentSize = d.recordedSize := hspared.counter
    have hlimit : d.maxSize = maxSize := hspared.limit
    change (w.writeFiles d).disk.bytes ≤ maxSize
    omega

/-- Every call of such a run keeps the bytes within the limit. -/
theorem Within.next (hmax : 0 < maxSize) (hwithin : s.Within maxSize) {a : Access}
    (hguard : s.WrittenBack a) : (s.next a).Within maxSize := by
  cases a with
  | set w =>
    have hkeeps := DiskCache.write_keeps hwithin.sized w
    have hshrinks := DiskCache.ensureSpace_shrinks hwithin.backed w.size
    have hends := w.run_ends s.cache
    simp only [Traced.next]
    generalize w.run s.cache = r at hends hkeeps
    cases hends with
    | skipped hstorable =>
      simp only [hstorable, Bool.false_and, Bool.false_eq_true, if_false]
      exact hwithin
    | failed hspace e =>
      rw [hspace] at hshrinks
      simp only [Except.isOk, Except.toBool, Bool.and_false, Bool.false_eq_true, if_false]
      exact hwithin.of_shrinks hshrinks hkeeps
    | withdrawn hspace =>
      rw [hspace] at hshrinks
      simp only [Except.isOk, Except.toBool, Bool.and_false, Bool.false_eq_true, if_false]
      exact hwithin.of_shrinks (hshrinks.trans (w.withdraw_shrinks hshrinks.backed)) hkeeps
    | stored hstorable hspace =>
      simp only [hstorable, Except.isOk, Except.toBool, Bool.and_self, if_true]
      exact hwithin.stored hmax hspace (hguard hstorable)
  | stream now w key ttl =>
    have hkeeps := DiskCache.streamCachedResponse_keeps hwithin.sized now w key ttl
    simp only [Traced.next]
    rcases s.cache.streamCachedResponse_cases now w key ttl with
      ⟨⟨e, hresult⟩, hcache⟩ | ⟨⟨e, hresult⟩, hcache⟩ | ⟨info, m, -, hread, hresult, hcache⟩
    · rw [hcache, hresult]
      exact hwithin
    · rw [hcache] at hkeeps
      rw [hcache, hresult]
      exact hwithin.of_shrinks (DiskCache.remove_shrinks hwithin.backed key) hkeeps
    · have hlength := one_lt_length_of_readMetadata_eq_ok hread
      rw [hcache, hresult]
      exact hwithin.hit now key (by omega)

/-- A new cache over a directory without bytes is within its limit. -/
theorem within_new {disk : Disk} (hempty : disk.bytes = 0) (hmax : 0 < maxSize) (maxAge : Int) :
    Within maxSize ⟨.new disk maxSize maxAge, fun _ => false⟩ := by
  have haudited := DiskCache.new_audited disk maxSize maxAge
  have htotal : ∀ f, (DiskCache.new disk maxSize maxAge).total f = 0 := by
    simp [DiskCache.total, DiskCache.new, LruShard.empty]
  refine ⟨⟨?_, ?_, ?_⟩, haudited.sized, (htotal _).symm, ?_, rfl, ?_⟩
  · intro i key hmem
    cases hmem
  · intro key _
    have hfile : ∀ ext, ext = metaExt ∨ ext = bodyExt →
        fileBytes (disk.lookup (cachePath key ext)) = 0 := by
      intro ext hext
      have hrest : 0 ≤ (Disk.remove disk (cachePath key ext)).bytes := by
        refine Map.sum_nonneg fun p file _ => ?_
        split <;> omega
      have hremove := Disk.bytes_remove disk key hext
      have hnonneg := fileBytes_nonneg (disk.lookup (cachePath key ext))
      omega
    change disk.entryBytes key = 0
    rw [Disk.entryBytes, hfile _ (.inl rfl), hfile _ (.inr rfl), Int.add_zero]
  · exact (htotal _).trans hempty.symm
  · intro i key e hlookup
    cases hlookup
  · exact le_of_eq_of_le hempty (le_of_lt hmax)

end Traced

/-- In every run of reads and writes over an empty directory in which responses are stored
only while no other tracked entry was read since it was written, the bytes on disk stay
within the limit. -/
theorem bytes_le_maxSize_of_writtenBack {maxSize maxAge : Int} (hmax : 0 < maxSize) {s : Traced}
    (hreach : Runs.Reaches Traced.step Traced.WrittenBack (.init maxSize maxAge) s) :
    s.cache.disk.bytes ≤ maxSize := by
  have hinit : (Traced.init maxSize maxAge).Within maxSize :=
    Traced.within_new (Map.sum_empty _) hmax maxAge
  have hwithin : s.Within maxSize := by
    refine hreach.invariant (fun s a t hs hguard hstep => ?_) hinit
    cases hstep
    exact hs.next hmax hguard
  exact hwithin.bound

/-- The write of a response without headers. -/
def plainWrite (key : Key) (body : Str) : Write := ⟨0, ⟨true, true⟩, key, [], [], 200, ∅, body⟩

/-- A read on a fresh response writer. -/
def plainRead (key : Key) : Access := .stream 0 .fresh key 0

/-- An entry that fills the cache is read and another one is written. -/
def readThenWrite : List Access :=
  [.set (plainWrite zeroKey (List.replicate 25 0x78)), plainRead zeroKey,
    .set (plainWrite onesKey [0x78])]

/-- After an entry of 40 bytes is read, 25 of them are no longer on record, and the next
write leaves 56 bytes in a cache limited to 40. -/
theorem readThenWrite_exceeds :
    ∃ s, Runs.Reaches Traced.step Runs.Unrestricted (.init 40 0) s ∧
      40 < s.cache.disk.bytes := by
  have hallowed := Runs.admitted_unrestricted Traced.step (.init 40 0) readThenWrite
  exact ⟨_, Runs.reaches_foldl hallowed, by decide⟩

/-- Two entries are written, one of them is read, and this one is written again. -/
def readThenRewrite : List Access :=
  [.set (plainWrite zeroKey [0x78]), .set (plainWrite onesKey [0x78]), plainRead zeroKey,
    .set (plainWrite zeroKey [0x79])]

/-- Writing an entry again after it was read keeps within the limit. -/
theorem readThenRewrite_within :
    (0 : Int) < 40 ∧ (readThenRewrite.foldl Traced.next (.init 40 0)).cache.disk.bytes ≤ 40 := by
  have hallowed : Runs.Admitted Traced.step Traced.WrittenBack (.init 40 0) readThenRewrite := by
    refine .cons (fun _ _ _ _ => rfl) rfl (.cons (fun _ key hkey _ => ?_) rfl
      (.cons trivial rfl (.cons (fun _ key hkey _ => ?_) rfl trivial)))
    · change update (fun _ => false) zeroKey false key = false
      simp
    · change update (update (update (fun _ => false) zeroKey false)
        onesKey false) zeroKey true key = false
      have hkey : key ≠ zeroKey := hkey
      simp [update_of_ne hkey]
  exact ⟨by decide, bytes_le_maxSize_of_writtenBack (by decide) (Runs.reaches_foldl hallowed)⟩

/-- A step in the life of a cache directory without reads and purges. -/
inductive Lifetime where
  /-- The process ends and another one calls `New` with the same limit. -/
  | restart (maxAge : Int)
  /-- `SetResponseToCache`. -/
  | set (w : Write)

namespace Lifetime

/-- The state after a call. -/
def next (d : DiskCache) : Lifetime → DiskCache
  | restart maxAge => .new d.disk d.maxSize maxAge
  | set w => (w.run d).2

/-- One call; every call can be made in every state. -/
def step (d : DiskCache) (a : Lifetime) : Option DiskCache := some (a.next d)

/-- A process starts only over a directory without cached entries. -/
def Emptied (d : DiskCache) : Lifetime → Prop
  | restart _ => d.disk.bytes = 0
  | set _ => True

/-- What such runs keep, as no entry is ever read. -/
def Within (maxSize : Int) (d : DiskCache) : Prop := Traced.Within maxSize ⟨d, fun _ => false⟩

/-- Such a step keeps the bytes within the limit. -/
theorem next_within {maxSize : Int} (hmax : 0 < maxSize) {d : DiskCache}
    (hwithin : Within maxSize d) {a : Lifetime} (hguard : Emptied d a) :
    Within maxSize (a.next d) := by
  cases a with
  | restart maxAge =>
    have hlimit : d.maxSize = maxSize := hwithin.limit
    simp only [next, hlimit]
    exact Traced.within_new hguard hmax maxAge
  | set w =>
    have hnext := Traced.Within.next hmax hwithin (a := .set w) (fun _ _ _ _ => rfl)
    simpa [Traced.next, next, Within] using hnext

end Lifetime

/-- Over any number of lifetimes that each start over a directory without cached entries,
the bytes on disk stay within the limit. -/
theorem bytes_le_maxSize_of_emptied {maxSize maxAge : Int} (hmax : 0 < maxSize) {disk : Disk}
    (hempty : disk.bytes = 0) {d : DiskCache}
    (hreach : Runs.Reaches Lifetime.step Lifetime.Emptied (.new disk maxSize maxAge) d) :
    d.disk.bytes ≤ maxSize := by
  have hinit : Lifetime.Within maxSize (.new disk maxSize maxAge) :=
    Traced.within_new hempty hmax maxAge
  have hwithin : Lifetime.Within maxSize d := by
    refine hreach.invariant (fun d a d' hd hguard hstep => ?_) hinit
    cases hstep
    exact Lifetime.next_within hmax hd hguard
  exact hwithin.bound

/-- A lifetime that fills the cache with one entry is followed by another. -/
def fillThenRestart : List Lifetime :=
  [.set (plainWrite zeroKey (List.replicate 25 0x78)), .restart 0]

/-- The second lifetime does not know of the 40 bytes the first one left, so its write
succeeds and leaves 56 bytes in a cache limited to 40. -/
theorem fillThenRestart_exceeds :
    ∃ d, Runs.Reaches Lifetime.step Runs.Unrestricted (.new ∅ 40 0) d ∧
      ((plainWrite onesKey [0x78]).run d).1 = .ok () ∧
      40 < ((plainWrite onesKey [0x78]).run d).2.disk.bytes := by
  have hallowed := Runs.admitted_unrestricted Lifetime.step (.new ∅ 40 0) fillThenRestart
  exact ⟨_, Runs.reaches_foldl hallowed, rfl, by decide⟩

/-- A lifetime fills the cache and gives its entry up for one whose sidecar cannot be
written. The next lifetime fills the cache again. -/
def refillAfterRestart : List Lifetime :=
  [.set (plainWrite zeroKey (List.replicate 25 0x78)),
    .set { plainWrite onesKey [0x78] with io := ⟨false, true⟩ }, .restart 0,
    .set (plainWrite onesKey (List.replicate 25 0x78))]

/-- A restart over a directory that was filled and emptied keeps within the limit. -/
theorem refillAfterRestart_within :
    (0 : Int) < 40 ∧
      (refillAfterRestart.foldl Lifetime.next (.new ∅ 40 0)).disk.bytes ≤ 40 := by
  have hempty : ((refillAfterRestart.take 2).foldl Lifetime.next (.new ∅ 40 0)).disk.bytes = 0 := by
    decide
  have hallowed : Runs.Admitted Lifetime.step Lifetime.Emptied (.new ∅ 40 0) refillAfterRestart :=
    .cons trivial rfl (.cons trivial rfl (.cons hempty rfl (.cons trivial rfl trivial)))
  exact ⟨by decide, bytes_le_maxSize_of_emptied (by decide) (Map.sum_empty _)
    (Runs.reaches_foldl hallowed)⟩

end Peretum.Cache
