import Peretum.Cache.Accounting

/-!
# The bytes on disk

The index knows recorded sizes; the directory has bytes. In a run that starts
over an empty directory every file belongs to a tracked entry, so the bytes of the
tracked entries are all there are. This file says which part of the bytes each
operation can change.
-/

namespace Peretum.Cache

open Go Function

/-- A file of a cache entry, by the extension of its name. -/
def isEntryFile (path : Path) : Bool :=
  match path.getLast? with
  | some name => fileExt name = metaExt || fileExt name = bodyExt
  | none => false

/-- The size of a file that may be absent. -/
def fileBytes (file : Option File) : Int := file.elim 0 fun f => f.data.length

theorem fileBytes_nonneg (file : Option File) : 0 ≤ fileBytes file := by
  cases file with
  | none | some f => simp [fileBytes]

theorem isEntryFile_cachePath (key : Key) {ext : Str} (hext : ext = metaExt ∨ ext = bodyExt) :
    isEntryFile (cachePath key ext) = true := by
  have hmeta : metaExt = [0x2E, 0x6D, 0x65, 0x74, 0x61] := by decide
  have hbody : bodyExt = [0x2E, 0x62, 0x6F, 0x64, 0x79] := by decide
  rcases hext with rfl | rfl
  · simp [isEntryFile, cachePath, fileExt, hmeta]
  · simp [isEntryFile, cachePath, fileExt, hbody]

namespace Disk

/-- The bytes of all sidecars and bodies below the cache directory. -/
def bytes (disk : Disk) : Int :=
  Map.sum (fun path file => if isEntryFile path then (file.data.length : Int) else 0) disk

/-- The bytes of the two files of a key. -/
def entryBytes (disk : Disk) (key : Key) : Int :=
  fileBytes (disk.lookup (cachePath key metaExt)) + fileBytes (disk.lookup (cachePath key bodyExt))

variable (disk : Disk) (key : Key)

theorem entryBytes_nonneg : 0 ≤ disk.entryBytes key :=
  Int.add_nonneg (fileBytes_nonneg _) (fileBytes_nonneg _)

/-- The files of one key have changed and no others. -/
structure SameElsewhere (disk disk' : Disk) (key : Key) : Prop where
  bytes : disk'.bytes - disk'.entryBytes key = disk.bytes - disk.entryBytes key
  entryBytes : ∀ k, k ≠ key → disk'.entryBytes k = disk.entryBytes k

theorem SameElsewhere.trans {disk₁ disk₂ disk₃ : Disk} {key : Key}
    (h₁ : SameElsewhere disk₁ disk₂ key) (h₂ : SameElsewhere disk₂ disk₃ key) :
    SameElsewhere disk₁ disk₃ key :=
  ⟨h₂.bytes.trans h₁.bytes, fun k hk => (h₂.entryBytes k hk).trans (h₁.entryBytes k hk)⟩

variable {ext : Str}

theorem bytes_write (hext : ext = metaExt ∨ ext = bodyExt) (data : Str) (now : Int) :
    (Disk.write disk (cachePath key ext) data now).bytes =
      disk.bytes - fileBytes (disk.lookup (cachePath key ext)) + data.length := by
  unfold bytes Disk.write
  rw [Map.sum_insert]
  simp only [isEntryFile_cachePath key hext, if_true]
  rfl

theorem bytes_remove (hext : ext = metaExt ∨ ext = bodyExt) :
    (Disk.remove disk (cachePath key ext)).bytes =
      disk.bytes - fileBytes (disk.lookup (cachePath key ext)) := by
  unfold bytes Disk.remove
  rw [Map.sum_erase]
  simp only [isEntryFile_cachePath key hext, if_true]
  rfl

/-- A change of one path of a key that moves the total by the change of that file is a
change of that key alone. -/
theorem SameElsewhere.of_lookup {disk disk' : Disk} {key : Key} (file : Option File)
    (hext : ext = metaExt ∨ ext = bodyExt)
    (hlookup : ∀ p, disk'.lookup p = if p = cachePath key ext then file else disk.lookup p)
    (hbytes : disk'.bytes =
      disk.bytes - fileBytes (disk.lookup (cachePath key ext)) + fileBytes file) :
    SameElsewhere disk disk' key := by
  have hother : ∀ k, k ≠ key → ∀ ext', cachePath k ext' = cachePath key ext →
      ext' = metaExt ∨ ext' = bodyExt → False := by
    intro k hk ext' heq hext'
    rcases hext with rfl | rfl
    · rcases hext' with rfl | rfl
      · exact hk (cachePath_injective heq)
      · exact cachePath_meta_ne_body key k heq.symm
    · rcases hext' with rfl | rfl
      · exact cachePath_meta_ne_body k key heq
      · exact hk (cachePath_injective heq)
  refine ⟨?_, ?_⟩
  · have hne := cachePath_meta_ne_body key key
    unfold Disk.entryBytes
    rw [hlookup, hlookup]
    rcases hext with rfl | rfl
    · rw [if_pos rfl, if_neg hne.symm]
      omega
    · rw [if_neg hne, if_pos rfl]
      omega
  · intro k hk
    unfold Disk.entryBytes
    rw [hlookup, hlookup, if_neg fun heq => hother k hk _ heq (.inl rfl),
      if_neg fun heq => hother k hk _ heq (.inr rfl)]

theorem sameElsewhere_write (hext : ext = metaExt ∨ ext = bodyExt) (data : Str) (now : Int) :
    SameElsewhere disk (Disk.write disk (cachePath key ext) data now) key := by
  refine .of_lookup (some ⟨data, now⟩) hext ?_ (bytes_write disk key hext data now)
  intro p
  exact Disk.lookup_write disk (cachePath key ext) p data now

theorem sameElsewhere_remove (hext : ext = metaExt ∨ ext = bodyExt) :
    SameElsewhere disk (Disk.remove disk (cachePath key ext)) key := by
  have hbytes := bytes_remove disk key hext
  refine .of_lookup none hext ?_ (hbytes.trans (by simp [fileBytes]))
  intro p
  exact Disk.lookup_remove disk (cachePath key ext) p

theorem sameElsewhere_removeEntry : SameElsewhere disk (Disk.removeEntry disk key) key :=
  (sameElsewhere_remove disk key (.inl rfl)).trans (sameElsewhere_remove _ key (.inr rfl))

@[simp] theorem entryBytes_removeEntry : (Disk.removeEntry disk key).entryBytes key = 0 := by
  simp [entryBytes, lookup_meta_removeEntry, lookup_body_removeEntry, fileBytes]

end Disk

namespace DiskCache

/-- Every tracked key is in its own shard. -/
def Placed (d : DiskCache) : Prop := ∀ i key, key ∈ (d.shards i).lru → shardIndex key = i

/-- The index has changed for one key and for no other. -/
structure SameOthers (d d' : DiskCache) (key : Key) : Prop where
  /-- Every tracked key is in its own shard. -/
  placed : d'.Placed
  lookup : ∀ i k, k ≠ key → (d'.shards i).lru.lookup k = (d.shards i).lru.lookup k
  total : ∀ f, d'.total f - (d'.shard key).weight f key = d.total f - (d.shard key).weight f key

variable {d d' : DiskCache} {key : Key} {s : LruShard}

theorem SameOthers.of_setShard (hplaced : d.Placed)
    (hshards : d'.shards = (d.setShard (shardIndex key) s).shards)
    (hlookup : ∀ k, k ≠ key → s.lru.lookup k = (d.shard key).lru.lookup k)
    (htotal : ∀ f, Map.sum f s.lru - s.weight f key =
      Map.sum f (d.shard key).lru - (d.shard key).weight f key) : SameOthers d d' key := by
  have hself : d'.shards (shardIndex key) = s := by
    rw [hshards]
    exact update_self ..
  have hother : ∀ i, i ≠ shardIndex key → d'.shards i = d.shards i := by
    intro i hi
    rw [hshards]
    exact update_of_ne hi ..
  have hlookups : ∀ i k, k ≠ key → (d'.shards i).lru.lookup k = (d.shards i).lru.lookup k := by
    intro i k hk
    by_cases hi : i = shardIndex key
    · rw [hi, hself]
      exact hlookup k hk
    · rw [hother i hi]
  refine ⟨?_, hlookups, ?_⟩
  · intro i k hmem
    by_cases hk : k = key
    · subst hk
      by_contra hi
      rw [hother i (Ne.symm hi)] at hmem
      exact hi (hplaced i k hmem)
    · refine hplaced i k (AList.lookup_isSome.mp ?_)
      rw [← hlookups i k hk]
      exact AList.lookup_isSome.mpr hmem
  · intro f
    have hsum : d'.total f = d.total f + (Map.sum f s.lru - Map.sum f (d.shard key).lru) := by
      have h := total_setShard f d (shardIndex key) s
      unfold DiskCache.total at h ⊢
      rw [hshards, h]
      rfl
    have hshard : d'.shard key = s := hself
    rw [hsum, hshard]
    have hs := htotal f
    omega

/-- A put changes the index for its key alone. -/
theorem touch_sameOthers (hplaced : d.Placed) (now : Int) (key : Key) (size : Int) :
    SameOthers d (d.touch now key size) key := by
  obtain ⟨s, e, -, hlru, -, htouch⟩ := d.touch_spec now key size
  refine .of_setShard (s := s) hplaced (by rw [htouch]) ?_ ?_
  · intro k hk
    rw [hlru, AList.lookup_insert_ne hk]
  · intro f
    have hweight : s.weight f key = f key e := by
      simp [LruShard.weight, hlru]
    rw [hweight, hlru, LruShard.sum_lru_insert]
    omega

theorem SameOthers.of_erase (hplaced : d.Placed)
    (hshards : d'.shards = (d.setShard (shardIndex key) s).shards)
    (hlru : s.lru = (d.shard key).lru.erase key) : SameOthers d d' key := by
  refine .of_setShard hplaced hshards ?_ ?_
  · intro k hk
    rw [hlru, AList.lookup_erase_ne hk]
  · intro f
    have hweight : s.weight f key = 0 := by
      simp [LruShard.weight, hlru]
    rw [hweight, hlru, LruShard.sum_lru_erase]
    omega

theorem SameOthers.tracks_iff {k : Key} (h : SameOthers d d' key) (hk : k ≠ key) :
    d'.Tracks k ↔ d.Tracks k := by
  refine exists_congr fun i => ?_
  rw [← AList.lookup_isSome, h.lookup i k hk, AList.lookup_isSome]

theorem total_sub_weight_congr (hplaced : d.Placed) (key : Key) {f g : Key → EntryMeta → Int}
    (hfg : ∀ k, k ≠ key → ∀ e, f k e = g k e) :
    d.total f - (d.shard key).weight f key = d.total g - (d.shard key).weight g key := by
  let d' := d.setShard (shardIndex key) ((d.shard key).remove key).2
  have herase : SameOthers d d' key := .of_erase hplaced rfl ((d.shard key).remove_lru key)
  have huntracked : ∀ i, (d'.shards i).lru.lookup key = none := by
    intro i
    by_contra hsome
    have hmem : key ∈ (d'.shards i).lru :=
      AList.lookup_isSome.mp (Option.isSome_iff_ne_none.mpr hsome)
    obtain rfl := herase.placed i key hmem
    apply hsome
    simp only [d', setShard, update_self, LruShard.remove_lru, AList.lookup_erase]
  have hzero : ∀ h : Key → EntryMeta → Int, (d'.shard key).weight h key = 0 := by
    simp [LruShard.weight, shard, huntracked]
  have hcongr : d'.total f = d'.total g := by
    refine Finset.sum_congr rfl fun i _ => Map.sum_congr fun k e hlookup => hfg k ?_ e
    rintro rfl
    rw [huntracked i] at hlookup
    cases hlookup
  rw [← herase.total f, ← herase.total g, hzero, hzero, hcongr]

/-- The index and the files fit together: every file of an entry belongs to a tracked
key, which is in its own shard, so the tracked keys make up all bytes. -/
structure Backed (d : DiskCache) : Prop where
  /-- Every tracked key is in its own shard. -/
  placed : d.Placed
  owned : ∀ key, (d.shard key).lru.lookup key = none → d.disk.entryBytes key = 0
  balanced : d.total (fun key _ => d.disk.entryBytes key) = d.disk.bytes

theorem Backed.weight_eq (howned : ∀ key,
    (d.shard key).lru.lookup key = none → d.disk.entryBytes key = 0) (key : Key) :
    (d.shard key).weight (fun key _ => d.disk.entryBytes key) key = d.disk.entryBytes key := by
  unfold LruShard.weight
  cases hlookup : (d.shard key).lru.lookup key with
  | none => rw [howned key hlookup, Option.elim_none]
  | some e => rfl

/-- A change of the index and the files for one key keeps them together when an untracked
key is left without bytes. -/
theorem Backed.of_sameOthers (hbacked : d.Backed) (hindex : SameOthers d d' key)
    (hdisk : Disk.SameElsewhere d.disk d'.disk key)
    (howned : (d'.shard key).lru.lookup key = none → d'.disk.entryBytes key = 0) : d'.Backed := by
  have howned' : ∀ k, (d'.shard k).lru.lookup k = none → d'.disk.entryBytes k = 0 := by
    intro k hnone
    by_cases hk : k = key
    · subst hk
      exact howned hnone
    · rw [hdisk.entryBytes k hk]
      refine hbacked.owned k ?_
      rw [shard, ← hindex.lookup _ k hk]
      exact hnone
  refine ⟨hindex.placed, howned', ?_⟩
  have hothers := hindex.total (fun k _ => d'.disk.entryBytes k)
  have hcongr := total_sub_weight_congr hbacked.placed key
    (fun k hk _ => hdisk.entryBytes k hk)
  rw [hcongr, Backed.weight_eq howned', Backed.weight_eq hbacked.owned, hbacked.balanced,
    ← hdisk.bytes] at hothers
  omega

/-- The cache has only lost entries and their files. -/
structure Shrinks (d d' : DiskCache) : Prop where
  /-- The index and the files still fit together. -/
  backed : d'.Backed
  lookup : ∀ i key e, (d'.shards i).lru.lookup key = some e →
    (d.shards i).lru.lookup key = some e
  entryBytes : ∀ key, d'.disk.entryBytes key ≤ d.disk.entryBytes key
  bytes : d'.disk.bytes ≤ d.disk.bytes
  maxSize : d'.maxSize = d.maxSize

theorem Shrinks.refl (hbacked : d.Backed) : Shrinks d d :=
  ⟨hbacked, fun _ _ _ h => h, fun _ => le_refl _, le_refl _, rfl⟩

theorem Shrinks.trans {d₁ d₂ d₃ : DiskCache} (h₁ : Shrinks d₁ d₂) (h₂ : Shrinks d₂ d₃) :
    Shrinks d₁ d₃ where
  backed := h₂.backed
  lookup i key e h := h₁.lookup i key e (h₂.lookup i key e h)
  entryBytes key := le_trans (h₂.entryBytes key) (h₁.entryBytes key)
  bytes := le_trans h₂.bytes h₁.bytes
  maxSize := h₂.maxSize.trans h₁.maxSize

theorem Shrinks.of_erase (hbacked : d.Backed)
    (hshards : d'.shards = (d.setShard (shardIndex key) s).shards)
    (hlru : s.lru = (d.shard key).lru.erase key) (hdisk : d'.disk = Disk.removeEntry d.disk key)
    (hmax : d'.maxSize = d.maxSize) : Shrinks d d' := by
  have hindex : SameOthers d d' key := .of_erase hbacked.placed hshards hlru
  have hfiles : Disk.SameElsewhere d.disk d'.disk key := by
    rw [hdisk]
    exact Disk.sameElsewhere_removeEntry d.disk key
  have hzero : d'.disk.entryBytes key = 0 := by
    rw [hdisk]
    exact Disk.entryBytes_removeEntry d.disk key
  have hnonneg := d.disk.entryBytes_nonneg key
  refine ⟨hbacked.of_sameOthers hindex hfiles fun _ => hzero, ?_, ?_, ?_, hmax⟩
  · intro i k e hlookup
    by_cases hk : k = key
    · subst hk
      have hi := hindex.placed i k (Map.mem_of_lookup hlookup)
      subst hi
      rw [hshards] at hlookup
      simp only [setShard, update_self, hlru, AList.lookup_erase] at hlookup
      cases hlookup
    · rw [← hindex.lookup i k hk]
      exact hlookup
  · intro k
    by_cases hk : k = key
    · subst hk
      omega
    · rw [hfiles.entryBytes k hk]
  · have hbytes := hfiles.bytes
    omega

theorem evict_shrinks (hbacked : d.Backed) (hevict : d.evict = some d') : Shrinks d d' := by
  obtain ⟨i, s, key, e, hlookup, hlru, -, -, rfl⟩ := evict_spec hevict
  obtain rfl := hbacked.placed i key (Map.mem_of_lookup hlookup)
  exact .of_erase hbacked rfl hlru rfl rfl

theorem remove_shrinks (hbacked : d.Backed) (key : Key) :
    Shrinks d ({ d with disk := Disk.removeEntry d.disk key }.remove key) := by
  rw [remove_eq]
  exact .of_erase hbacked rfl ((d.shard key).remove_lru key) rfl rfl

theorem ensureSpace_shrinks (hbacked : d.Backed) (size : Int) : Shrinks d (d.ensureSpace size).2 :=
  ensureSpace_invariant
    (fun _ _ hshrinks hevict => hshrinks.trans (evict_shrinks hshrinks.backed hevict))
    (.refl hbacked) size

theorem ensureSpaceLoop_fits {fuel : Nat} {size : Int}
    (hspace : ensureSpaceLoop fuel d size = (true, d')) : d'.currentSize + size ≤ d'.maxSize := by
  induction fuel generalizing d with
  | zero => cases hspace
  | succ fuel ih =>
    unfold ensureSpaceLoop at hspace
    split at hspace
    · cases hevict : d.evict with
      | none => simp [hevict] at hspace
      | some d₁ =>
        rw [hevict] at hspace
        exact ih hspace
    · next hfits =>
      obtain rfl : d = d' := by simpa using hspace
      omega

/-- When `ensureSpace` succeeds under a limit, there is space. -/
theorem ensureSpace_fits {size : Int} (hmax : d.maxSize ≠ 0)
    (hspace : d.ensureSpace size = (true, d')) : d'.currentSize + size ≤ d'.maxSize := by
  unfold ensureSpace at hspace
  rw [if_neg hmax] at hspace
  exact ensureSpaceLoop_fits hspace

theorem lookup_touch (d : DiskCache) (now : Int) (key : Key) (size : Int) :
    ∃ e : EntryMeta, e.size = size ∧
      ((d.touch now key size).shard key).lru.lookup key = some e := by
  obtain ⟨s, e, he, hlru, -, htouch⟩ := d.touch_spec now key size
  refine ⟨e, he, ?_⟩
  rw [htouch]
  simp only [shard, setShard, update_self, hlru, AList.lookup_insert]

/-- A put keeps the index and the files together, whatever the files of its key are. -/
theorem Backed.touch (hbacked : d.Backed) {disk : Disk} (hdisk : Disk.SameElsewhere d.disk disk key)
    (now : Int) (size : Int) : ({ d with disk := disk }.touch now key size).Backed := by
  have hindex := touch_sameOthers (d := { d with disk := disk }) hbacked.placed now key size
  obtain ⟨e, -, hlookup⟩ := lookup_touch { d with disk := disk } now key size
  refine hbacked.of_sameOthers ⟨hindex.placed, hindex.lookup, hindex.total⟩ hdisk fun hnone => ?_
  exact absurd (hlookup.symm.trans hnone) (by simp)

theorem Backed.bytes_sub_entryBytes_le (hbacked : d.Backed) (hsized : d.Sized)
    (hcovered : ∀ i k e, k ≠ key → (d.shards i).lru.lookup k = some e →
      d.disk.entryBytes k ≤ e.size) : d.disk.bytes - d.disk.entryBytes key ≤ d.recordedSize := by
  let slack : Key → EntryMeta → Int :=
    fun k e => if k = key then 0 else e.size - d.disk.entryBytes k
  have hslack : 0 ≤ d.total slack := by
    refine Finset.sum_nonneg fun i _ => Map.sum_nonneg fun k e hlookup => ?_
    by_cases hk : k = key
    · simp [slack, hk]
    · have hle := hcovered i k e hk hlookup
      simp only [slack, if_neg hk]
      omega
  have hcongr := total_sub_weight_congr hbacked.placed key (f := slack)
    (g := fun k e => e.size - d.disk.entryBytes k) (fun k hk e => by simp [slack, hk])
  have hdiff : d.total (fun k e => e.size - d.disk.entryBytes k) =
      d.recordedSize - d.disk.bytes := by
    rw [← hbacked.balanced]
    unfold recordedSize total
    rw [← Finset.sum_sub_distrib]
    exact Finset.sum_congr rfl fun i _ => Map.sum_sub _ _ _
  have hown : (d.shard key).weight slack key = 0 := by
    unfold LruShard.weight
    cases (d.shard key).lru.lookup key <;> simp [slack]
  have hweight : -d.disk.entryBytes key ≤
      (d.shard key).weight (fun k e => e.size - d.disk.entryBytes k) key := by
    unfold LruShard.weight
    cases hlookup : (d.shard key).lru.lookup key with
    | none => simpa using d.disk.entryBytes_nonneg key
    | some e =>
      have hsize := hsized _ key e hlookup
      simp only [Option.elim_some]
      omega
  omega

end DiskCache

namespace Write

theorem writeFiles_sameElsewhere (w : Write) (d : DiskCache) :
    Disk.SameElsewhere d.disk (w.writeFiles d).disk w.key :=
  (Disk.sameElsewhere_write d.disk w.key (.inl rfl) w.sidecar w.now).trans
    (Disk.sameElsewhere_write _ w.key (.inr rfl) w.body w.now)

/-- The bytes of a written entry are those the call makes space for. -/
theorem entryBytes_writeFiles (w : Write) (d : DiskCache) :
    (w.writeFiles d).disk.entryBytes w.key = w.size := by
  have hne := cachePath_meta_ne_body w.key w.key
  simp [Disk.entryBytes, writeFiles, writeSidecar, hne, fileBytes, size]

/-- A withdrawn write loses the sidecar of its key at most. -/
theorem withdraw_shrinks (w : Write) {d : DiskCache} (hbacked : d.Backed) :
    d.Shrinks (w.withdraw d) := by
  have hfiles : Disk.SameElsewhere d.disk (w.withdraw d).disk w.key :=
    (Disk.sameElsewhere_write d.disk w.key (.inl rfl) w.sidecar w.now).trans
      (Disk.sameElsewhere_remove _ w.key (.inl rfl))
  have hle : (w.withdraw d).disk.entryBytes w.key ≤ d.disk.entryBytes w.key := by
    have hne := (cachePath_meta_ne_body w.key w.key).symm
    have hmeta := fileBytes_nonneg (d.disk.lookup (cachePath w.key metaExt))
    simp only [Disk.entryBytes, withdraw, writeSidecar, Disk.lookup_remove, Disk.lookup_write,
      if_true, if_neg hne]
    have hnone : fileBytes none = 0 := rfl
    omega
  have hbytes := hfiles.bytes
  refine ⟨hbacked.of_sameOthers ⟨hbacked.placed, fun _ _ _ => rfl, fun _ => rfl⟩ hfiles ?_,
    fun _ _ _ h => h, ?_, by omega, rfl⟩
  · intro hnone
    have hzero := hbacked.owned w.key hnone
    have hnonneg := (w.withdraw d).disk.entryBytes_nonneg w.key
    omega
  · intro k
    by_cases hk : k = w.key
    · subst hk
      exact hle
    · rw [hfiles.entryBytes k hk]

end Write

end Peretum.Cache
