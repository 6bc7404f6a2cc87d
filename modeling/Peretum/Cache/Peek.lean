import Peretum.Cache.Provenance

/-!
# Peeking before reading

`Peek` tells whether a fresh sidecar exists, and its caller takes the answer for a promise
that the entry will be streamed. A read also parses the sidecar, within caps that a write
does not know of, and opens the body. This file follows the files of a cache through all
calls that change them and shows when the two agree.
-/

namespace Peretum.Cache

open Go

namespace DiskCache

/-- `Peek` promises a read exactly when the read at the same instant succeeds. -/
def PeekAgrees (d : DiskCache) : Prop :=
  ∀ now key ttl w, d.peek now key ttl = true ↔
    (d.streamCachedResponse now w key ttl).result = .ok ()

/-- Every sidecar can be read and has its body. -/
def Complete (d : DiskCache) : Prop :=
  ∀ key info, d.disk.lookup (cachePath key metaExt) = some info →
    (∃ m, readMetadata info.data = .ok m ∧ 100 ≤ m.statusCode ∧ m.statusCode ≤ 999) ∧
      (d.disk.lookup (cachePath key bodyExt)).isSome

/-- `Peek` finds a sidecar that is not stale. -/
theorem peek_iff (d : DiskCache) (now : Int) (key : Key) (ttl : Int) :
    d.peek now key ttl = true ↔ ∃ info, d.disk.lookup (cachePath key metaExt) = some info ∧
      stale (d.ageLimit ttl) now info = false := by
  unfold peek
  cases d.disk.lookup (cachePath key metaExt) with
  | none | some info => simp

theorem stale_modTime (age : Int) (info : File) : stale age info.modTime info = false := by
  simp only [stale, sub_self, Bool.and_eq_false_iff, decide_eq_false_iff_not]
  omega

/-- `Peek` agrees with reads exactly if every sidecar is complete. -/
theorem peekAgrees_iff_complete (d : DiskCache) : d.PeekAgrees ↔ d.Complete := by
  constructor
  · intro hagrees key info hinfo
    have hpeek := (d.peek_iff info.modTime key 0).mpr ⟨info, hinfo, stale_modTime _ info⟩
    have hok := (hagrees info.modTime key 0 .fresh).mp hpeek
    obtain ⟨info', m, file, hinfo', -, hread, hle, hle', hfile⟩ :=
      (d.streamCachedResponse_ok_iff _ _ _ _).mp hok
    obtain rfl : info = info' := Option.some.inj (hinfo.symm.trans hinfo')
    exact ⟨⟨m, hread, hle, hle'⟩, by rw [hfile]; rfl⟩
  · intro hcomplete now key ttl w
    rw [peek_iff, streamCachedResponse_ok_iff]
    constructor
    · rintro ⟨info, hinfo, hfresh⟩
      obtain ⟨⟨m, hread, hle, hle'⟩, hbody⟩ := hcomplete key info hinfo
      obtain ⟨file, hfile⟩ := Option.isSome_iff_exists.mp hbody
      exact ⟨info, m, file, hinfo, hfresh, hread, hle, hle', hfile⟩
    · rintro ⟨info, m, file, hinfo, hfresh, -⟩
      exact ⟨info, hinfo, hfresh⟩

theorem complete_new (maxSize maxAge : Int) : (new ∅ maxSize maxAge).Complete := by
  intro key info hinfo
  cases hinfo

end DiskCache

/-- For every key the sidecar is gone, or both files are as they were. -/
def Disk.Drops (disk disk' : Disk) : Prop :=
  ∀ key, disk'.lookup (cachePath key metaExt) = none ∨
    (disk'.lookup (cachePath key metaExt) = disk.lookup (cachePath key metaExt) ∧
      disk'.lookup (cachePath key bodyExt) = disk.lookup (cachePath key bodyExt))

namespace Disk.Drops

theorem refl (disk : Disk) : Disk.Drops disk disk := fun _ => .inr ⟨rfl, rfl⟩

theorem trans {disk₁ disk₂ disk₃ : Disk} (h₁ : Disk.Drops disk₁ disk₂)
    (h₂ : Disk.Drops disk₂ disk₃) : Disk.Drops disk₁ disk₃ := by
  intro key
  rcases h₂ key with hnone | ⟨hmeta, hbody⟩
  · exact .inl hnone
  · rw [hmeta, hbody]
    exact h₁ key

theorem removeEntry (disk : Disk) (key : Key) : Disk.Drops disk (Disk.removeEntry disk key) := by
  intro k
  rw [Disk.lookup_meta_removeEntry, Disk.lookup_body_removeEntry]
  by_cases hk : k = key
  · exact .inl (if_pos hk)
  · exact .inr ⟨if_neg hk, if_neg hk⟩

theorem withoutMeta {disk disk' : Disk} {key : Key} (hlookup : ∀ p, disk'.lookup p =
    if p = cachePath key metaExt then none else disk.lookup p) : Disk.Drops disk disk' := by
  intro k
  by_cases hk : k = key
  · exact .inl ((hlookup _).trans (if_pos (by rw [hk])))
  · exact .inr ⟨(hlookup _).trans (if_neg fun h => hk (cachePath_injective h)),
      (hlookup _).trans (if_neg (cachePath_meta_ne_body key k).symm)⟩

theorem sweepFiles (disk : Disk) (key : Key) : Disk.Drops disk (DiskCache.sweepFiles disk key) := by
  refine (withoutMeta (Disk.lookup_remove disk (cachePath key metaExt))).trans fun k => .inr ?_
  -- The path that lacks the subdirectory is none of an entry.
  have hother : ∀ ext, cachePath k ext ≠ [key.digits.drop 2 ++ bodyExt] := by simp [cachePath]
  exact ⟨by rw [DiskCache.sweepFiles, Disk.lookup_remove, if_neg (hother _)],
    by rw [DiskCache.sweepFiles, Disk.lookup_remove, if_neg (hother _)]⟩

theorem foldl {α : Type*} {f : Disk → α → Disk} (hf : ∀ disk a, Disk.Drops disk (f disk a))
    (disk : Disk) (as : List α) : Disk.Drops disk (as.foldl f disk) := by
  induction as generalizing disk with
  | nil => exact refl disk
  | cons a as ih => exact (hf disk a).trans (ih (f disk a))

theorem purgeFiles (disk : Disk) (sel : Str → Str → Bool) :
    Disk.Drops disk (Cache.purgeFiles disk sel).2 := by
  intro key
  obtain ⟨hmeta, hbody⟩ := lookup_purgeFiles disk sel key
  rw [hmeta, hbody]
  by_cases hmatch : probeMatches disk sel (cachePath key metaExt) = true
  · exact .inl (if_pos hmatch)
  · exact .inr ⟨if_neg hmatch, if_neg hmatch⟩

end Disk.Drops

namespace DiskCache

theorem Complete.drops {d d' : DiskCache} (hd : d.Complete) (hdrops : Disk.Drops d.disk d'.disk) :
    d'.Complete := by
  intro key info hinfo
  rcases hdrops key with hnone | ⟨hmeta, hbody⟩
  · rw [hnone] at hinfo
    cases hinfo
  · rw [hbody]
    exact hd key info (hmeta.symm.trans hinfo)

theorem ensureSpace_drops (d : DiskCache) (size : Int) :
    Disk.Drops d.disk (d.ensureSpace size).2.disk := by
  refine @ensureSpace_invariant (fun c => Disk.Drops d.disk c.disk) (fun c c' hdrops hevict => ?_)
    d (.refl _) size
  obtain ⟨i, s, key, e, -, -, -, -, rfl⟩ := evict_spec hevict
  exact hdrops.trans (.removeEntry c.disk key)

theorem sweep_drops (d : DiskCache) (now : Fin shardCount → Int) :
    Disk.Drops d.disk (d.sweep now).disk := by
  unfold sweep
  induction List.finRange shardCount generalizing d with
  | nil => exact .refl _
  | cons i rest ih =>
    refine Disk.Drops.trans ?_ (ih (d.sweepShard (now i) i))
    exact .foldl .sweepFiles d.disk _

end DiskCache

namespace Write

theorem exists_readMetadata_sidecar {w : Write}
    (hstorable : DiskCache.storable w.statusCode w.body = true)
    (hreadable : Readable w.host w.path w.headers) :
    ∃ m, readMetadata w.sidecar = .ok m ∧ 100 ≤ m.statusCode ∧ m.statusCode ≤ 999 := by
  have hstatus := DiskCache.status_of_storable hstorable
  have hencodable : Encodable w.statusCode w.host w.path w.headers :=
    hreadable.encodable (by omega)
  have hvalid : 100 ≤ w.statusCode ∧ w.statusCode ≤ 999 := by omega
  exact ⟨_, (readMetadata_sidecar_iff hencodable).mpr ⟨hreadable, rfl⟩, hvalid.1, hvalid.2⟩

/-- A write keeps a cache complete, if the sidecar it stores stays within the caps. -/
theorem complete_run (w : Write) {d : DiskCache} (hd : d.Complete)
    (hreadable : w.stores (w.run d).1 = true → Readable w.host w.path w.headers) :
    (w.run d).2.Complete := by
  have hends := w.run_ends d
  generalize w.run d = outcome at hends hreadable ⊢
  have hspaced : ∀ {ok d'}, d.ensureSpace w.size = (ok, d') → Disk.Drops d.disk d'.disk := by
    intro ok d' hspace
    have hdrops := d.ensureSpace_drops w.size
    rwa [hspace] at hdrops
  cases hends with
  | skipped hstorable => exact hd
  | failed hspace e => exact hd.drops (hspaced hspace)
  | @withdrawn d' hspace =>
    have hlookup : ∀ p, (w.withdraw d').disk.lookup p =
        if p = cachePath w.key metaExt then none else d'.disk.lookup p := by
      intro p
      simp only [withdraw, writeSidecar, Disk.lookup_remove, Disk.lookup_write]
      split <;> rfl
    exact hd.drops ((hspaced hspace).trans (.withoutMeta hlookup))
  | @stored d' hstorable hspace =>
    have hread := exists_readMetadata_sidecar hstorable (hreadable (by
      simp [stores, hstorable, Except.isOk, Except.toBool]))
    have hfiles := w.lookup_writeFiles d'
    intro key info hinfo
    replace hinfo := (hfiles _).symm.trans hinfo
    rw [if_neg (cachePath_meta_ne_body key w.key)] at hinfo
    change _ ∧ ((w.writeFiles d').disk.lookup (cachePath key bodyExt)).isSome
    rw [hfiles]
    by_cases hkey : key = w.key
    · rw [hkey, if_pos rfl] at hinfo
      rw [hkey, if_pos rfl, ← Option.some.inj hinfo]
      exact ⟨hread, rfl⟩
    · rw [if_neg fun h => hkey (cachePath_injective h)] at hinfo
      rw [if_neg fun h => hkey (cachePath_injective h),
        if_neg (cachePath_meta_ne_body w.key key).symm]
      exact (hd.drops (hspaced hspace)) key info hinfo

theorem readable_of_complete {w : Write} {d : DiskCache}
    (hencodable : Encodable w.statusCode w.host w.path w.headers)
    (hstores : w.stores (w.run d).1 = true) (hcomplete : (w.run d).2.Complete) :
    Readable w.host w.path w.headers := by
  simp only [stores, Bool.and_eq_true] at hstores
  have hok : (w.run d).1 = .ok () := by
    cases hresult : (w.run d).1 with
    | error e => simp [hresult, Except.isOk, Except.toBool] at hstores
    | ok u => rfl
  have hmeta := DiskCache.lookup_meta_setResponseToCache hstores.1 hok
  obtain ⟨⟨m, hread, -⟩, -⟩ := hcomplete w.key _ hmeta
  exact ((readMetadata_sidecar_iff hencodable).mp hread).1

end Write

/-- A call that works on the files of a cache. -/
inductive FileCall where
  | cache (op : CacheOp)
  /-- A purge of the directory by another process. -/
  | purgeFiles (e : PurgeEvent)
  | restart (maxSize maxAge : Int)

namespace FileCall

/-- The cache after a call. -/
def run (d : DiskCache) : FileCall → DiskCache
  | cache op => op.run d
  | purgeFiles e => { d with disk := (purgeCache d.disk e).2 }
  | restart maxSize maxAge => .new d.disk maxSize maxAge

/-- The cache after a sequence of calls. -/
def runAll (d : DiskCache) (calls : List FileCall) : DiskCache := calls.foldl run d

theorem run_drops (d : DiskCache) {call : FileCall} (hset : ∀ w, call ≠ .cache (.set w)) :
    Disk.Drops d.disk (call.run d).disk := by
  cases call with
  | cache op =>
    cases op with
    | set w => exact absurd rfl (hset w)
    | stream now w key ttl =>
      change Disk.Drops d.disk (d.streamCachedResponse now w key ttl).cache.disk
      rcases d.streamCachedResponse_cases now w key ttl with ⟨-, hcache⟩ | ⟨-, hcache⟩ |
        ⟨info, m, -, -, -, hcache⟩
      · rw [hcache]
        exact .refl _
      · rw [hcache, DiskCache.remove_eq]
        exact .removeEntry _ _
      · rw [hcache]
        exact .refl _
    | sweep now => exact d.sweep_drops now
    | evict =>
      simp only [run, CacheOp.run]
      cases hevict : d.evict with
      | none => exact .refl _
      | some d' =>
        obtain ⟨i, s, key, e, -, -, -, -, rfl⟩ := DiskCache.evict_spec hevict
        exact .removeEntry _ _
    | purgeAll => exact .foldl .removeEntry _ _
    | _ => exact .refl _
  | purgeFiles e =>
    simp only [run, purgeCache]
    split_ifs
    · exact .purgeFiles _ _
    · exact .purgeFiles _ _
    · exact .purgeFiles _ _
    · exact .purgeFiles _ _
  | restart maxSize maxAge => exact .refl _

/-- A call keeps a cache complete, if a sidecar it stores stays within the caps. -/
theorem complete_run {d : DiskCache} (hd : d.Complete) (call : FileCall)
    (hreadable : ∀ w, call = .cache (.set w) → w.stores (w.run d).1 = true →
      Readable w.host w.path w.headers) : (call.run d).Complete := by
  by_cases hset : ∃ w, call = .cache (.set w)
  · obtain ⟨w, rfl⟩ := hset
    exact w.complete_run hd (hreadable w rfl)
  · exact hd.drops (run_drops d fun w hw => hset ⟨w, hw⟩)

/-- The responses that are stored in the course of a sequence of calls. -/
def Stored (d : DiskCache) (calls : List FileCall) (w : Write) : Prop :=
  ∃ before after, calls = before ++ .cache (.set w) :: after ∧
    w.stores (w.run (runAll d before)).1 = true

theorem Stored.concat {d : DiskCache} {calls : List FileCall} {w : Write}
    (hstored : Stored d calls w) (call : FileCall) : Stored d (calls ++ [call]) w := by
  obtain ⟨before, after, rfl, hstores⟩ := hstored
  exact ⟨before, after ++ [call], by simp, hstores⟩

/-- A cache stays complete as long as the sidecars stay within the caps. -/
theorem complete_runAll {d : DiskCache} (hd : d.Complete) {calls : List FileCall}
    (hreadable : ∀ w, Stored d calls w → Readable w.host w.path w.headers) :
    (runAll d calls).Complete := by
  induction calls using List.reverseRecOn with
  | nil => exact hd
  | append_singleton calls call ih =>
    have hbefore := ih fun w hstored => hreadable w (hstored.concat call)
    rw [runAll, List.foldl_append, List.foldl_cons, List.foldl_nil]
    refine complete_run hbefore call fun w hw hstores => hreadable w ⟨calls, [], ?_, hstores⟩
    rw [hw]

/-- `Peek` agrees with reads after every call. -/
def PeekAgreesThroughout (d : DiskCache) (calls : List FileCall) : Prop :=
  ∀ before after, calls = before ++ after → (runAll d before).PeekAgrees

/-- In every sequence of calls on a new cache `Peek` agrees with reads throughout, if every
response that is stored stays within the caps of `readMetadata`, and only then, as far as the
format can represent the responses at all. -/
theorem peekAgreesThroughout_iff (maxSize maxAge : Int) (calls : List FileCall) :
    ((∀ w, Stored (.new ∅ maxSize maxAge) calls w → Readable w.host w.path w.headers) →
      PeekAgreesThroughout (.new ∅ maxSize maxAge) calls) ∧
    ((∀ w, Stored (.new ∅ maxSize maxAge) calls w →
        Encodable w.statusCode w.host w.path w.headers) →
      PeekAgreesThroughout (.new ∅ maxSize maxAge) calls →
      ∀ w, Stored (.new ∅ maxSize maxAge) calls w → Readable w.host w.path w.headers) := by
  constructor
  · rintro hreadable before after rfl
    rw [DiskCache.peekAgrees_iff_complete]
    refine complete_runAll (DiskCache.complete_new maxSize maxAge) fun w hstored => hreadable w ?_
    obtain ⟨before', after', rfl, hstores⟩ := hstored
    exact ⟨before', after' ++ after, by simp, hstores⟩
  · intro hencodable hagrees w hstored
    have hfits := hencodable w hstored
    obtain ⟨before, after, rfl, hstores⟩ := hstored
    -- Right after the write the sidecar is there.
    have hafter := hagrees (before ++ [.cache (.set w)]) after (by simp)
    rw [DiskCache.peekAgrees_iff_complete, runAll, List.foldl_append] at hafter
    exact Write.readable_of_complete hfits hstores hafter

/-- The write of a response with one header. -/
def headerWrite (value : Str) : Write :=
  ⟨0, ⟨true, true⟩, zeroKey, str "example.com", str "/a", 200,
    AList.insert (str "X-Debug") [value] ∅, str "x"⟩

theorem mem_headerWrite {value : Str} {e : Sigma fun _ : Str => List Str}
    (he : e ∈ (headerWrite value).headers.entries) : e = ⟨str "X-Debug", [value]⟩ :=
  List.mem_singleton.mp he

/-- A write whose header is too long to be read leaves a sidecar no read accepts. -/
theorem headerWrite_unreadable {value : Str} (hlong : maxMetaString < value.length)
    (hfits : value.length < 2 ^ 32) :
    (((headerWrite value).run (.new ∅ 0 0)).2.streamCachedResponse 0 .fresh zeroKey 0).result ≠
      .ok () := by
  have hencodable : Encodable (headerWrite value).statusCode (headerWrite value).host
      (headerWrite value).path (headerWrite value).headers := by
    refine ⟨?_, ?_, ?_, ?_, ?_⟩
    · exact (by decide : 200 < 2 ^ 16)
    · exact (by decide : (str "example.com").length < 2 ^ 32)
    · exact (by decide : (str "/a").length < 2 ^ 32)
    · exact (by decide : 1 < 2 ^ 32)
    · intro e he
      rw [mem_headerWrite he, join_singleton]
      exact ⟨(by decide : (str "X-Debug").length < 2 ^ 32), hfits⟩
  have hmeta := DiskCache.lookup_meta_setResponseToCache (d := .new ∅ 0 0)
    (show DiskCache.storable 200 (str "x") = true by decide)
    (show ((headerWrite value).run (.new ∅ 0 0)).1 = .ok () from rfl)
  intro hok
  obtain ⟨info, m, file, hinfo, -, hread, -⟩ :=
    (DiskCache.streamCachedResponse_ok_iff _ _ _ _ _).mp hok
  obtain rfl := Option.some.inj (hmeta.symm.trans hinfo)
  have hreadable := ((Write.readMetadata_sidecar_iff hencodable).mp hread).1
  have hshort := (hreadable.header ⟨str "X-Debug", [value]⟩ (List.mem_singleton.mpr rfl)).2
  rw [join_singleton] at hshort
  omega

/-- A header value of more than a mebibyte is stored. `Peek` then promises an entry that
cannot be read. -/
theorem longHeader_peek_disagrees :
    ((headerWrite (List.replicate 1048577 0x78)).run (.new ∅ 0 0)).1 = .ok () ∧
      ((headerWrite (List.replicate 1048577 0x78)).run (.new ∅ 0 0)).2.peek 0 zeroKey 0 = true ∧
      (((headerWrite (List.replicate 1048577 0x78)).run (.new ∅ 0 0)).2.streamCachedResponse 0
        .fresh zeroKey 0).result ≠ .ok () := by
  have hlength : (List.replicate 1048577 (0x78 : UInt8)).length = 1048577 := List.length_replicate
  refine ⟨rfl, rfl, headerWrite_unreadable ?_ ?_⟩
  · rw [hlength]
    decide
  · rw [hlength]
    decide

/-- A response is stored and read, and its site is purged. -/
def plainCalls : List FileCall :=
  [.cache (.set (headerWrite (str "on"))), .cache (.stream 0 .fresh zeroKey 0),
    .cache (.sweep fun _ => 0), .purgeFiles (.mk (str "example.com") [] [] false)]

/-- `Peek` agrees with reads throughout these calls. -/
theorem plainCalls_peekAgrees : PeekAgreesThroughout (.new ∅ 0 0) plainCalls := by
  refine (peekAgreesThroughout_iff 0 0 plainCalls).1 fun w hstored => ?_
  obtain ⟨before, after, hcalls, -⟩ := hstored
  have hmem : FileCall.cache (.set w) ∈ plainCalls := by
    rw [hcalls]
    exact List.mem_append_right before List.mem_cons_self
  have hw : w = headerWrite (str "on") := by simpa [plainCalls] using hmem
  rw [hw]
  refine ⟨by decide, by decide, by decide, fun e he => ?_⟩
  rw [mem_headerWrite he]
  decide

end FileCall

end Peretum.Cache
