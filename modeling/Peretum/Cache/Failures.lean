import Peretum.Cache.Provenance

/-!
# Writes that fail

`SetResponseToCache` evicts entries until there is space, and then puts the sidecar and the
body in place, each by way of a temporary file that is renamed. Any of these steps can
fail. This file refines the sequential write by the temporary files and determines the
failures that leave the cache as it was.
-/

namespace Peretum.Cache

open Go

namespace Failures

/-- The step at which `writeAtomic` fails. -/
inductive Fault where
  /-- `os.CreateTemp` fails. -/
  | create
  /-- Writing fails after some bytes. -/
  | write (count : Nat)
  | sync
  | close
  /-- `os.Rename` fails. -/
  | rename
  deriving DecidableEq

/-- What a call of `writeAtomic` meets. -/
structure Attempt where
  /-- What `os.CreateTemp` appends to its pattern. -/
  suffix : Str
  fault : Option Fault

/-- The temporary file for a path, in the same directory. -/
def tempPath (path : Path) (suffix : Str) : Path :=
  path.dropLast ++ [str ".cache-tmp-" ++ suffix]

/-- `os.Rename`. -/
def rename (disk : Disk) (old new : Path) : Disk :=
  match disk.lookup old with
  | some file => (Disk.remove disk old).insert new file
  | none => disk

/-- `writeAtomic`: whether it succeeds, and the files it leaves. -/
def writeAtomic (disk : Disk) (now : Int) (a : Attempt) (path : Path) (data : Str) : Bool × Disk :=
  let tmpPath := tempPath path a.suffix
  match a.fault with
  | some .create => (false, disk)
  | some (.write count) =>
      (false, Disk.remove (Disk.write disk tmpPath (data.take count) now) tmpPath)
  | some .sync | some .close => (false, Disk.remove (Disk.write disk tmpPath data now) tmpPath)
  | some .rename => (false, Disk.write disk tmpPath data now)
  | none => (true, rename (Disk.write disk tmpPath data now) tmpPath path)

/-- What the two calls of `writeAtomic` meet. -/
structure Attempts where
  sidecar : Attempt
  body : Attempt

/-- Which of the calls succeed. -/
def Attempts.outcome (io : Attempts) : DiskCache.WriteOutcome :=
  ⟨io.sidecar.fault.isNone, io.body.fault.isNone⟩

/-- `os.CreateTemp` picks names that are not in use. -/
def Attempts.Free (io : Attempts) (disk : Disk) (key : Key) : Prop :=
  disk.lookup (tempPath (cachePath key metaExt) io.sidecar.suffix) = none ∧
    disk.lookup (tempPath (cachePath key bodyExt) io.body.suffix) = none

/-- `SetResponseToCache`, with its temporary files. -/
def setResponseToCache (d : DiskCache) (now : Int) (io : Attempts) (key : Key) (host path : Str)
    (statusCode : Nat) (headers : Header) (body : Str) :
    Except DiskCache.SetError Unit × DiskCache :=
  if !DiskCache.storable statusCode body then (.ok (), d)
  else
    let sidecar := writeMetadata statusCode host path headers
    let totalSize : Int := sidecar.length + body.length
    match d.ensureSpace totalSize with
    | (false, d) => (.error .cacheFull, d)
    | (true, d) =>
        match writeAtomic d.disk now io.sidecar (cachePath key metaExt) sidecar with
        | (false, disk) => (.error .metaWrite, { d with disk := disk })
        | (true, disk) =>
            match writeAtomic disk now io.body (cachePath key bodyExt) body with
            | (false, disk) =>
                (.error .bodyWrite, { d with disk := Disk.remove disk (cachePath key metaExt) })
            | (true, disk) => (.ok (), { d with disk := disk }.touch now key totalSize)

/-- A temporary file is not a file of an entry: its name starts with a dot. -/
theorem tempPath_ne_cachePath (path : Path) (suffix : Str) (key : Key) (ext : Str) :
    tempPath path suffix ≠ cachePath key ext := by
  intro heq
  have hlast := congrArg List.getLast? heq
  rw [tempPath, List.getLast?_concat] at hlast
  have hname : str ".cache-tmp-" ++ suffix = key.digits.drop 2 ++ ext := Option.some.inj hlast
  obtain ⟨b, rest, hdrop⟩ : ∃ b rest, key.digits.drop 2 = b :: rest := by
    cases hdrop : key.digits.drop 2 with
    | nil =>
      have hlength := congrArg List.length hdrop
      rw [List.length_drop, key.length_eq] at hlength
      cases hlength
    | cons b rest => exact ⟨b, rest, rfl⟩
  have hhex : isHexDigit b = true := by
    refine List.all_eq_true.mp key.hex b (List.mem_of_mem_drop (i := 2) ?_)
    rw [hdrop]
    exact List.mem_cons_self
  rw [hdrop] at hname
  have hdot : b = 0x2E := (List.cons.inj hname).1.symm
  rw [hdot] at hhex
  revert hhex
  decide

section writeAtomic

variable {disk : Disk} {a : Attempt} {path : Path}

theorem writeAtomic_fst (disk : Disk) (now : Int) (a : Attempt) (path : Path) (data : Str) :
    (writeAtomic disk now a path data).1 = a.fault.isNone := by
  unfold writeAtomic
  rcases a.fault with _ | _ | _ | _ | _ | _ <;> rfl

/-- A call that succeeds has written the file. -/
theorem lookup_writeAtomic_done (hfault : a.fault = none)
    (hfree : disk.lookup (tempPath path a.suffix) = none) (hne : tempPath path a.suffix ≠ path)
    (now : Int) (data : Str) (p : Path) :
    (writeAtomic disk now a path data).2.lookup p = (Disk.write disk path data now).lookup p := by
  simp only [writeAtomic, hfault, rename, Disk.lookup_write, if_true]
  by_cases hp : p = path
  · subst hp
    rw [AList.lookup_insert, if_pos rfl]
  · rw [AList.lookup_insert_ne hp, if_neg hp, Disk.lookup_remove, Disk.lookup_write]
    split
    · next htmp => rw [htmp, hfree]
    · rfl

/-- A call whose rename fails leaves its temporary file. -/
theorem lookup_writeAtomic_rename (hfault : a.fault = some .rename) (disk : Disk) (path : Path)
    (now : Int) (data : Str) (p : Path) :
    (writeAtomic disk now a path data).2.lookup p =
      (Disk.write disk (tempPath path a.suffix) data now).lookup p := by
  simp only [writeAtomic, hfault]

theorem lookup_writeAtomic_failed (hfailed : a.fault ≠ none) (hfault : a.fault ≠ some .rename)
    (hfree : disk.lookup (tempPath path a.suffix) = none) (now : Int) (data : Str) (p : Path) :
    (writeAtomic disk now a path data).2.lookup p = disk.lookup p := by
  have hcleaned : ∀ data, (Disk.remove (Disk.write disk (tempPath path a.suffix) data now)
      (tempPath path a.suffix)).lookup p = disk.lookup p := by
    intro data
    rw [Disk.lookup_remove, Disk.lookup_write]
    split
    · next htmp => rw [htmp, hfree]
    · rfl
  cases hcase : a.fault with
  | none => exact absurd hcase hfailed
  | some fault =>
    cases fault with
    | create => simp only [writeAtomic, hcase]
    | write count | sync | close => simpa only [writeAtomic, hcase] using hcleaned _
    | rename => exact absurd hcase hfault

/-- A call that fails leaves the entries alone. -/
theorem lookup_writeAtomic_cachePath (hfailed : a.fault ≠ none)
    (hfree : disk.lookup (tempPath path a.suffix) = none) (now : Int) (data : Str) (key : Key)
    (ext : Str) : (writeAtomic disk now a path data).2.lookup (cachePath key ext) =
      disk.lookup (cachePath key ext) := by
  by_cases hfault : a.fault = some .rename
  · rw [lookup_writeAtomic_rename hfault, Disk.lookup_write,
      if_neg (tempPath_ne_cachePath _ _ _ _).symm]
  · exact lookup_writeAtomic_failed hfailed hfault hfree now data _

end writeAtomic

end Failures

namespace DiskCache

/-- An entry of some size can be stored without an eviction. -/
def Fits (d : DiskCache) (size : Int) : Prop := d.maxSize = 0 ∨ d.currentSize + size ≤ d.maxSize

/-- Some shard has an entry to give up. -/
def Evictable (d : DiskCache) : Prop := ∃ i, (d.shards i).evict.1.isSome

/-- The loop of `evict` finds nothing in shards that have nothing to give up. -/
theorem evictFrom_eq_none_iff (d : DiskCache) (shards : List (Fin shardCount)) :
    d.evictFrom shards = none ↔ ∀ i ∈ shards, (d.shards i).evict.1 = none := by
  induction shards with
  | nil => simp [evictFrom]
  | cons i rest ih =>
    rw [evictFrom, List.forall_mem_cons, ← ih]
    cases hevict : (d.shards i).evict with
    | mk entry s =>
      cases entry with
      | none | some entry => simp

theorem evict_eq_none_iff (d : DiskCache) : d.evict = none ↔ ¬ d.Evictable := by
  rw [evict, evictFrom_eq_none_iff, Evictable]
  simp

theorem ensureSpace_of_fits {d : DiskCache} {size : Int} (hfits : d.Fits size) :
    d.ensureSpace size = (true, d) := by
  unfold ensureSpace
  split
  · rfl
  · next hmax =>
    have hle := hfits.resolve_left hmax
    rw [ensureSpaceLoop, if_neg (by omega)]

/-- Without an entry to give up no space is made. -/
theorem ensureSpace_of_not_evictable {d : DiskCache} {size : Int} (hfits : ¬ d.Fits size)
    (hnone : ¬ d.Evictable) : d.ensureSpace size = (false, d) := by
  obtain ⟨hmax, hgt⟩ := not_or.mp hfits
  rw [ensureSpace, if_neg hmax, ensureSpaceLoop, if_pos (by omega), (evict_eq_none_iff d).mpr hnone]

/-- Otherwise at least one entry is no longer tracked. -/
theorem tracked_ensureSpace_lt {d : DiskCache} {size : Int} (hfits : ¬ d.Fits size)
    (hsome : d.Evictable) : (d.ensureSpace size).2.tracked < d.tracked := by
  obtain ⟨hmax, hgt⟩ := not_or.mp hfits
  rw [ensureSpace, if_neg hmax, ensureSpaceLoop, if_pos (by omega)]
  cases hevict : d.evict with
  | none => exact absurd hsome ((evict_eq_none_iff d).mp hevict)
  | some d' =>
    have hloop : (ensureSpaceLoop d.tracked d' size).2.tracked ≤ d'.tracked :=
      @ensureSpaceLoop_invariant (fun c => c.tracked ≤ d'.tracked)
        (fun _ _ hle hnext => (tracked_lt_of_evict hnext).le.trans hle) d' le_rfl d.tracked size
    exact hloop.trans_lt (tracked_lt_of_evict hevict)

end DiskCache

namespace Failures

/-- A call of `SetResponseToCache` with its temporary files; `io` says what becomes of them. -/
def run (w : Write) (io : Attempts) (d : DiskCache) : Except DiskCache.SetError Unit × DiskCache :=
  setResponseToCache d w.now io w.key w.host w.path w.statusCode w.headers w.body

/-- The files after the call of `writeAtomic` for the sidecar. -/
def sidecarDisk (w : Write) (io : Attempts) (d : DiskCache) : Disk :=
  (writeAtomic d.disk w.now io.sidecar (cachePath w.key metaExt) w.sidecar).2

/-- The files after the call of `writeAtomic` for the body. -/
def bodyDisk (w : Write) (io : Attempts) (d : DiskCache) : Disk :=
  (writeAtomic (sidecarDisk w io d) w.now io.body (cachePath w.key bodyExt) w.body).2

/-- How a call can end. -/
inductive Ends (w : Write) (io : Attempts) (d : DiskCache) :
    Except DiskCache.SetError Unit × DiskCache → Prop where
  | skipped (hstorable : DiskCache.storable w.statusCode w.body = false) : Ends w io d (.ok (), d)
  | full {d' : DiskCache} (hstorable : DiskCache.storable w.statusCode w.body = true)
      (hspace : d.ensureSpace w.size = (false, d')) :
      Ends w io d (.error .cacheFull, d')
  /-- The sidecar cannot be written. -/
  | metaFailed {d' : DiskCache} (hstorable : DiskCache.storable w.statusCode w.body = true)
      (hspace : d.ensureSpace w.size = (true, d'))
      (hmeta : io.sidecar.fault ≠ none) :
      Ends w io d (.error .metaWrite, { d' with disk := sidecarDisk w io d' })
  | bodyFailed {d' : DiskCache} (hstorable : DiskCache.storable w.statusCode w.body = true)
      (hspace : d.ensureSpace w.size = (true, d'))
      (hmeta : io.sidecar.fault = none) (hbody : io.body.fault ≠ none) :
      Ends w io d (.error .bodyWrite,
        { d' with disk := Disk.remove (bodyDisk w io d') (cachePath w.key metaExt) })
  | stored {d' : DiskCache} (hstorable : DiskCache.storable w.statusCode w.body = true)
      (hspace : d.ensureSpace w.size = (true, d'))
      (hmeta : io.sidecar.fault = none) (hbody : io.body.fault = none) :
      Ends w io d (.ok (), { d' with disk := bodyDisk w io d' }.touch w.now w.key w.size)

theorem run_ends (w : Write) (io : Attempts) (d : DiskCache) : Ends w io d (run w io d) := by
  unfold run setResponseToCache
  cases hstorable : DiskCache.storable w.statusCode w.body with
  | false => exact .skipped hstorable
  | true =>
    have hsize : d.ensureSpace ((writeMetadata w.statusCode w.host w.path w.headers).length +
        w.body.length) = d.ensureSpace w.size := rfl
    simp only [Bool.not_true, Bool.false_eq_true, if_false, hsize]
    cases hspace : d.ensureSpace w.size with
    | mk ok d' =>
      cases ok with
      | false => exact .full hstorable hspace
      | true =>
        have hmeta : writeAtomic d'.disk w.now io.sidecar (cachePath w.key metaExt)
            (writeMetadata w.statusCode w.host w.path w.headers) =
            (io.sidecar.fault.isNone, sidecarDisk w io d') :=
          Prod.ext (writeAtomic_fst _ _ _ _ _) rfl
        have hbody : writeAtomic (sidecarDisk w io d') w.now io.body (cachePath w.key bodyExt)
            w.body = (io.body.fault.isNone, bodyDisk w io d') :=
          Prod.ext (writeAtomic_fst _ _ _ _ _) rfl
        simp only [hmeta]
        cases hsidecar : io.sidecar.fault with
        | some f => exact .metaFailed hstorable hspace (by simp [hsidecar])
        | none =>
          simp only [Option.isNone_none, hbody]
          cases hfault : io.body.fault with
          | some f => exact .bodyFailed hstorable hspace hsidecar (by simp [hfault])
          | none => exact .stored hstorable hspace hsidecar hfault

section lookups

variable {w : Write} {io : Attempts} {d : DiskCache}

theorem Attempts.Free.of_loses {disk : Disk} {key : Key} (hfree : io.Free disk key) {d' : DiskCache}
    (hloses : ∀ path file, d'.disk.lookup path = some file → disk.lookup path = some file) :
    io.Free d'.disk key := by
  have hnone : ∀ path, disk.lookup path = none → d'.disk.lookup path = none := by
    intro path hpath
    cases hfile : d'.disk.lookup path with
    | none => rfl
    | some file =>
      rw [hloses path file hfile] at hpath
      cases hpath
  exact ⟨hnone _ hfree.1, hnone _ hfree.2⟩

theorem lookup_sidecarDisk (hfree : io.Free d.disk w.key) (hmeta : io.sidecar.fault = none)
    (p : Path) : (sidecarDisk w io d).lookup p = (w.writeSidecar d).disk.lookup p :=
  lookup_writeAtomic_done hmeta hfree.1 (tempPath_ne_cachePath _ _ _ _) w.now w.sidecar p

/-- The name of the second temporary file is still not in use then. -/
theorem lookup_sidecarDisk_temp (hfree : io.Free d.disk w.key) (hmeta : io.sidecar.fault = none) :
    (sidecarDisk w io d).lookup (tempPath (cachePath w.key bodyExt) io.body.suffix) = none := by
  rw [lookup_sidecarDisk hfree hmeta, Write.writeSidecar, Disk.lookup_write,
    if_neg (tempPath_ne_cachePath _ _ _ _), hfree.2]

theorem lookup_bodyDisk (hfree : io.Free d.disk w.key) (hmeta : io.sidecar.fault = none)
    (hbody : io.body.fault = none) (p : Path) :
    (bodyDisk w io d).lookup p = (w.writeFiles d).disk.lookup p := by
  rw [bodyDisk, lookup_writeAtomic_done hbody (lookup_sidecarDisk_temp hfree hmeta)
    (tempPath_ne_cachePath _ _ _ _), Disk.lookup_write, lookup_sidecarDisk hfree hmeta,
    Write.writeFiles, Disk.lookup_write]

theorem lookup_bodyDisk_failed (hfree : io.Free d.disk w.key) (hmeta : io.sidecar.fault = none)
    (hbody : io.body.fault ≠ none) (hrename : io.body.fault ≠ some .rename) (p : Path) :
    (Disk.remove (bodyDisk w io d) (cachePath w.key metaExt)).lookup p =
      if p = cachePath w.key metaExt then none else d.disk.lookup p := by
  rw [Disk.lookup_remove, bodyDisk,
    lookup_writeAtomic_failed hbody hrename (lookup_sidecarDisk_temp hfree hmeta),
    lookup_sidecarDisk hfree hmeta, Write.writeSidecar, Disk.lookup_write]
  split <;> rfl

end lookups

/-- The two embeddings of the call return the same and leave the same index and the same
entries: they differ in temporary files only. -/
theorem run_refines (w : Write) {io : Attempts} {d : DiskCache} (hfree : io.Free d.disk w.key) :
    (run w io d).1 = ({ w with io := io.outcome }.run d).1 ∧
      (run w io d).2.shards = ({ w with io := io.outcome }.run d).2.shards ∧
      (run w io d).2.currentSize = ({ w with io := io.outcome }.run d).2.currentSize ∧
      ∀ key ext, (run w io d).2.disk.lookup (cachePath key ext) =
        ({ w with io := io.outcome }.run d).2.disk.lookup (cachePath key ext) := by
  have hsize : d.ensureSpace ((writeMetadata w.statusCode w.host w.path w.headers).length +
      w.body.length) = d.ensureSpace w.size := rfl
  have hfree' : io.Free (d.ensureSpace w.size).2.disk w.key :=
    hfree.of_loses (DiskCache.ensureSpace_loses d w.size)
  have hends := run_ends w io d
  simp only [Write.run, DiskCache.setResponseToCache, hsize, Attempts.outcome]
  generalize run w io d = r at hends ⊢
  cases hends with
  | skipped hstorable => simp [hstorable]
  | full hstorable hspace => simp [hstorable, hspace]
  | metaFailed hstorable hspace hmeta =>
    rw [hspace] at hfree'
    have hsome := Option.isNone_eq_false_iff.mpr (Option.isSome_iff_ne_none.mpr hmeta)
    simp only [hstorable, hspace, hsome]
    exact ⟨rfl, rfl, rfl, lookup_writeAtomic_cachePath hmeta hfree'.1 _ _⟩
  | bodyFailed hstorable hspace hmeta hbody =>
    rw [hspace] at hfree'
    have hsome := Option.isNone_eq_false_iff.mpr (Option.isSome_iff_ne_none.mpr hbody)
    simp only [hstorable, hspace, hmeta, hsome]
    refine ⟨rfl, rfl, rfl, fun key ext => ?_⟩
    have hbodyDisk : (bodyDisk w io _).lookup (cachePath key ext) =
        (sidecarDisk w io _).lookup (cachePath key ext) :=
      lookup_writeAtomic_cachePath hbody (lookup_sidecarDisk_temp hfree' hmeta) _ _ key ext
    exact (Disk.lookup_remove _ _ _).trans (by
      rw [hbodyDisk, lookup_sidecarDisk hfree' hmeta]
      exact (Disk.lookup_remove _ _ _).symm)
  | stored hstorable hspace hmeta hbody =>
    rw [hspace] at hfree'
    simp only [hstorable, hspace, hmeta, hbody]
    exact ⟨rfl, rfl, rfl, fun key ext => lookup_bodyDisk hfree' hmeta hbody _⟩

/-- The cache is as it was: every read is served as before, the index and the counter are
the same, and there is no new temporary file. -/
structure Unchanged (d d' : DiskCache) : Prop where
  served : ∀ now key ttl w, d.servedTTL now key ttl = some w → d'.servedTTL now key ttl = some w
  shards : d'.shards = d.shards
  currentSize : d'.currentSize = d.currentSize
  temporaries : ∀ path suffix file, d'.disk.lookup (tempPath path suffix) = some file →
    d.disk.lookup (tempPath path suffix) = some file

/-- The failures that change nothing: there is no space and nothing to evict, or nothing has to
be evicted and a step before a rename fails, for the body only if the key had no entry. -/
def Harmless (w : Write) (io : Attempts) (d : DiskCache) : Prop :=
  (¬ d.Fits w.size ∧ ¬ d.Evictable) ∨
    (d.Fits w.size ∧ io.sidecar.fault ≠ some .rename ∧
      (io.sidecar.fault = none → io.body.fault ≠ some .rename ∧
        ∀ now ttl, d.servedTTL now w.key ttl = none))

section

variable {w : Write} {io : Attempts} {d d' : DiskCache}

theorem unchanged_iff_of_evicted (io : Attempts) {ok : Bool} {d₁ : DiskCache}
    (hspace : d.ensureSpace w.size = (ok, d₁)) (hfits : ¬ d.Fits w.size) (hsome : d.Evictable)
    (hshards : d'.shards = d₁.shards) : Unchanged d d' ↔ Harmless w io d := by
  refine iff_of_false (fun hunchanged => ?_) (by simp [Harmless, hfits, hsome])
  have hlt : d₁.tracked < d.tracked := by
    simpa only [hspace] using DiskCache.tracked_ensureSpace_lt hfits hsome
  have hsame : d₁.tracked = d.tracked := by
    rw [DiskCache.tracked, DiskCache.tracked, ← hshards, hunchanged.shards]
  omega

theorem fits_or_evictable {d₁ : DiskCache} (hspace : d.ensureSpace w.size = (true, d₁)) :
    (d.Fits w.size ∧ d = d₁) ∨ (¬ d.Fits w.size ∧ d.Evictable) := by
  by_cases hfits : d.Fits w.size
  · rw [DiskCache.ensureSpace_of_fits hfits] at hspace
    exact .inl ⟨hfits, congrArg Prod.snd hspace⟩
  · refine .inr ⟨hfits, ?_⟩
    by_contra hnone
    rw [DiskCache.ensureSpace_of_not_evictable hfits hnone] at hspace
    cases congrArg Prod.fst hspace

/-- A cache with the same index and the same files but for an entry that was not served. -/
theorem unchanged_of_lookup (hshards : d'.shards = d.shards)
    (hcurrent : d'.currentSize = d.currentSize) (hage : d'.maxAge = d.maxAge)
    (hentries : ∀ key, (∀ now ttl, d.servedTTL now key ttl = none) ∨
      ∀ ext, d'.disk.lookup (cachePath key ext) = d.disk.lookup (cachePath key ext))
    (htemps : ∀ path suffix, d'.disk.lookup (tempPath path suffix) =
      d.disk.lookup (tempPath path suffix)) : Unchanged d d' := by
  refine ⟨fun now key ttl response hserved => ?_, hshards, hcurrent,
    fun path suffix file hfile => ?_⟩
  · rcases hentries key with hnone | hsame
    · rw [hnone] at hserved
      cases hserved
    · rw [DiskCache.servedTTL_eq, DiskCache.ageLimit] at hserved ⊢
      rwa [hsame, hsame, hage]
  · rwa [htemps] at hfile

theorem not_unchanged_of_temp (path : Path) (suffix : Str)
    (hfree : d.disk.lookup (tempPath path suffix) = none)
    (hleft : (d'.disk.lookup (tempPath path suffix)).isSome) : ¬ Unchanged d d' := by
  intro hunchanged
  obtain ⟨file, hfile⟩ := Option.isSome_iff_exists.mp hleft
  rw [hunchanged.temporaries path suffix file hfile] at hfree
  cases hfree

theorem not_unchanged_of_lost (now : Int) (key : Key) (ttl : Int)
    (hwas : (d.servedTTL now key ttl).isSome) (hlost : (d'.servedTTL now key ttl).isNone) :
    ¬ Unchanged d d' := by
  intro hunchanged
  obtain ⟨response, hserved⟩ := Option.isSome_iff_exists.mp hwas
  rw [hunchanged.served now key ttl response hserved] at hlost
  cases hlost

/-- When the sidecar cannot be written, nothing is left but the temporary file of a rename. -/
theorem unchanged_sidecarDisk_iff (hfree : io.Free d.disk w.key) (hmeta : io.sidecar.fault ≠ none) :
    Unchanged d { d with disk := sidecarDisk w io d } ↔ io.sidecar.fault ≠ some .rename := by
  by_cases hrename : io.sidecar.fault = some .rename
  · refine iff_of_false (not_unchanged_of_temp _ _ hfree.1 ?_) (not_not_intro hrename)
    rw [sidecarDisk, lookup_writeAtomic_rename hrename, Disk.lookup_write, if_pos rfl]
    rfl
  · have hsame := lookup_writeAtomic_failed hmeta hrename hfree.1 w.now w.sidecar
    refine iff_of_true ?_ hrename
    exact unchanged_of_lookup rfl rfl rfl (fun _ => .inr fun _ => hsame _) fun _ _ => hsame _

/-- When the body cannot be written, the sidecar that was there is lost as well. -/
theorem unchanged_bodyDisk_iff (hfree : io.Free d.disk w.key) (hmeta : io.sidecar.fault = none)
    (hbody : io.body.fault ≠ none) :
    Unchanged d { d with disk := Disk.remove (bodyDisk w io d) (cachePath w.key metaExt) } ↔
      io.body.fault ≠ some .rename ∧ ∀ now ttl, d.servedTTL now w.key ttl = none := by
  by_cases hrename : io.body.fault = some .rename
  · refine iff_of_false (not_unchanged_of_temp _ _ hfree.2 ?_) fun h => h.1 hrename
    rw [Disk.lookup_remove, if_neg (tempPath_ne_cachePath _ _ _ _), bodyDisk,
      lookup_writeAtomic_rename hrename, Disk.lookup_write, if_pos rfl]
    rfl
  · have hlookup := lookup_bodyDisk_failed hfree hmeta hbody hrename
    constructor
    · intro hunchanged
      refine ⟨hrename, fun now ttl => ?_⟩
      cases hwas : d.servedTTL now w.key ttl with
      | none => rfl
      | some response =>
        have hnow := hunchanged.served now w.key ttl response hwas
        rw [DiskCache.servedTTL_eq, hlookup, if_pos rfl] at hnow
        cases hnow
    · rintro ⟨-, hserved⟩
      refine unchanged_of_lookup rfl rfl rfl (fun key => ?_) fun path suffix => ?_
      · by_cases hkey : key = w.key
        · exact .inl (hkey ▸ hserved)
        · refine .inr fun ext => (hlookup _).trans (if_neg fun hpath => hkey ?_)
          exact (eq_and_eq_of_cachePath hpath).1
      · exact (hlookup _).trans (if_neg (tempPath_ne_cachePath _ _ _ _))

/-- A call that fails changes nothing exactly if its failure is harmless. -/
theorem unchanged_iff (hfree : io.Free d.disk w.key) {e : DiskCache.SetError}
    (herror : (run w io d).1 = .error e) : Unchanged d (run w io d).2 ↔ Harmless w io d := by
  have hends := run_ends w io d
  generalize run w io d = r at hends herror
  cases hends with
  | skipped hstorable => cases herror
  | full hstorable hspace =>
    have hfits : ¬ d.Fits w.size := by
      intro hfits
      rw [DiskCache.ensureSpace_of_fits hfits] at hspace
      cases congrArg Prod.fst hspace
    by_cases hsome : d.Evictable
    · exact unchanged_iff_of_evicted io hspace hfits hsome rfl
    · rw [DiskCache.ensureSpace_of_not_evictable hfits hsome] at hspace
      obtain rfl := congrArg Prod.snd hspace
      refine iff_of_true ?_ (.inl ⟨hfits, hsome⟩)
      exact unchanged_of_lookup rfl rfl rfl (fun _ => .inr fun _ => rfl) fun _ _ => rfl
  | metaFailed hstorable hspace hmeta =>
    obtain ⟨hfits, rfl⟩ | ⟨hfits, hsome⟩ := fits_or_evictable hspace
    · rw [unchanged_sidecarDisk_iff hfree hmeta]
      simp [Harmless, hfits, hmeta]
    · exact unchanged_iff_of_evicted io hspace hfits hsome rfl
  | bodyFailed hstorable hspace hmeta hbody =>
    obtain ⟨hfits, rfl⟩ | ⟨hfits, hsome⟩ := fits_or_evictable hspace
    · rw [unchanged_bodyDisk_iff hfree hmeta hbody]
      simp [Harmless, hfits, hmeta]
    · exact unchanged_iff_of_evicted io hspace hfits hsome rfl
  | stored => cases herror

end

/-- The write of a page. -/
def pageWrite (key : Key) (body : Str) : Write :=
  ⟨0, ⟨true, true⟩, key, str "example.com", str "/a", 200, ∅, body⟩

/-- A cache with room for a hundred bytes that holds one page. -/
def stocked : DiskCache := ((pageWrite zeroKey (str "x")).run (.new ∅ 100 0)).2

/-- Writes in which one step fails, for the sidecar and for the body. -/
def failing (sidecar body : Option Fault) : Attempts := ⟨⟨str "1", sidecar⟩, ⟨str "2", body⟩⟩

/-- A page that is too large costs the page that is there. The same page cannot be written
again without losing it when there is no temporary file for its body. A rename that fails
leaves a temporary file. -/
theorem stocked_changes :
    ((run (pageWrite onesKey (List.replicate 100 0x78)) (failing none none) stocked).1 =
        .error .cacheFull ∧
      ¬ Unchanged stocked
        (run (pageWrite onesKey (List.replicate 100 0x78)) (failing none none) stocked).2) ∧
    ((run (pageWrite zeroKey (str "x")) (failing none (some .create)) stocked).1 =
        .error .bodyWrite ∧
      ¬ Unchanged stocked
        (run (pageWrite zeroKey (str "x")) (failing none (some .create)) stocked).2) ∧
    ((run (pageWrite onesKey (str "x")) (failing (some .rename) none) stocked).1 =
        .error .metaWrite ∧
      ¬ Unchanged stocked
        (run (pageWrite onesKey (str "x")) (failing (some .rename) none) stocked).2) := by
  refine ⟨⟨by decide, ?_⟩, ⟨by decide, ?_⟩, ⟨by decide, ?_⟩⟩
  · exact not_unchanged_of_lost 0 zeroKey 0 (by decide) (by decide)
  · exact not_unchanged_of_lost 0 zeroKey 0 (by decide) (by decide)
  · exact not_unchanged_of_temp (cachePath onesKey metaExt) (str "1") (by decide) (by decide)

/-- A new page, and the same page after its body could not be written. -/
def newPage : Write := pageWrite onesKey (str "x")

def abandonedPage : Write := { newPage with io := (failing none (some .sync)).outcome }

/-- Giving up a page does what the write with that outcome does. -/
theorem stocked_refines :
    (run newPage (failing none (some .sync)) stocked).1 = (abandonedPage.run stocked).1 ∧
      (run newPage (failing none (some .sync)) stocked).2.shards =
        (abandonedPage.run stocked).2.shards ∧
      (run newPage (failing none (some .sync)) stocked).2.currentSize =
        (abandonedPage.run stocked).2.currentSize ∧
      ∀ key ext,
        (run newPage (failing none (some .sync)) stocked).2.disk.lookup (cachePath key ext) =
          (abandonedPage.run stocked).2.disk.lookup (cachePath key ext) :=
  run_refines newPage ⟨by decide, by decide⟩

/-- A page that is new is given up without a trace when its body cannot be written. -/
theorem stocked_unchanged :
    (run newPage (failing none (some .sync)) stocked).1 = .error .bodyWrite ∧
      Unchanged stocked (run newPage (failing none (some .sync)) stocked).2 := by
  have herror : (run newPage (failing none (some .sync)) stocked).1 = .error .bodyWrite := by
    decide
  refine ⟨herror, (unchanged_iff ⟨by decide, by decide⟩ herror).mpr ?_⟩
  refine .inr ⟨.inr (by decide), by decide, fun _ => ⟨by decide, fun now ttl => ?_⟩⟩
  have hmeta : stocked.disk.lookup (cachePath newPage.key metaExt) = none := by decide
  rw [DiskCache.servedTTL_eq, hmeta]
  rfl

end Failures

end Peretum.Cache
