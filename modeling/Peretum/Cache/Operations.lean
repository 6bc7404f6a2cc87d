import Mathlib.Data.Fin.Basic
import Mathlib.Data.List.FinRange
import Mathlib.Logic.Function.Basic
import Peretum.Go.Duration
import Peretum.Go.ResponseWriter
import Peretum.Cache.Metadata
import Peretum.Cache.Shard

/-!
# Reading and writing the disk cache

The sequential meaning of `SetResponseToCache`, `StreamCachedResponse` and the
index operations they call. Reads consult the files only; the index is touched
afterwards. The clock is an argument, and a write names which of its file
operations fail.
-/

namespace Peretum.Cache

open Go

/-- The number of shards of the index. -/
def shardCount : Nat := 32

/-- The counters `Stats` reports. -/
structure Stats where
  hits : Nat
  misses : Nat
  evictions : Nat
  /-- Entries removed by the sweep. -/
  expirations : Nat

/-- `DiskCache`, with the files below `CacheDir` as part of the state. -/
structure DiskCache where
  /-- The size limit in bytes, zero for none. -/
  maxSize : Int
  /-- The age limit in nanoseconds, zero for none. -/
  maxAge : Int
  currentSize : Int
  shards : Fin shardCount → LruShard
  disk : Disk
  stats : Stats

namespace DiskCache

/-- `New` over a directory with the given files: the index starts empty. -/
def new (disk : Disk) (maxSize maxAge : Int) : DiskCache :=
  ⟨maxSize, maxAge, 0, fun _ => .empty, disk, ⟨0, 0, 0, 0⟩⟩

/-- The index of the shard of a key: a hash of its first two bytes. -/
def shardIndex (key : Key) : Fin shardCount :=
  ⟨(key.digits.take 2).foldl (fun sum b => (sum * 31 + b.toNat) % 2 ^ 32) 0 % shardCount,
    Nat.mod_lt _ (by decide)⟩

/-- `DiskCache.shard`. -/
def shard (d : DiskCache) (key : Key) : LruShard := d.shards (shardIndex key)

/-- Replace one shard. -/
def setShard (d : DiskCache) (i : Fin shardCount) (s : LruShard) : DiskCache :=
  { d with shards := Function.update d.shards i s }

/-- `DiskCache.touch` at time `now`. -/
def touch (d : DiskCache) (now : Int) (key : Key) (size : Int) : DiskCache :=
  let expiresAt := if 0 < d.maxAge then some (now + d.maxAge) else none
  let (delta, s) := (d.shard key).put now key size expiresAt
  { d.setShard (shardIndex key) s with currentSize := d.currentSize + delta }

/-- `DiskCache.remove`: forget a key without touching its files. -/
def remove (d : DiskCache) (key : Key) : DiskCache :=
  match (d.shard key).remove key with
  | (some size, s) =>
      { d.setShard (shardIndex key) s with currentSize := d.currentSize - size }
  | (none, _) => d

/-- The loop of `DiskCache.evict` over the shards still to be tried. -/
def evictFrom (d : DiskCache) : List (Fin shardCount) → Option DiskCache
  | [] => none
  | i :: rest =>
      match (d.shards i).evict with
      | (some (key, size), s) =>
          some { d.setShard i s with
            currentSize := d.currentSize - size
            disk := Disk.removeEntry d.disk key
            stats := { d.stats with evictions := d.stats.evictions + 1 } }
      | (none, _) => evictFrom d rest

/-- `DiskCache.evict`: drop the oldest entry of the first shard that has one. -/
def evict (d : DiskCache) : Option DiskCache := evictFrom d (List.finRange shardCount)

/-- The number of tracked entries. -/
def tracked (d : DiskCache) : Nat :=
  ((List.finRange shardCount).map (fun i => (d.shards i).lruList.length)).sum

/-- The loop of `ensureSpace`; every eviction shortens a recency list, so the
number of tracked entries bounds the iterations. -/
def ensureSpaceLoop : Nat → DiskCache → Int → Bool × DiskCache
  | 0, d, _ => (false, d)
  | fuel + 1, d, size =>
      if d.currentSize + size > d.maxSize then
        match d.evict with
        | some d' => ensureSpaceLoop fuel d' size
        | none => (false, d)
      else (true, d)

/-- `DiskCache.ensureSpace`. -/
def ensureSpace (d : DiskCache) (size : Int) : Bool × DiskCache :=
  if d.maxSize = 0 then (true, d) else ensureSpaceLoop (d.tracked + 1) d size

/-- What every eviction preserves, the loop of `ensureSpace` preserves. -/
theorem ensureSpaceLoop_invariant {inv : DiskCache → Prop}
    (hevict : ∀ d d', inv d → d.evict = some d' → inv d') {d : DiskCache} (hd : inv d) (fuel : Nat)
    (size : Int) : inv (ensureSpaceLoop fuel d size).2 := by
  induction fuel generalizing d with
  | zero => exact hd
  | succ fuel ih =>
    unfold ensureSpaceLoop
    split
    · cases hnext : d.evict with
      | none => exact hd
      | some d' => exact ih (hevict d d' hd hnext)
    · exact hd

/-- What every eviction preserves, `ensureSpace` preserves. -/
theorem ensureSpace_invariant {inv : DiskCache → Prop}
    (hevict : ∀ d d', inv d → d.evict = some d' → inv d') {d : DiskCache} (hd : inv d)
    (size : Int) : inv (d.ensureSpace size).2 := by
  unfold ensureSpace
  split
  · exact hd
  · exact ensureSpaceLoop_invariant hevict hd _ size

/-- The file removals of `sweep` for one expired key. The path of the body lacks the
subdirectory, so the body stays where it is. -/
def sweepFiles (disk : Disk) (key : Key) : Disk :=
  Disk.remove (Disk.remove disk (cachePath key metaExt)) [key.digits.drop 2 ++ bodyExt]

/-- One iteration of `sweep`, on the shard with index `i` at time `now`. -/
def sweepShard (d : DiskCache) (now : Int) (i : Fin shardCount) : DiskCache :=
  let (expired, size, s) := (d.shards i).findExpired now
  { d.setShard i s with
    currentSize := if 0 < size then d.currentSize - size else d.currentSize
    disk := expired.foldl sweepFiles d.disk
    stats := { d.stats with expirations := d.stats.expirations + expired.length } }

/-- `DiskCache.sweep`; every shard reads the clock for itself. -/
def sweep (d : DiskCache) (now : Fin shardCount → Int) : DiskCache :=
  (List.finRange shardCount).foldl (fun d i => d.sweepShard (now i) i) d

/-- Which of the two `writeAtomic` calls of a write succeed. -/
structure WriteOutcome where
  metaWritten : Bool
  bodyWritten : Bool

/-- The errors of `SetResponseToCache`. -/
inductive SetError where
  /-- "cache full, cannot store entry" -/
  | cacheFull
  /-- Writing the sidecar failed. -/
  | metaWrite
  | bodyWrite
  deriving DecidableEq, Repr

/-- A status and body `SetResponseToCache` stores at all. -/
def storable (statusCode : Nat) (body : Str) : Bool :=
  !(statusCode < 200 || 300 ≤ statusCode || body.isEmpty)

theorem status_of_storable {statusCode : Nat} {body : Str}
    (hstorable : storable statusCode body = true) : 200 ≤ statusCode ∧ statusCode < 300 := by
  simp only [storable, Bool.not_eq_true', Bool.or_eq_false_iff, decide_eq_false_iff_not]
    at hstorable
  omega

def setResponseToCache (d : DiskCache) (now : Int) (io : WriteOutcome) (key : Key)
    (host path : Str) (statusCode : Nat) (headers : Header) (body : Str) :
    Except SetError Unit × DiskCache :=
  if !storable statusCode body then (.ok (), d)
  else
    let sidecar := writeMetadata statusCode host path headers
    let totalSize : Int := sidecar.length + body.length
    match d.ensureSpace totalSize with
    | (false, d) => (.error .cacheFull, d)
    | (true, d) =>
        if !io.metaWritten then (.error .metaWrite, d)
        else
          let d := { d with disk := Disk.write d.disk (cachePath key metaExt) sidecar now }
          if !io.bodyWritten then
            (.error .bodyWrite, { d with disk := Disk.remove d.disk (cachePath key metaExt) })
          else
            let d := { d with disk := Disk.write d.disk (cachePath key bodyExt) body now }
            (.ok (), d.touch now key totalSize)

/-- Why a read does not serve an entry. -/
inductive StreamError where
  | notFound
  /-- The entry is older than its age limit; reported as `io.ErrUnexpectedEOF`. -/
  | expired
  | metadata (e : MetaError)
  /-- `WriteHeader` panics on a status outside 100..999. -/
  | invalidStatus (code : Nat)
  /-- There is no body; the status has been written already. -/
  | noBody
  deriving DecidableEq, Repr

/-- The outcome of a read: its error, the response writer and the cache after it. -/
structure Streamed where
  result : Except StreamError Unit
  writer : ResponseWriter
  cache : DiskCache

/-- The age limit of one read: a positive TTL replaces `MaxAge`. -/
def ageLimit (d : DiskCache) (ttl : Int) : Int := if 0 < ttl then ttl else d.maxAge

/-- The freshness test on the age of a sidecar. -/
def stale (age : Int) (now : Int) (info : File) : Bool := 0 < age && age < now - info.modTime

/-- The header map of a hit: the stored headers are added to what is there. -/
def hitHeader (header : Header) (m : Metadata) (now : Int) (info : File) : Header :=
  ((header.copy m.headers).set (str "X-Cache") (str "HIT")).set (str "X-Cache-Age")
    (durationString (now - info.modTime))

/-- `streamCachedResponse`, for a client and a response writer that take every byte. -/
def streamCachedResponse (d : DiskCache) (now : Int) (w : ResponseWriter) (key : Key)
    (ttl : Int) : Streamed :=
  match d.disk.lookup (cachePath key metaExt) with
  | none => ⟨.error .notFound, w, d⟩
  | some info =>
      if stale (d.ageLimit ttl) now info then
        ⟨.error .expired, w, { d with disk := Disk.removeEntry d.disk key }.remove key⟩
      else
        match readMetadata info.data with
        | .error e => ⟨.error (.metadata e), w, d⟩
        | .ok m =>
            let w := { w with header := hitHeader w.header m now info }
            if m.statusCode < 100 ∨ 999 < m.statusCode then
              ⟨.error (.invalidStatus m.statusCode), w, d⟩
            else
              let w := w.writeHeader m.statusCode
              match d.disk.lookup (cachePath key bodyExt) with
              | none => ⟨.error .noBody, w, d⟩
              | some file => ⟨.ok (), w.acceptFrom file.data, d.touch now key info.data.length⟩

/-- `Peek`: whether a fresh sidecar exists. -/
def peek (d : DiskCache) (now : Int) (key : Key) (ttl : Int) : Bool :=
  match d.disk.lookup (cachePath key metaExt) with
  | none => false
  | some info => !stale (d.ageLimit ttl) now info

/-- The response `StreamCachedResponse` writes to a fresh writer, when it succeeds. -/
def served (d : DiskCache) (now : Int) (key : Key) : Option ResponseWriter :=
  match d.streamCachedResponse now .fresh key 0 with
  | ⟨.ok (), w, _⟩ => some w
  | ⟨.error _, _, _⟩ => none

/-- The response a fresh writer gets from a sidecar and a body, if they are served. -/
def servedFrom (age : Int) (now : Int) (sidecar body : Option File) : Option ResponseWriter :=
  sidecar.bind fun info =>
    if stale age now info then none
    else (readMetadata info.data).toOption.bind fun m =>
      if m.statusCode < 100 ∨ 999 < m.statusCode then none
      else body.map fun file =>
        ({ ResponseWriter.fresh with header := hitHeader ∅ m now info }.writeHeader
          m.statusCode).acceptFrom file.data

/-- The response `StreamCachedResponseTTL` writes to a fresh writer, when it succeeds. -/
def servedTTL (d : DiskCache) (now : Int) (key : Key) (ttl : Int) : Option ResponseWriter :=
  match d.streamCachedResponse now .fresh key ttl with
  | ⟨.ok (), w, _⟩ => some w
  | ⟨.error _, _, _⟩ => none

/-- What a read serves depends on the two files of the key and the age limit only. -/
theorem servedTTL_eq (d : DiskCache) (now : Int) (key : Key) (ttl : Int) :
    d.servedTTL now key ttl = servedFrom (d.ageLimit ttl) now
      (d.disk.lookup (cachePath key metaExt)) (d.disk.lookup (cachePath key bodyExt)) := by
  unfold servedTTL streamCachedResponse servedFrom
  cases d.disk.lookup (cachePath key metaExt) with
  | none => rfl
  | some info =>
    by_cases hstale : stale (d.ageLimit ttl) now info = true
    · simp [hstale]
    · cases hread : readMetadata info.data with
      | error e => simp [hstale, hread, Except.toOption]
      | ok m =>
        by_cases hcode : m.statusCode < 100 ∨ 999 < m.statusCode
        · simp [hstale, hread, hcode, Except.toOption]
        · cases d.disk.lookup (cachePath key bodyExt) with
          | none => simp [hstale, hread, hcode, Except.toOption]
          | some file =>
            simp [hstale, hread, hcode, Except.toOption, ResponseWriter.fresh]

theorem served_eq (d : DiskCache) (now : Int) (key : Key) :
    d.served now key = servedFrom d.maxAge now (d.disk.lookup (cachePath key metaExt))
      (d.disk.lookup (cachePath key bodyExt)) := by
  exact d.servedTTL_eq now key 0

variable {d : DiskCache} {key : Key} {now : Int}

theorem served_eq_none_of_noMeta (hmeta : d.disk.lookup (cachePath key metaExt) = none)
    (now : Int) : d.served now key = none := by
  simp [served_eq, servedFrom, hmeta]

theorem exists_metadata_of_served {w : ResponseWriter} (hserved : d.served now key = some w) :
    ∃ info m, d.disk.lookup (cachePath key metaExt) = some info ∧
      readMetadata info.data = .ok m := by
  rw [served_eq, servedFrom] at hserved
  obtain ⟨info, hinfo, hserved⟩ := Option.bind_eq_some_iff.mp hserved
  split at hserved
  · cases hserved
  · obtain ⟨m, hm, -⟩ := Option.bind_eq_some_iff.mp hserved
    refine ⟨info, m, hinfo, ?_⟩
    cases hread : readMetadata info.data with
    | error e => simp [hread, Except.toOption] at hm
    | ok m' => simpa [hread, Except.toOption] using hm

/-- A write that stores its response leaves the sidecar it encoded. -/
theorem lookup_meta_setResponseToCache {io : WriteOutcome} {host path : Str} {statusCode : Nat}
    {headers : Header} {body : Str} (hstorable : storable statusCode body = true)
    (hok : (d.setResponseToCache now io key host path statusCode headers body).1 = .ok ()) :
    (d.setResponseToCache now io key host path statusCode headers body).2.disk.lookup
        (cachePath key metaExt) =
      some ⟨writeMetadata statusCode host path headers, now⟩ := by
  have hne := cachePath_meta_ne_body key key
  unfold setResponseToCache at hok ⊢
  simp only [hstorable, Bool.not_true, Bool.false_eq_true, if_false] at hok ⊢
  cases hspace : d.ensureSpace ((writeMetadata statusCode host path headers).length +
      body.length) with
  | mk ok d' =>
    cases ok with
    | false => simp [hspace] at hok
    | true =>
      obtain ⟨metaWritten, bodyWritten⟩ := io
      cases metaWritten <;> cases bodyWritten <;> simp [hspace] at hok ⊢
      simp [touch, setShard, hne]

/-- A read succeeds exactly on a fresh sidecar that parses, with a status `WriteHeader`
takes, and a body. -/
theorem streamCachedResponse_ok_iff (d : DiskCache) (now : Int) (w : ResponseWriter) (key : Key)
    (ttl : Int) : (d.streamCachedResponse now w key ttl).result = .ok () ↔
      ∃ info m file, d.disk.lookup (cachePath key metaExt) = some info ∧
        stale (d.ageLimit ttl) now info = false ∧ readMetadata info.data = .ok m ∧
        100 ≤ m.statusCode ∧ m.statusCode ≤ 999 ∧
        d.disk.lookup (cachePath key bodyExt) = some file := by
  unfold streamCachedResponse
  cases d.disk.lookup (cachePath key metaExt) with
  | none => simp
  | some info =>
    by_cases hstale : stale (d.ageLimit ttl) now info = true
    · simp [hstale]
    · cases hread : readMetadata info.data with
      | error e => simp [hstale, hread]
      | ok m =>
        by_cases hcode : m.statusCode < 100 ∨ 999 < m.statusCode
        · simp only [hstale, hread, hcode, if_true, Bool.false_eq_true, if_false]
          refine iff_of_false (by simp) ?_
          rintro ⟨info', m', file, hinfo, -, hread', hle, hle', -⟩
          cases hinfo
          obtain rfl : m = m' := by simpa [hread] using hread'
          omega
        · cases d.disk.lookup (cachePath key bodyExt) with
          | none => simp [hstale, hread, hcode]
          | some file =>
            have hvalid : 100 ≤ m.statusCode ∧ m.statusCode ≤ 999 := by omega
            simp [hstale, hread, hcode, hvalid]

theorem exists_of_streamCachedResponse_ok {w : ResponseWriter} {ttl : Int}
    (hok : (d.streamCachedResponse now w key ttl).result = .ok ()) :
    ∃ info m file, d.disk.lookup (cachePath key metaExt) = some info ∧
      stale (d.ageLimit ttl) now info = false ∧ readMetadata info.data = .ok m ∧
      d.disk.lookup (cachePath key bodyExt) = some file ∧
      (d.streamCachedResponse now w key ttl).writer =
        ({ w with header := hitHeader w.header m now info }.writeHeader
          m.statusCode).acceptFrom file.data := by
  obtain ⟨info, m, file, hmeta, hfresh, hread, hle, hle', hbody⟩ :=
    (d.streamCachedResponse_ok_iff now w key ttl).mp hok
  have hcode : ¬ (m.statusCode < 100 ∨ 999 < m.statusCode) := by omega
  simp [streamCachedResponse, hmeta, hfresh, hread, hcode, hbody]

/-- How a read can end: without a change, with the removal of a stale entry, or as a hit
that puts the entry with the size of its sidecar. -/
theorem streamCachedResponse_cases (d : DiskCache) (now : Int) (w : ResponseWriter) (key : Key)
    (ttl : Int) :
    ((∃ e, (d.streamCachedResponse now w key ttl).result = .error e) ∧
        (d.streamCachedResponse now w key ttl).cache = d) ∨
      ((∃ e, (d.streamCachedResponse now w key ttl).result = .error e) ∧
        (d.streamCachedResponse now w key ttl).cache =
          { d with disk := Disk.removeEntry d.disk key }.remove key) ∨
      ∃ info m, d.disk.lookup (cachePath key metaExt) = some info ∧
        readMetadata info.data = .ok m ∧
        (d.streamCachedResponse now w key ttl).result = .ok () ∧
        (d.streamCachedResponse now w key ttl).cache = d.touch now key info.data.length := by
  unfold streamCachedResponse
  cases hmeta : d.disk.lookup (cachePath key metaExt) with
  | none => exact .inl ⟨⟨_, rfl⟩, rfl⟩
  | some info =>
    by_cases hstale : stale (d.ageLimit ttl) now info = true
    · exact .inr (.inl (by simp [hstale]))
    · cases hread : readMetadata info.data with
      | error e => exact .inl (by simp [hstale, hread])
      | ok m =>
        by_cases hcode : m.statusCode < 100 ∨ 999 < m.statusCode
        · exact .inl (by simp [hstale, hread, hcode])
        · cases hbody : d.disk.lookup (cachePath key bodyExt) with
          | none => exact .inl (by simp [hstale, hread, hcode])
          | some file => exact .inr (.inr ⟨info, m, rfl, hread, by simp [hstale, hread, hcode]⟩)

end DiskCache

/-- The arguments of a call of `SetResponseToCache`, with what it observes. -/
structure Write where
  now : Int
  io : DiskCache.WriteOutcome
  key : Key
  host : Str
  path : Str
  statusCode : Nat
  headers : Header
  body : Str

namespace Write

/-- The outcome of the call. -/
def run (w : Write) (d : DiskCache) : Except DiskCache.SetError Unit × DiskCache :=
  d.setResponseToCache w.now w.io w.key w.host w.path w.statusCode w.headers w.body

/-- The sidecar of the call. -/
def sidecar (w : Write) : Str := writeMetadata w.statusCode w.host w.path w.headers

/-- The sidecar of the call is read exactly if it stays within the caps. -/
theorem readMetadata_sidecar_iff {w : Write}
    (henc : Encodable w.statusCode w.host w.path w.headers) {m : Metadata} :
    readMetadata w.sidecar = .ok m ↔ Readable w.host w.path w.headers ∧
      m = ⟨w.statusCode, w.host, w.path, rejoin w.headers⟩ := by
  rw [sidecar, ← List.append_nil (writeMetadata _ _ _ _)]
  exact readMetadata_writeMetadata_eq_ok henc []

/-- The size the call makes space for and records. -/
def size (w : Write) : Int := w.sidecar.length + w.body.length

/-- The sidecar of the call written. -/
def writeSidecar (w : Write) (d : DiskCache) : DiskCache :=
  { d with disk := Disk.write d.disk (cachePath w.key metaExt) w.sidecar w.now }

/-- Both files of the call written. -/
def writeFiles (w : Write) (d : DiskCache) : DiskCache :=
  { d with disk := Disk.write (w.writeSidecar d).disk (cachePath w.key bodyExt) w.body w.now }

/-- The sidecar of the call written and, as the body cannot be, removed again. -/
def withdraw (w : Write) (d : DiskCache) : DiskCache :=
  { d with disk := Disk.remove (w.writeSidecar d).disk (cachePath w.key metaExt) }

/-- How a call of `SetResponseToCache` can end. -/
inductive Ends (w : Write) (d : DiskCache) : Except DiskCache.SetError Unit × DiskCache → Prop where
  | skipped (hstorable : DiskCache.storable w.statusCode w.body = false) : Ends w d (.ok (), d)
  | failed {ok : Bool} {d' : DiskCache} (hspace : d.ensureSpace w.size = (ok, d'))
      (e : DiskCache.SetError) : Ends w d (.error e, d')
  /-- The body cannot be written. -/
  | withdrawn {d' : DiskCache} (hspace : d.ensureSpace w.size = (true, d')) :
      Ends w d (.error .bodyWrite, w.withdraw d')
  | stored {d' : DiskCache} (hstorable : DiskCache.storable w.statusCode w.body = true)
      (hspace : d.ensureSpace w.size = (true, d')) :
      Ends w d (.ok (), (w.writeFiles d').touch w.now w.key w.size)

theorem run_ends (w : Write) (d : DiskCache) : w.Ends d (w.run d) := by
  unfold run DiskCache.setResponseToCache
  cases hstorable : DiskCache.storable w.statusCode w.body with
  | false => exact .skipped hstorable
  | true =>
    have hsize : d.ensureSpace ((writeMetadata w.statusCode w.host w.path w.headers).length +
        w.body.length) = d.ensureSpace w.size := rfl
    simp only [Bool.not_true, Bool.false_eq_true, if_false, hsize]
    cases hspace : d.ensureSpace w.size with
    | mk ok d' =>
      cases ok with
      | false => exact .failed hspace .cacheFull
      | true =>
        cases hmeta : w.io.metaWritten with
        | false => exact .failed hspace .metaWrite
        | true =>
          cases hbody : w.io.bodyWritten with
          | false => exact .withdrawn hspace
          | true => exact .stored hstorable hspace

theorem lookup_writeFiles (w : Write) (d : DiskCache) (p : Path) :
    (w.writeFiles d).disk.lookup p =
      if p = cachePath w.key bodyExt then some ⟨w.body, w.now⟩
      else if p = cachePath w.key metaExt then some ⟨w.sidecar, w.now⟩
      else d.disk.lookup p := by
  simp only [writeFiles, writeSidecar, Disk.lookup_write]

end Write

end Peretum.Cache
