import Peretum.Cache.Operations

/-!
# Purging

A purge event names the entries every edge must drop. Standalone mode walks the
cache directory and removes files; an edge of a cluster walks its in-memory index
instead. Reads look at files, so an entry is really gone only when its sidecar
is. This file embeds both walks and determines when the second one does what the
event asks for.
-/

namespace Peretum.Cache

open Go

/-- `cluster.PurgeEvent`. -/
structure PurgeEvent where
  host : Str
  /-- One object, empty for none. -/
  path : Str
  /-- A location subtree, empty for none. -/
  pathPrefix : Str
  all : Bool

/-- The errors of `PurgeEvent.Validate`. -/
inductive PurgeError where
  /-- "all=true is exclusive: drop host/path/prefix" -/
  | allIsExclusive
  /-- "path and prefix are mutually exclusive" -/
  | pathAndPrefix
  /-- "path purge requires host" -/
  | pathWithoutHost
  /-- "nothing to purge: pass host, host+path, host+prefix, or all=true" -/
  | nothingToPurge
  deriving DecidableEq, Repr

namespace PurgeEvent

/-- `PurgeEvent.Validate`. -/
def validate (e : PurgeEvent) : Except PurgeError Unit :=
  if e.all then
    if e.host ≠ [] ∨ e.path ≠ [] ∨ e.pathPrefix ≠ [] then .error .allIsExclusive else .ok ()
  else if e.path ≠ [] ∧ e.pathPrefix ≠ [] then .error .pathAndPrefix
  else if e.path ≠ [] then
    if e.host = [] then .error .pathWithoutHost else .ok ()
  else if e.pathPrefix ≠ [] ∨ e.host ≠ [] then .ok ()
  else .error .nothingToPurge

/-- The entries an event selects, by the host and path stored with them: the same
host where one is given and, as the scope says, any path, that path, that path
prefix, or everything. -/
def selects (e : PurgeEvent) (host path : Str) : Bool :=
  e.all || ((e.host == [] || host == e.host) && (e.path == [] || path == e.path) &&
    hasPrefix path e.pathPrefix)

end PurgeEvent

/-- `purgeProbe`: the host and path in a sidecar, when it can be read. -/
def purgeProbe (disk : Disk) (path : Path) : Option (Str × Str) :=
  (disk.lookup path).bind fun file =>
    (readMetadata file.data).toOption.map fun m => (m.host, m.path)

/-- The sidecar at a path can be read and its host and path pass a test. -/
def probeMatches (disk : Disk) (sel : Str → Str → Bool) (path : Path) : Bool :=
  match purgeProbe disk path with
  | some (host, path) => sel host path
  | none => false

namespace DiskCache

/-- The tracked keys of a shard whose sidecar passes a test. -/
def toRemove (d : DiskCache) (sel : Str → Str → Bool) (i : Fin shardCount) : List Key :=
  (d.shards i).lru.keys.filter (fun k => probeMatches d.disk sel (cachePath k metaExt))

/-- The walk of the in-memory index shared by `PurgeByHost` and `purgeByHostPath`:
matching keys leave the index, and the recorded size drops by their number. -/
def purgeIndex (d : DiskCache) (sel : Str → Str → Bool) : Nat × DiskCache :=
  let purged := ((List.finRange shardCount).map (fun i => (d.toRemove sel i).length)).sum
  (purged, { d with
    shards := fun i => (d.shards i).dropAll (d.toRemove sel i)
    currentSize := d.currentSize - purged })

def purgeByHost (d : DiskCache) (host : Str) : Nat × DiskCache :=
  d.purgeIndex (fun h _ => h == host)

def purgeByHostPath (d : DiskCache) (host path : Str) (isPrefix : Bool) : Nat × DiskCache :=
  d.purgeIndex (fun h p =>
    if host ≠ [] ∧ h ≠ host then false
    else if isPrefix then hasPrefix p path else p == path)

/-- `PurgeAll`: remove the files of every tracked key and reset the index. -/
def purgeAll (d : DiskCache) : Nat × DiskCache :=
  let keys := (List.finRange shardCount).flatMap (fun i => (d.shards i).lru.keys)
  (keys.length, { d with
    disk := keys.foldl Disk.removeEntry d.disk
    shards := fun i => { d.shards i with lru := ∅, lruList := [], size := 0 }
    currentSize := 0 })

/-- `handlePurgeEvent` on an edge with a disk cache: the number of entries it
reports and the cache after it. -/
def handlePurgeEvent (d : DiskCache) (e : PurgeEvent) : Nat × DiskCache :=
  if e.all then d.purgeAll
  else if e.path ≠ [] then d.purgeByHostPath e.host e.path false
  else if e.pathPrefix ≠ [] then d.purgeByHostPath e.host e.pathPrefix true
  else d.purgeByHost e.host

end DiskCache

variable (sel : Str → Str → Bool) (acc : Nat × Disk)

/-- One file of the walk of `PurgeFiles`: a sidecar that matches is removed with
the body beside it. -/
def purgeFile (acc : Nat × Disk) (path : Path) : Nat × Disk :=
  match path with
  | [dir, name] =>
      if fileExt name = metaExt ∧ probeMatches acc.2 sel path then
        (acc.1 + 1, Disk.remove (Disk.remove acc.2 path)
          [dir, name.take (name.length - metaExt.length) ++ bodyExt])
      else acc
  | _ => acc

/-- `PurgeFiles`: the walk over every file of every shard directory. -/
def purgeFiles (disk : Disk) (sel : Str → Str → Bool) : Nat × Disk :=
  disk.keys.foldl (purgeFile sel) (0, disk)

def purgeFilesByHost (disk : Disk) (host : Str) : Nat × Disk :=
  purgeFiles disk (fun h _ => h == host)

def purgeFilesByPath (disk : Disk) (host path : Str) : Nat × Disk :=
  purgeFiles disk (fun h p => p == path && (host == [] || h == host))

def purgeFilesByPrefix (disk : Disk) (host pathPrefix : Str) : Nat × Disk :=
  purgeFiles disk (fun h p => hasPrefix p pathPrefix && (host == [] || h == host))

def purgeFilesAll (disk : Disk) : Nat × Disk := purgeFiles disk (fun _ _ => true)

/-- The standalone branch of `PurgeCache`. -/
def purgeCache (disk : Disk) (e : PurgeEvent) : Nat × Disk :=
  if e.all then purgeFilesAll disk
  else if e.path ≠ [] then purgeFilesByPath disk e.host e.path
  else if e.pathPrefix ≠ [] then purgeFilesByPrefix disk e.host e.pathPrefix
  else purgeFilesByHost disk e.host

/-- The files the walk looks at are those named with the sidecar extension. -/
theorem fileExt_eq_metaExt_iff {name : Str} :
    fileExt name = metaExt ↔ ∃ stem, name = stem ++ metaExt := by
  have hmeta : metaExt = [0x2E, 0x6D, 0x65, 0x74, 0x61] := by decide
  constructor
  · intro h
    unfold fileExt at h
    split at h
    · next hdot =>
      obtain ⟨last, front, hsplit, hnotMem⟩ :=
        List.eq_append_cons_of_mem (List.mem_reverse.mpr hdot)
      have htake : name.reverse.takeWhile (· ≠ 0x2E) = last := by
        rw [hsplit, List.takeWhile_append_of_pos]
        · simp
        · intro b hb
          have hne : b ≠ 0x2E := fun heq => hnotMem (heq ▸ hb)
          simpa using hne
      rw [htake, hmeta, List.cons.injEq] at h
      have hname := congrArg List.reverse hsplit
      refine ⟨front.reverse, ?_⟩
      simpa [hmeta, h.2] using hname
    · exact absurd h (by decide)
  · rintro ⟨stem, rfl⟩
    simp [fileExt, hmeta]

variable {key : Key} {e : PurgeEvent} {d : DiskCache} {now : Int}

theorem purgeFile_of_ne {path : Path} (hne : path ≠ cachePath key metaExt) :
    (purgeFile sel acc path).2.lookup (cachePath key metaExt) =
        acc.2.lookup (cachePath key metaExt) ∧
      (purgeFile sel acc path).2.lookup (cachePath key bodyExt) =
        acc.2.lookup (cachePath key bodyExt) := by
  unfold purgeFile
  split
  · next dir name =>
    split
    · next hmatch =>
      obtain ⟨stem, rfl⟩ := fileExt_eq_metaExt_iff.mp hmatch.1
      have hbody : cachePath key metaExt ≠ [dir, stem ++ bodyExt] := by
        intro h
        simp only [cachePath, List.cons.injEq, and_true] at h
        exact absurd (List.append_inj' h.2 (by decide)).2 (by decide)
      have hmeta : cachePath key bodyExt ≠ [dir, stem ++ metaExt] := by
        intro h
        simp only [cachePath, List.cons.injEq, and_true] at h
        exact absurd (List.append_inj' h.2 (by decide)).2 (by decide)
      have hbeside : cachePath key bodyExt ≠ [dir, stem ++ bodyExt] := by
        intro h
        simp only [cachePath, List.cons.injEq, List.append_cancel_right_eq, and_true] at h
        exact hne (by simp [cachePath, h.1, h.2])
      simp [hbody, hmeta, hbeside, hne.symm]
    · exact ⟨rfl, rfl⟩
  · exact ⟨rfl, rfl⟩

/-- At the key's own sidecar both files go when it matches. -/
theorem purgeFile_self (key : Key) : (purgeFile sel acc (cachePath key metaExt)).2 =
      if probeMatches acc.2 sel (cachePath key metaExt) then Disk.removeEntry acc.2 key
      else acc.2 := by
  have hext : fileExt (key.digits.drop 2 ++ metaExt) = metaExt :=
    fileExt_eq_metaExt_iff.mpr ⟨_, rfl⟩
  by_cases hmatch : probeMatches acc.2 sel (cachePath key metaExt) = true
  · rw [if_pos hmatch]
    simp only [cachePath] at hmatch
    simp [purgeFile, cachePath, Disk.removeEntry, hext, hmatch]
  · rw [if_neg hmatch]
    simp only [cachePath] at hmatch
    simp [purgeFile, cachePath, hmatch]

theorem foldl_purgeFile_of_notMem {paths : List Path} (hnotMem : cachePath key metaExt ∉ paths)
    (acc : Nat × Disk) : (paths.foldl (purgeFile sel) acc).2.lookup (cachePath key metaExt) =
        acc.2.lookup (cachePath key metaExt) ∧
      (paths.foldl (purgeFile sel) acc).2.lookup (cachePath key bodyExt) =
        acc.2.lookup (cachePath key bodyExt) := by
  induction paths generalizing acc with
  | nil => exact ⟨rfl, rfl⟩
  | cons path paths ih =>
    simp only [List.mem_cons, not_or] at hnotMem
    obtain ⟨hmeta, hbody⟩ := ih hnotMem.2 (purgeFile sel acc path)
    obtain ⟨hmeta', hbody'⟩ := purgeFile_of_ne sel acc (Ne.symm hnotMem.1)
    exact ⟨hmeta.trans hmeta', hbody.trans hbody'⟩

/-- The directory walk removes both files of a key whose sidecar matches, and
leaves the files of every other key alone. -/
theorem lookup_purgeFiles (disk : Disk) (sel : Str → Str → Bool) (key : Key) :
    (purgeFiles disk sel).2.lookup (cachePath key metaExt) =
        (if probeMatches disk sel (cachePath key metaExt) then none
        else disk.lookup (cachePath key metaExt)) ∧
      (purgeFiles disk sel).2.lookup (cachePath key bodyExt) =
        (if probeMatches disk sel (cachePath key metaExt) then none
        else disk.lookup (cachePath key bodyExt)) := by
  by_cases hmem : cachePath key metaExt ∈ disk.keys
  · obtain ⟨before, after, hkeys⟩ := List.append_of_mem hmem
    have hnodup := disk.keys_nodup
    rw [hkeys, List.nodup_append] at hnodup
    have hbefore : cachePath key metaExt ∉ before := fun h =>
      hnodup.2.2 _ h _ List.mem_cons_self rfl
    have hafter : cachePath key metaExt ∉ after := (List.nodup_cons.mp hnodup.2.1).1
    obtain ⟨hmeta, hbody⟩ := foldl_purgeFile_of_notMem sel hbefore (0, disk)
    have hprobe : probeMatches (before.foldl (purgeFile sel) (0, disk)).2 sel
        (cachePath key metaExt) = probeMatches disk sel (cachePath key metaExt) := by
      simp only [probeMatches, purgeProbe, hmeta]
    obtain ⟨hmeta', hbody'⟩ := foldl_purgeFile_of_notMem sel hafter
      (purgeFile sel (before.foldl (purgeFile sel) (0, disk)) (cachePath key metaExt))
    rw [purgeFile_self, hprobe] at hmeta' hbody'
    simp only [purgeFiles, hkeys, List.foldl_append, List.foldl_cons, hmeta', hbody']
    split
    · simp [Disk.lookup_meta_removeEntry, Disk.lookup_body_removeEntry]
    · exact ⟨hmeta, hbody⟩
  · have hnone : disk.lookup (cachePath key metaExt) = none :=
      AList.lookup_eq_none.mpr (fun h => hmem (AList.mem_keys.mp h))
    have hprobe : probeMatches disk sel (cachePath key metaExt) = false := by
      simp [probeMatches, purgeProbe, hnone]
    rw [hprobe]
    exact foldl_purgeFile_of_notMem sel hmem (0, disk)

/-- Removing the entries of a list of keys removes the files of these keys only. -/
theorem lookup_foldl_removeEntry (keys : List Key) (disk : Disk) (key : Key) :
    (keys.foldl Disk.removeEntry disk).lookup (cachePath key metaExt) =
        (if key ∈ keys then none else disk.lookup (cachePath key metaExt)) ∧
      (keys.foldl Disk.removeEntry disk).lookup (cachePath key bodyExt) =
        (if key ∈ keys then none else disk.lookup (cachePath key bodyExt)) := by
  induction keys generalizing disk with
  | nil => simp
  | cons k keys ih =>
    obtain ⟨hmeta, hbody⟩ := ih (Disk.removeEntry disk k)
    rw [List.foldl_cons, hmeta, hbody, Disk.lookup_meta_removeEntry,
      Disk.lookup_body_removeEntry]
    by_cases hk : key = k
    · simp [hk]
    · simp [hk]

/-- The event asks for the entry stored under a key. -/
def Selected (disk : Disk) (e : PurgeEvent) (key : Key) : Prop :=
  probeMatches disk e.selects (cachePath key metaExt) = true

/-- The in-memory index knows a key. -/
def DiskCache.Tracks (d : DiskCache) (key : Key) : Prop := ∃ i, key ∈ (d.shards i).lru

/-- What a purge event promises at a point in time: selected entries are no longer
served, all others are served as before, and the entries that stop being served
are those the standalone walk of the directory takes out. -/
structure PurgeContract (d : DiskCache) (now : Int) (e : PurgeEvent) : Prop where
  selected : ∀ key, Selected d.disk e key → (d.handlePurgeEvent e).2.served now key = none
  unselected : ∀ key, ¬ Selected d.disk e key →
    (d.handlePurgeEvent e).2.served now key = d.served now key
  standalone : ∀ key, (d.served now key).isSome →
    ((d.handlePurgeEvent e).2.served now key = none ↔
      { d with disk := (purgeCache d.disk e).2 }.served now key = none)

/-- For a valid event the four standalone walks test what the event selects. -/
theorem purgeCache_eq_purgeFiles (hvalid : e.validate = .ok ()) (disk : Disk) :
    purgeCache disk e = purgeFiles disk e.selects := by
  unfold PurgeEvent.validate at hvalid
  by_cases hall : e.all = true
  · have hsel : e.selects = fun _ _ => true := by
      funext h p
      simp [PurgeEvent.selects, hall]
    simp only [purgeCache, hall, if_true, purgeFilesAll, hsel]
  · have hall : e.all = false := by simpa using hall
    by_cases hpath : e.path = []
    · by_cases hprefix : e.pathPrefix = []
      · have hhost : e.host ≠ [] := by
          intro hhost
          simp [hall, hpath, hprefix, hhost] at hvalid
        have hsel : e.selects = fun h _ => h == e.host := by
          funext h p
          simp [PurgeEvent.selects, hall, hpath, hprefix, hhost, hasPrefix]
        simp [purgeCache, hall, hpath, hprefix, purgeFilesByHost, hsel]
      · have hsel : e.selects =
            fun h p => hasPrefix p e.pathPrefix && (e.host == [] || h == e.host) := by
          funext h p
          simp [PurgeEvent.selects, hall, hpath, Bool.and_comm]
        simp [purgeCache, hall, hpath, hprefix, purgeFilesByPrefix, hsel]
    · have hprefix : e.pathPrefix = [] := by
        by_contra hprefix
        simp [hall, hpath, hprefix] at hvalid
      have hsel : e.selects = fun h p => p == e.path && (e.host == [] || h == e.host) := by
        funext h p
        have hempty : (e.path == []) = false := beq_eq_false_iff_ne.mpr hpath
        simp only [PurgeEvent.selects, hall, hempty, hprefix, hasPrefix, Bool.false_or,
          List.isPrefixOf_nil_left, Bool.true_and, Bool.and_comm]
      simp [purgeCache, hall, hpath, purgeFilesByPath, hsel]

/-- After the directory walk a matching entry is gone and any other is untouched. -/
theorem served_purgeFiles (d : DiskCache) (sel : Str → Str → Bool) (now : Int) (key : Key) :
    { d with disk := (purgeFiles d.disk sel).2 }.served now key =
      if probeMatches d.disk sel (cachePath key metaExt) then none else d.served now key := by
  obtain ⟨hmeta, hbody⟩ := lookup_purgeFiles d.disk sel key
  simp only [DiskCache.served_eq, hmeta, hbody]
  split
  · rfl
  · rfl

/-- An event of a narrower scope changes the index only, so everything is still served. -/
theorem served_handlePurgeEvent_of_not_all (d : DiskCache) (hall : e.all = false) (now : Int)
    (key : Key) : (d.handlePurgeEvent e).2.served now key = d.served now key := by
  have hdisk : (d.handlePurgeEvent e).2.disk = d.disk ∧
      (d.handlePurgeEvent e).2.maxAge = d.maxAge := by
    simp only [DiskCache.handlePurgeEvent, hall, Bool.false_eq_true, if_false]
    split
    · exact ⟨rfl, rfl⟩
    · split
      · exact ⟨rfl, rfl⟩
      · exact ⟨rfl, rfl⟩
  rw [DiskCache.served_eq, DiskCache.served_eq, hdisk.1, hdisk.2]

/-- The tracked keys are those `PurgeAll` walks over. -/
theorem DiskCache.mem_purgeAll_keys :
    key ∈ (List.finRange shardCount).flatMap (fun i => (d.shards i).lru.keys) ↔ d.Tracks key := by
  simp [DiskCache.Tracks, AList.mem_keys]

/-- Purging everything takes out the tracked entries. -/
theorem served_purgeAll_of_tracks (htracks : d.Tracks key) (now : Int) :
    d.purgeAll.2.served now key = none := by
  apply DiskCache.served_eq_none_of_noMeta
  have hmeta := (lookup_foldl_removeEntry
    ((List.finRange shardCount).flatMap (fun i => (d.shards i).lru.keys)) d.disk key).1
  rwa [if_pos (DiskCache.mem_purgeAll_keys.mpr htracks)] at hmeta

/-- Purging everything misses the entries that only the disk knows. -/
theorem served_purgeAll_of_not_tracks (htracks : ¬ d.Tracks key) (now : Int) :
    d.purgeAll.2.served now key = d.served now key := by
  obtain ⟨hmeta, hbody⟩ := lookup_foldl_removeEntry
    ((List.finRange shardCount).flatMap (fun i => (d.shards i).lru.keys)) d.disk key
  rw [if_neg (fun h => htracks (DiskCache.mem_purgeAll_keys.mp h))] at hmeta hbody
  rw [DiskCache.served_eq, DiskCache.served_eq]
  simp only [DiskCache.purgeAll, hmeta, hbody]

/-- A purge of any scope never makes an entry available that was not served. -/
theorem served_handlePurgeEvent_of_none (hnone : d.served now key = none) (e : PurgeEvent) :
    (d.handlePurgeEvent e).2.served now key = none := by
  cases hall : e.all with
  | false => rw [served_handlePurgeEvent_of_not_all d hall, hnone]
  | true =>
    simp only [DiskCache.handlePurgeEvent, hall, if_true]
    by_cases htracks : d.Tracks key
    · exact served_purgeAll_of_tracks htracks now
    · rw [served_purgeAll_of_not_tracks htracks, hnone]

theorem selected_of_served (hall : e.all = true) (hserved : (d.served now key).isSome) :
    Selected d.disk e key := by
  obtain ⟨w, hw⟩ := Option.isSome_iff_exists.mp hserved
  obtain ⟨info, m, hinfo, hread⟩ := DiskCache.exists_metadata_of_served hw
  simp [Selected, probeMatches, purgeProbe, hinfo, hread, Except.toOption, PurgeEvent.selects,
    hall]

theorem served_handlePurgeEvent_of_not_selected (hsel : ¬ Selected d.disk e key) (now : Int) :
    (d.handlePurgeEvent e).2.served now key = d.served now key := by
  cases hall : e.all with
  | false => exact served_handlePurgeEvent_of_not_all d hall now key
  | true =>
    have hnone : d.served now key = none :=
      Option.not_isSome_iff_eq_none.mp fun hserved => hsel (selected_of_served hall hserved)
    rw [hnone]
    exact served_handlePurgeEvent_of_none hnone e

/-- An entry that is served is gone after a purge exactly when the purge is for the whole
cache and the index tracks the entry. -/
theorem served_handlePurgeEvent_eq_none_iff (hserved : (d.served now key).isSome) (e : PurgeEvent) :
    (d.handlePurgeEvent e).2.served now key = none ↔ e.all = true ∧ d.Tracks key := by
  have hsome : d.served now key ≠ none := Option.isSome_iff_ne_none.mp hserved
  cases hall : e.all with
  | false => simp [served_handlePurgeEvent_of_not_all d hall, hsome]
  | true =>
    simp only [DiskCache.handlePurgeEvent, hall, if_true, true_and]
    by_cases htracks : d.Tracks key
    · simp [served_purgeAll_of_tracks htracks, htracks]
    · simp [served_purgeAll_of_not_tracks htracks, hsome, htracks]

/-- An edge honours a purge event at a point in time exactly when every selected
entry that is being served is tracked by the index and the event is for the whole
cache. Events of the other scopes leave all files in place. -/
theorem purgeContract_iff {e : PurgeEvent} (hvalid : e.validate = .ok ()) (d : DiskCache)
    (now : Int) :
    PurgeContract d now e ↔ ∀ key, Selected d.disk e key → (d.served now key).isSome →
      e.all = true ∧ d.Tracks key := by
  constructor
  · intro hcontract key hsel hserved
    exact (served_handlePurgeEvent_eq_none_iff hserved e).mp (hcontract.selected key hsel)
  · intro hcond
    have hselected : ∀ key, Selected d.disk e key →
        (d.handlePurgeEvent e).2.served now key = none := by
      intro key hsel
      cases hserved : d.served now key with
      | none => exact served_handlePurgeEvent_of_none hserved e
      | some w =>
        have hsome : (d.served now key).isSome := by simp [hserved]
        exact (served_handlePurgeEvent_eq_none_iff hsome e).mpr (hcond key hsel hsome)
    refine ⟨hselected, fun key hsel => served_handlePurgeEvent_of_not_selected hsel now, ?_⟩
    intro key hserved
    rw [purgeCache_eq_purgeFiles hvalid, served_purgeFiles]
    by_cases hsel : Selected d.disk e key
    · have hprobe : probeMatches d.disk e.selects (cachePath key metaExt) = true := hsel
      simp [hselected key hsel, hprobe]
    · have hprobe : probeMatches d.disk e.selects (cachePath key metaExt) = false := by
        simpa [Selected] using hsel
      simp [served_handlePurgeEvent_of_not_selected hsel, hprobe]

/-- A cache that has just stored one object of a site. -/
def warmCache : DiskCache :=
  ((DiskCache.new ∅ 0 0).setResponseToCache 0 ⟨true, true⟩ zeroKey (str "example.com")
    (str "/a") 200 ∅ (str "x")).2

def sitePurge : PurgeEvent := ⟨str "example.com", [], [], false⟩

def fullPurge : PurgeEvent := ⟨[], [], [], true⟩

/-- Purging a site whose only object was just stored leaves that object served. -/
theorem sitePurge_not_contract :
    sitePurge.validate = .ok () ∧ ¬ PurgeContract warmCache 0 sitePurge := by
  refine ⟨by rfl, ?_⟩
  intro hcontract
  have hgone := hcontract.selected zeroKey (by unfold Selected; decide)
  rw [served_handlePurgeEvent_of_not_all _ (by rfl)] at hgone
  revert hgone
  decide

/-- The freshly written cache serves nothing but what it tracks. -/
theorem warmCache_tracks (hserved : (warmCache.served 0 key).isSome) : warmCache.Tracks key := by
  obtain ⟨w, hw⟩ := Option.isSome_iff_exists.mp hserved
  obtain ⟨info, m, hinfo, -⟩ := DiskCache.exists_metadata_of_served hw
  have hkeys : warmCache.disk.keys = [cachePath zeroKey bodyExt, cachePath zeroKey metaExt] := by
    decide
  have hkey := AList.mem_keys.mp (Map.mem_of_lookup hinfo)
  rw [hkeys] at hkey
  simp only [List.mem_cons, List.not_mem_nil, or_false, cachePath_meta_ne_body, false_or] at hkey
  obtain rfl := cachePath_injective hkey
  exact ⟨DiskCache.shardIndex zeroKey, by decide⟩

/-- Purging the whole of a freshly written cache meets the contract. -/
theorem fullPurge_contract :
    fullPurge.validate = .ok () ∧ PurgeContract warmCache 0 fullPurge :=
  ⟨by rfl, (purgeContract_iff (by rfl) warmCache 0).mpr
    fun _ _ hserved => ⟨rfl, warmCache_tracks hserved⟩⟩

end Peretum.Cache
