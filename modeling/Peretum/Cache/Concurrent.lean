import Peretum.Runs
import Peretum.Cache.Operations

/-!
# Writers and readers of one key

Several calls of `SetResponseToCache` and `StreamCachedResponse` may work on the
two files of a key at once. A rename or a removal is one step, and so is each
read of a file; nothing orders the steps of different calls. This file embeds
the calls as processes over the two files and finds the schedules under which
every reader gets the response of a single writer.
-/

namespace Peretum.Cache.Concurrent

open Go Function

/-- The arguments of one call of `SetResponseToCache`. -/
structure Call where
  host : Str
  path : Str
  statusCode : Nat
  headers : Header
  body : Str

/-- The sidecar a call writes. -/
def Call.sidecar (c : Call) : Str := writeMetadata c.statusCode c.host c.path c.headers

/-- The two files of the key. -/
structure Files where
  /-- The file with extension `.meta`. -/
  sidecar : Option File
  body : Option File

/-- Where a call of `SetResponseToCache` is. -/
inductive WriterPhase where
  | ready
  /-- In the loop of `ensureSpace`. -/
  | ensuring
  /-- Evicting the key itself: the sidecar is removed and the body is not. -/
  | evicting
  /-- There is space, the sidecar comes next. -/
  | spaced
  /-- The sidecar is renamed into place, the body comes next. -/
  | metaDone
  /-- The body could not be written, the sidecar is removed next. -/
  | cleanup
  | finished (result : Except DiskCache.SetError Unit)

/-- The writer is between the rename of its sidecar and its last file step. -/
def WriterPhase.mid : WriterPhase → Bool
  | metaDone | cleanup => true
  | _ => false

/-- The call has begun. -/
def WriterPhase.started : WriterPhase → Bool
  | ready => false
  | _ => true

/-- The call has returned or never began. -/
def WriterPhase.quiet : WriterPhase → Bool
  | ready | finished _ => true
  | _ => false

/-- The file steps of a writer, with the clock and the success of an operation
where they matter. -/
inductive WriterStep where
  /-- The status and body are checked and the sidecar is encoded. -/
  | start
  /-- `evict` picks this key and removes its sidecar. -/
  | evictMeta
  /-- `evict` removes the body. -/
  | evictBody
  /-- `ensureSpace` returns. -/
  | space (ok : Bool)
  /-- `writeAtomic` of the sidecar. -/
  | writeMeta (now : Int) (ok : Bool)
  /-- `writeAtomic` of the body. -/
  | writeBody (now : Int) (ok : Bool)
  /-- `os.Remove` of the sidecar after a failed body. -/
  | removeMeta

/-- One step of `SetResponseToCache`. -/
def writerStep (c : Call) (files : Files) : WriterPhase → WriterStep → Option (WriterPhase × Files)
  | .ready, .start =>
      some (if DiskCache.storable c.statusCode c.body then .ensuring else .finished (.ok ()), files)
  | .ensuring, .evictMeta => some (.evicting, { files with sidecar := none })
  | .evicting, .evictBody => some (.ensuring, { files with body := none })
  | .ensuring, .space true => some (.spaced, files)
  | .ensuring, .space false => some (.finished (.error .cacheFull), files)
  | .spaced, .writeMeta now true =>
      some (.metaDone, { files with sidecar := some ⟨c.sidecar, now⟩ })
  | .spaced, .writeMeta _ false => some (.finished (.error .metaWrite), files)
  | .metaDone, .writeBody now true =>
      some (.finished (.ok ()), { files with body := some ⟨c.body, now⟩ })
  | .metaDone, .writeBody _ false => some (.cleanup, files)
  | .cleanup, .removeMeta => some (.finished (.error .bodyWrite), { files with sidecar := none })
  | _, _ => none

/-- Where a call of `StreamCachedResponse` is. -/
inductive ReaderPhase where
  | ready
  /-- The sidecar was found fresh by `os.Stat`. -/
  | fresh (info : File)
  /-- The entry was found expired, its sidecar is removed next. -/
  | expired
  /-- The sidecar of an expired entry is removed, its body comes next. -/
  | expiredMeta
  /-- The sidecar is read and the status is committed, the body comes next. -/
  | holding (w : ResponseWriter)
  | served (w : ResponseWriter)
  | failed

/-- The reader has committed a status and not yet opened the body. -/
def ReaderPhase.isHolding : ReaderPhase → Bool
  | holding _ => true
  | _ => false

/-- The file steps of a reader. -/
inductive ReaderStep where
  /-- `os.Stat` of the sidecar and the freshness check. -/
  | stat (now : Int)
  /-- Removal of an expired sidecar. -/
  | removeMeta
  | removeBody
  | readMeta (now : Int)
  | copyBody
  /-- A file operation fails. -/
  | ioError

/-- The response after the status of a hit is committed. -/
def hitWriter (m : Metadata) (now : Int) (info : File) : ResponseWriter :=
  { ResponseWriter.fresh with header := DiskCache.hitHeader ∅ m now info }.writeHeader m.statusCode

/-- One step of `StreamCachedResponse` with age limit `age`. -/
def readerStep (age : Int) (files : Files) :
    ReaderPhase → ReaderStep → Option (ReaderPhase × Files)
  | .ready, .stat now =>
      match files.sidecar with
      | none => some (.failed, files)
      | some info => some (if DiskCache.stale age now info then .expired else .fresh info, files)
  | .expired, .removeMeta => some (.expiredMeta, { files with sidecar := none })
  | .expiredMeta, .removeBody => some (.failed, { files with body := none })
  | .fresh info, .readMeta now =>
      match files.sidecar with
      | none => some (.failed, files)
      | some file =>
          match readMetadata file.data with
          | .error _ => some (.failed, files)
          | .ok m =>
              if m.statusCode < 100 ∨ 999 < m.statusCode then some (.failed, files)
              else some (.holding (hitWriter m now info), files)
  | .holding w, .copyBody =>
      match files.body with
      | none => some (.failed, files)
      | some file => some (.served (w.acceptFrom file.data), files)
  | .ready, .ioError => some (.failed, files)
  | .fresh _, .ioError => some (.failed, files)
  | .holding _, .ioError => some (.failed, files)
  | _, _ => none

/-- The key's files with any number of writers and readers. -/
structure State where
  files : Files
  /-- The calls of `SetResponseToCache`. -/
  writers : Nat → WriterPhase
  /-- The calls of `StreamCachedResponse`. -/
  readers : Nat → ReaderPhase

/-- No file and no call in progress. -/
def State.init : State := ⟨⟨none, none⟩, fun _ => .ready, fun _ => .ready⟩

/-- A step of one of the calls. -/
inductive Action where
  | writer (i : Nat) (a : WriterStep)
  | reader (j : Nat) (a : ReaderStep)

/-- One step of the system. -/
def step (age : Int) (calls : Nat → Call) (s : State) : Action → Option State
  | .writer i a =>
      (writerStep (calls i) s.files (s.writers i) a).map fun (phase, files) =>
        { s with files := files, writers := update s.writers i phase }
  | .reader j a =>
      (readerStep age s.files (s.readers j) a).map fun (phase, files) =>
        { s with files := files, readers := update s.readers j phase }

/-- The steps of a writer that meets no error, up to its sidecar. -/
def openWrite (i : Nat) (now : Int) : List Action :=
  [.writer i .start, .writer i (.space true), .writer i (.writeMeta now true)]

/-- The steps of a reader that meets no error. -/
def readAll (j : Nat) (now : Int) : List Action :=
  [.reader j (.stat now), .reader j (.readMeta now), .reader j .copyBody]

/-- The two files of a key in the cache directory. -/
def filesOf (disk : Disk) (key : Key) : Files :=
  ⟨disk.lookup (cachePath key metaExt), disk.lookup (cachePath key bodyExt)⟩

variable {age : Int} {calls : Nat → Call} {s : State} {j i : Nat} {w : ResponseWriter} {c : Call}
  {files' : Files} {p : WriterPhase} {p' : ReaderPhase}

theorem exec_readAll {now : Int} (hready : s.readers j = .ready)
    (hserved : DiskCache.servedFrom age now s.files.sidecar s.files.body = some w) :
    ∃ t, Runs.exec (step age calls) s (readAll j now) = some t ∧ t.readers j = .served w ∧
      t.files = s.files := by
  obtain ⟨info, hinfo, hserved⟩ := Option.bind_eq_some_iff.mp hserved
  by_cases hstale : DiskCache.stale age now info = true
  · simp [hstale] at hserved
  · rw [if_neg hstale] at hserved
    obtain ⟨m, hm, hserved⟩ := Option.bind_eq_some_iff.mp hserved
    by_cases hcode : m.statusCode < 100 ∨ 999 < m.statusCode
    · simp [hcode] at hserved
    · rw [if_neg hcode] at hserved
      obtain ⟨file, hfile, rfl⟩ := Option.map_eq_some_iff.mp hserved
      have hread : readMetadata info.data = .ok m := by
        cases h : readMetadata info.data <;> simp_all [Except.toOption]
      simp [Runs.exec, readAll, step, readerStep, hready, hinfo, hstale, hread, hcode, hfile,
        hitWriter]

/-- A writer that is not disturbed and needs no space leaves the files the sequential
write leaves. -/
theorem exec_openWrite {now : Int} (hready : s.writers i = .ready) {d : DiskCache}
    (hsize : d.maxSize = 0) {key : Key}
    (hstorable : DiskCache.storable (calls i).statusCode (calls i).body = true) :
    ∃ t, Runs.exec (step age calls) s (openWrite i now ++ [.writer i (.writeBody now true)]) =
        some t ∧
      t.files = filesOf (d.setResponseToCache now ⟨true, true⟩ key (calls i).host (calls i).path
        (calls i).statusCode (calls i).headers (calls i).body).2.disk key := by
  have hne := cachePath_meta_ne_body key key
  simp [Runs.exec, openWrite, step, writerStep, hready, hstorable, filesOf,
    DiskCache.setResponseToCache, DiskCache.ensureSpace, hsize, DiskCache.touch,
    DiskCache.setShard, hne, Call.sidecar]

/-- A response that carries the status, headers and body of one call. -/
def ServesCall (c : Call) (w : ResponseWriter) : Prop :=
  ∃ m now info, readMetadata c.sidecar = .ok m ∧ w = (hitWriter m now info).acceptFrom c.body

/-- What the callers rely on: a reader that returned nil served one call, and when
no writer is active the two files come from one call. -/
structure SingleResponse (calls : Nat → Call) (s : State) : Prop where
  served : ∀ j w, s.readers j = .served w →
    ∃ i, (s.writers i).started = true ∧ ServesCall (calls i) w
  files : (∀ i, (s.writers i).quiet = true) → ∀ f g,
    s.files.sidecar = some f → s.files.body = some g →
    ∃ i, (s.writers i).started = true ∧ f.data = (calls i).sidecar ∧ g.data = (calls i).body

/-- The schedules that keep responses apart: no sidecar is replaced while another
writer is between its two files or a reader between its two reads, and none is
read while a writer is between its two files. -/
def Exclusive (s : State) : Action → Prop
  | .writer _ (.writeMeta _ true) =>
      (∀ k, (s.writers k).mid = false) ∧ ∀ j, (s.readers j).isHolding = false
  | .reader _ (.readMeta _) => ∀ k, (s.writers k).mid = false
  | _ => True

/-- Every file that is there is the one that was there. -/
structure Files.Within (new old : Files) : Prop where
  sidecar : ∀ f, new.sidecar = some f → old.sidecar = some f
  body : ∀ f, new.body = some f → old.body = some f

/-- Everything a step of a writer can do: remove files, put its sidecar in place, or
put its body in place. A writer that gives up halfway has removed the sidecar. -/
theorem writerStep_cases {files : Files} {p' : WriterPhase} {a : WriterStep}
    (hstep : writerStep c files p a = some (p', files')) :
    (files'.Within files ∧ p'.started = true ∧ (p'.mid = true → p.mid = true) ∧
      (p.mid = true → p'.mid = false → files'.sidecar = none)) ∨
    (∃ now, a = .writeMeta now true ∧ p' = .metaDone ∧
      files' = { files with sidecar := some ⟨c.sidecar, now⟩ }) ∨
    (∃ now, p = .metaDone ∧ p' = .finished (.ok ()) ∧
      files' = { files with body := some ⟨c.body, now⟩ }) := by
  unfold writerStep at hstep
  split at hstep <;> simp only [Option.some.injEq, Prod.mk.injEq, reduceCtorEq] at hstep <;>
    obtain ⟨rfl, rfl⟩ := hstep
  case h_6 now => exact .inr (.inl ⟨now, rfl, rfl, rfl⟩)
  case h_8 now => exact .inr (.inr ⟨now, rfl, rfl, rfl⟩)
  case h_1 =>
    refine .inl ⟨⟨fun f h => h, fun f h => h⟩, ?_⟩
    split <;> simp [WriterPhase.started, WriterPhase.mid]
  all_goals
    exact .inl ⟨⟨by simp, by simp⟩, by simp [WriterPhase.started, WriterPhase.mid]⟩

/-- Everything a step of a reader can do: remove files or give up, read the sidecar
and commit its status, or copy the body. -/
theorem readerStep_cases {files : Files} {p : ReaderPhase} {a : ReaderStep}
    (hstep : readerStep age files p a = some (p', files')) :
    (files'.Within files ∧ (∀ w, p' ≠ .holding w) ∧ ∀ w, p' ≠ .served w) ∨
    (files' = files ∧ ∃ now info file m, a = .readMeta now ∧ files.sidecar = some file ∧
      readMetadata file.data = .ok m ∧ p' = .holding (hitWriter m now info)) ∨
    (files' = files ∧ ∃ w file, p = .holding w ∧ files.body = some file ∧
      p' = .served (w.acceptFrom file.data)) := by
  have hself : files.Within files := ⟨fun _ h => h, fun _ h => h⟩
  unfold readerStep at hstep
  split at hstep
  case h_1 =>
    split at hstep <;> simp only [Option.some.injEq, Prod.mk.injEq] at hstep <;>
      obtain ⟨rfl, rfl⟩ := hstep
    · exact .inl ⟨hself, by simp, by simp⟩
    · refine .inl ⟨hself, ?_, ?_⟩ <;> intro w <;> split <;> simp
  case h_4 info now =>
    split at hstep
    case h_1 =>
      obtain ⟨rfl, rfl⟩ := by simpa using hstep
      exact .inl ⟨hself, by simp, by simp⟩
    case h_2 file hfile =>
      split at hstep
      case h_1 =>
        obtain ⟨rfl, rfl⟩ := by simpa using hstep
        exact .inl ⟨hself, by simp, by simp⟩
      case h_2 m hm =>
        split at hstep <;> obtain ⟨rfl, rfl⟩ := by simpa using hstep
        · exact .inl ⟨hself, by simp, by simp⟩
        · exact .inr (.inl ⟨rfl, now, info, file, m, rfl, hfile, hm, rfl⟩)
  case h_5 w =>
    split at hstep <;> simp only [Option.some.injEq, Prod.mk.injEq] at hstep <;>
      obtain ⟨rfl, rfl⟩ := hstep
    · exact .inl ⟨hself, by simp, by simp⟩
    · next file hfile => exact .inr (.inr ⟨rfl, w, file, rfl, hfile, rfl⟩)
  all_goals
    simp only [Option.some.injEq, Prod.mk.injEq, reduceCtorEq] at hstep
  all_goals
    obtain ⟨rfl, rfl⟩ := hstep
    exact .inl ⟨⟨by simp, by simp⟩, by simp, by simp⟩

/-- The header of a call is committed and the body that is there, if any, is its own. -/
def Pending (calls : Nat → Call) (s : State) (w : ResponseWriter) : Prop :=
  ∃ i, (s.writers i).started = true ∧
    (∃ m now info, readMetadata (calls i).sidecar = .ok m ∧ w = hitWriter m now info) ∧
    ∀ g, s.files.body = some g → g.data = (calls i).body

/-- The invariant of the exclusive schedules. -/
structure Coherent (calls : Nat → Call) (s : State) : Prop where
  midUnique : ∀ i k, (s.writers i).mid = true → (s.writers k).mid = true → i = k
  midNotHolding : ∀ i j, (s.writers i).mid = true → (s.readers j).isHolding = false
  midSidecar : ∀ i, (s.writers i).mid = true → ∀ f, s.files.sidecar = some f →
    f.data = (calls i).sidecar
  pair : (∀ i, (s.writers i).mid = false) → ∀ f, s.files.sidecar = some f →
    ∃ i, (s.writers i).started = true ∧ f.data = (calls i).sidecar ∧
      ∀ g, s.files.body = some g → g.data = (calls i).body
  /-- A reader that committed a status will find the matching body or none. -/
  held : ∀ j w, s.readers j = .holding w → Pending calls s w
  served : ∀ j w, s.readers j = .served w →
    ∃ i, (s.writers i).started = true ∧ ServesCall (calls i) w

theorem coherent_init (calls : Nat → Call) : Coherent calls State.init := by
  constructor <;> simp [State.init, WriterPhase.mid]

theorem started_update {writers : Nat → WriterPhase} (hp : p.started = true) :
    ∀ k, (writers k).started = true → (update writers i p k).started = true :=
  (Function.forall_update_iff writers
    fun k q => (writers k).started = true → q.started = true).mpr ⟨fun _ => hp, fun _ _ hk => hk⟩

/-- A step that at most removes files and starts nothing keeps a pending reader pending. -/
theorem Pending.mono {t : State} (hpending : Pending calls s w)
    (hfiles : ∀ g, t.files.body = some g → s.files.body = some g)
    (hstarted : ∀ i, (s.writers i).started = true → (t.writers i).started = true) :
    Pending calls t w := by
  obtain ⟨i, hi, hw, hbody⟩ := hpending
  exact ⟨i, hstarted i hi, hw, fun g hg => hbody g (hfiles g hg)⟩

theorem Coherent.served_update (hs : Coherent calls s) (hp : p.started = true)
    (hj : s.readers j = .served w) :
    ∃ k, (update s.writers i p k).started = true ∧ ServesCall (calls k) w := by
  obtain ⟨k, hk, hserves⟩ := hs.served j w hj
  exact ⟨k, started_update hp k hk, hserves⟩

/-- A writer that at most removes files keeps the invariant: whoever is between its files
now was so before. -/
theorem Coherent.writer_within (hs : Coherent calls s) {p' : WriterPhase}
    (hwithin : files'.Within s.files) (hstarted : p'.started = true)
    (hmid : p'.mid = true → (s.writers i).mid = true)
    (hgone : (s.writers i).mid = true → p'.mid = false → files'.sidecar = none) :
    Coherent calls { s with files := files', writers := update s.writers i p' } := by
  have hback : ∀ k, (update s.writers i p' k).mid = true → (s.writers k).mid = true :=
    (Function.forall_update_iff s.writers fun k p => p.mid = true → (s.writers k).mid = true).mpr
      ⟨hmid, fun _ _ hk => hk⟩
  refine ⟨fun k l hk hl => hs.midUnique k l (hback k hk) (hback l hl),
    fun k j hk => hs.midNotHolding k j (hback k hk),
    fun k hk f hf => hs.midSidecar k (hback k hk) f (hwithin.sidecar f hf), ?_,
    fun j w hj => (hs.held j w hj).mono hwithin.body (started_update hstarted),
    fun j w => hs.served_update hstarted⟩
  intro hnone f hf
  obtain ⟨hp', hothers⟩ :=
    (Function.forall_update_iff s.writers fun _ p => p.mid = false).mp hnone
  have hbefore : ∀ k, (s.writers k).mid = false := by
    intro k
    by_cases h : k = i
    · subst h
      by_contra hk
      rw [hgone (by simpa using hk) hp'] at hf
      cases hf
    · exact hothers k h
  obtain ⟨k, hk, hmeta, hbody⟩ := hs.pair hbefore f (hwithin.sidecar f hf)
  exact ⟨k, started_update hstarted k hk, hmeta, fun g hg => hbody g (hwithin.body g hg)⟩

/-- A writer that puts its sidecar in place alone keeps the invariant: it is then the only
one between its files. -/
theorem Coherent.writer_sidecar (hs : Coherent calls s) (hnomid : ∀ k, (s.writers k).mid = false)
    (hnohold : ∀ j, (s.readers j).isHolding = false) (i : Nat) (now : Int) :
    Coherent calls
      { s with files := { s.files with sidecar := some ⟨(calls i).sidecar, now⟩ },
               writers := update s.writers i .metaDone } := by
  have honly : ∀ k, (update s.writers i WriterPhase.metaDone k).mid = true → k = i :=
    (Function.forall_update_iff s.writers fun k p => p.mid = true → k = i).mpr
      ⟨fun _ => rfl, fun k _ hk => absurd hk (by simp [hnomid k])⟩
  refine ⟨fun k l hk hl => (honly k hk).trans (honly l hl).symm, fun k j _ => hnohold j, ?_, ?_,
    fun j w hj => (hs.held j w hj).mono (fun g hg => hg) (started_update rfl),
    fun j w => hs.served_update rfl⟩
  · intro k hk f hf
    rw [honly k hk]
    obtain rfl : _ = f := by simpa using hf
    rfl
  · intro hnone
    exact absurd (hnone i) (by simp [WriterPhase.mid])

/-- A writer that puts its body in place keeps the invariant: the sidecar, if still there,
is its own. -/
theorem Coherent.writer_body (hs : Coherent calls s) (hmid : (s.writers i).mid = true) (now : Int) :
    Coherent calls
      { s with files := { s.files with body := some ⟨(calls i).body, now⟩ },
               writers := update s.writers i (.finished (.ok ())) } := by
  have hnone : ∀ k, (update s.writers i (.finished (.ok ())) k).mid = false := by
    refine (Function.forall_update_iff s.writers fun _ p => p.mid = false).mpr ⟨rfl, ?_⟩
    intro k hki
    by_contra hk
    exact hki (hs.midUnique k i (by simpa using hk) hmid)
  refine ⟨fun k l hk => absurd hk (by simp [hnone]), fun k j hk => absurd hk (by simp [hnone]),
    fun k hk => absurd hk (by simp [hnone]), ?_, ?_, fun j w => hs.served_update rfl⟩
  · intro _ f hf
    refine ⟨i, by simp [WriterPhase.started], hs.midSidecar i hmid f hf, ?_⟩
    intro g hg
    obtain rfl : _ = g := by simpa using hg
    rfl
  · intro j w hj
    have hhold := hs.midNotHolding i j hmid
    rw [show s.readers j = _ from hj] at hhold
    cases hhold

theorem Coherent.writer (hs : Coherent calls s) {a : WriterStep}
    (hguard : Exclusive s (.writer i a)) {p' : WriterPhase}
    (hstep : writerStep (calls i) s.files (s.writers i) a = some (p', files')) :
    Coherent calls
      { s with files := files', writers := update s.writers i p' } := by
  rcases writerStep_cases hstep with
    ⟨hwithin, hstarted, hmid, hgone⟩ | ⟨now, rfl, rfl, rfl⟩ | ⟨now, hp, rfl, rfl⟩
  · exact hs.writer_within hwithin hstarted hmid hgone
  · exact hs.writer_sidecar hguard.1 hguard.2 i now
  · exact hs.writer_body (by rw [hp]; rfl) now

theorem reader_update_of_ne {readers : Nat → ReaderPhase} {l : Nat} {p : ReaderPhase}
    (hl : update readers j p' l = p) (hp : p ≠ p') : readers l = p := by
  by_cases h : l = j
  · subst h
    exact absurd (by simpa using hl.symm) hp
  · simpa [update_of_ne h] using hl

/-- A step into another phase makes no reader hold a status. -/
theorem not_isHolding_update {readers : Nat → ReaderPhase} (hp' : ∀ w, p' ≠ .holding w) :
    ∀ l, (readers l).isHolding = false → (update readers j p' l).isHolding = false := by
  refine (Function.forall_update_iff readers
    fun l q => (readers l).isHolding = false → q.isHolding = false).mpr
      ⟨fun _ => ?_, fun _ _ h => h⟩
  cases p' with
  | holding w => exact absurd rfl (hp' w)
  | _ => rfl

theorem Coherent.reader (hs : Coherent calls s) {a : ReaderStep}
    (hguard : Exclusive s (.reader j a))
    (hstep : readerStep age s.files (s.readers j) a = some (p', files')) :
    Coherent calls
      { s with files := files', readers := update s.readers j p' } := by
  rcases readerStep_cases hstep with
    ⟨hwithin, hnohold, hnoserve⟩ | ⟨rfl, now, info, file, m, rfl, hfile, hm, rfl⟩ |
    ⟨rfl, w, file, hp, hfile, rfl⟩
  · refine ⟨hs.midUnique, fun k l hk => not_isHolding_update hnohold l (hs.midNotHolding k l hk),
      fun k hk f hf => hs.midSidecar k hk f (hwithin.sidecar f hf), ?_, ?_, ?_⟩
    · intro hnone f hf
      obtain ⟨k, hk, hmeta, hbody⟩ := hs.pair hnone f (hwithin.sidecar f hf)
      exact ⟨k, hk, hmeta, fun g hg => hbody g (hwithin.body g hg)⟩
    · intro l w hl
      have hbefore := reader_update_of_ne hl (hnohold w).symm
      exact (hs.held l w hbefore).mono hwithin.body (fun _ h => h)
    · intro l w hl
      exact hs.served l w (reader_update_of_ne hl (hnoserve w).symm)
  · -- No writer is between its files, so the sidecar and the body are of one call.
    refine ⟨hs.midUnique, fun k l hk => absurd hk (by simp [hguard k]), hs.midSidecar, hs.pair,
      ?_, ?_⟩
    · intro l w hl
      by_cases hw : w = hitWriter m now info
      · obtain ⟨k, hk, hmeta, hbody⟩ := hs.pair hguard file hfile
        exact ⟨k, hk, ⟨m, now, info, hmeta ▸ hm, hw⟩, hbody⟩
      · exact hs.held l w (reader_update_of_ne hl (by simpa using hw))
    · intro l w hl
      exact hs.served l w (reader_update_of_ne hl (by simp))
  · refine ⟨hs.midUnique, fun k l hk => not_isHolding_update (by simp) l
      (hs.midNotHolding k l hk), hs.midSidecar, hs.pair, ?_, ?_⟩
    · intro l v hl
      exact hs.held l v (reader_update_of_ne hl (by simp))
    · intro l v hl
      by_cases hv : v = w.acceptFrom file.data
      · obtain ⟨k, hk, ⟨m, now, info, hm, hw⟩, hbody⟩ := hs.held j w hp
        exact ⟨k, hk, m, now, info, hm, by rw [hv, hw, hbody file hfile]⟩
      · exact hs.served l v (reader_update_of_ne hl (by simpa using hv))

theorem Coherent.step (s : State) (a : Action) (t : State) (hs : Coherent calls s)
    (hguard : Exclusive s a) (hstep : Concurrent.step age calls s a = some t) :
    Coherent calls t := by
  cases a with
  | writer i a =>
    obtain ⟨⟨p', files'⟩, hnext, rfl⟩ := Option.map_eq_some_iff.mp hstep
    exact hs.writer hguard hnext
  | reader j a =>
    obtain ⟨⟨p', files'⟩, hnext, rfl⟩ := Option.map_eq_some_iff.mp hstep
    exact hs.reader hguard hnext

theorem Coherent.singleResponse (hs : Coherent calls s) : SingleResponse calls s := by
  refine ⟨hs.served, ?_⟩
  intro hquiet f g hf hg
  have hnone : ∀ i, (s.writers i).mid = false := by
    intro i
    have h := hquiet i
    cases hp : s.writers i <;> simp_all [WriterPhase.quiet, WriterPhase.mid]
  obtain ⟨i, hi, hmeta, hbody⟩ := hs.pair hnone f hf
  exact ⟨i, hi, hmeta, hbody g hg⟩

/-- In every run whose schedule is exclusive, every reader that returns nil has
served one call, and the files left by the writers come from one call. -/
theorem singleResponse_of_exclusive {age : Int} {calls : Nat → Call} {s : State}
    (hreach : Runs.Reaches (step age calls) Exclusive State.init s) :
    SingleResponse calls s :=
  (hreach.invariant Coherent.step (coherent_init calls)).singleResponse

/-- Two calls that store different responses: call 0 and all the others. -/
def twoCalls (i : Nat) : Call :=
  if i = 0 then ⟨str "example.com", str "/a", 200, ∅, str "old"⟩
  else ⟨str "example.com", str "/a", 203, ∅, str "new"⟩

/-- Call 1 stores its whole response between the two files of call 0, and a reader
comes after both. -/
def crossedWrites : List Action :=
  openWrite 0 0 ++ openWrite 1 0 ++
    [.writer 1 (.writeBody 0 true), .writer 0 (.writeBody 0 true)] ++ readAll 0 0

theorem ServesCall.body_eq (hserves : ServesCall c w) : w.body = c.body := by
  obtain ⟨m, now, info, -, rfl⟩ := hserves
  have hempty : (hitWriter m now info).body = [] := by
    unfold hitWriter ResponseWriter.writeHeader
    split <;> rfl
  unfold ResponseWriter.acceptFrom
  split
  · next h => rw [hempty, h]
  · simp [ResponseWriter.accept, hempty]

theorem ServesCall.status_eq (hserves : ServesCall c w) {m : Metadata}
    (hread : readMetadata c.sidecar = .ok m) (hcode : 200 ≤ m.statusCode) :
    w.sent.map Prod.fst = some m.statusCode := by
  obtain ⟨m', now, info, hm', rfl⟩ := hserves
  obtain rfl : m = m' := by simpa [hread] using hm'
  have hsent : (hitWriter m now info).sent =
      some (m.statusCode, DiskCache.hitHeader ∅ m now info) :=
    ResponseWriter.sent_writeHeader rfl hcode
  rw [ResponseWriter.sent_acceptFrom hsent]
  rfl

def crossedState : State :=
  (Runs.exec (step 0 twoCalls) State.init crossedWrites).get (by decide)

/-- Two crossing writers leave the sidecar of one and the body of the other, and the
next reader serves the mixture without an error. -/
theorem crossedWrites_mix :
    Runs.Reaches (step 0 twoCalls) Runs.Unrestricted State.init crossedState ∧
    ¬ SingleResponse twoCalls crossedState ∧
    (∀ i, (crossedState.writers i).quiet = true) ∧
    ∃ f g, crossedState.files = ⟨some f, some g⟩ ∧
      ∀ i, ¬ (f.data = (twoCalls i).sidecar ∧ g.data = (twoCalls i).body) := by
  refine ⟨Runs.reaches_exec _,
    ?_, ?_, _, _, rfl, ?_⟩
  · intro hsingle
    obtain ⟨i, -, hserves⟩ := hsingle.served 0 _ rfl
    by_cases hi : i = 0
    · subst hi
      have hstatus := hserves.status_eq (m := ⟨200, str "example.com", str "/a", ∅⟩) rfl (by decide)
      exact absurd hstatus (by decide)
    · have hbody := hserves.body_eq
      simp only [twoCalls, if_neg hi] at hbody
      exact absurd hbody (by decide)
  · intro i
    match i with
    | 0 => rfl
    | 1 => rfl
    | i + 2 => rfl
  · rintro i ⟨hmeta, hbody⟩
    by_cases hi : i = 0
    · subst hi
      exact absurd hmeta (by decide)
    · simp only [twoCalls, if_neg hi] at hbody
      exact absurd hbody (by decide)

def orderlyWrites : List Action :=
  openWrite 0 0 ++ [.writer 0 (.writeBody 0 true)] ++ openWrite 1 0 ++
    [.writer 1 (.writeBody 0 true)] ++ readAll 0 0

def orderlyState : State :=
  (Runs.exec (step 0 twoCalls) State.init orderlyWrites).get (by decide)

theorem orderlyWrites_admitted :
    Runs.Admitted (step 0 twoCalls) Exclusive State.init orderlyWrites := by
  refine .cons trivial rfl (.cons trivial rfl (.cons ⟨?_, ?_⟩ rfl (.cons trivial rfl
    (.cons trivial rfl (.cons trivial rfl (.cons ⟨?_, ?_⟩ rfl (.cons trivial rfl
    (.cons trivial rfl (.cons ?_ rfl (.cons trivial rfl trivial))))))))))
  all_goals
    intro k
    match k with
    | 0 => rfl
    | 1 => rfl
    | k + 2 => rfl

/-- The reader that follows two orderly calls serves the second one. -/
theorem orderlyWrites_single : SingleResponse twoCalls orderlyState ∧
    ∃ w, orderlyState.readers 0 = .served w ∧ w.body = (twoCalls 1).body :=
  ⟨singleResponse_of_exclusive (Runs.reaches_get
    orderlyWrites_admitted), _, rfl, rfl⟩

end Peretum.Cache.Concurrent
