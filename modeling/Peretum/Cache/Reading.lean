import Peretum.Cache.Failures

/-!
# Reads among other calls

`StreamCachedResponseTTL` looks at the sidecar, reads it, commits the status and the headers
it holds, and only then opens the body. Other calls may change the files between any two of
these steps, each step can fail, and so can the copy into the response: `net/http` refuses a
body the response must not have. This file embeds the read over what it finds at its file
operations and shows when a read that fails has left the response alone.
-/

namespace Peretum.Cache.Reading

open Go

/-- What a read finds at its file operations. -/
structure Sight where
  /-- What `os.Stat` says about the sidecar. -/
  info : Option File
  /-- The clock when the age of the sidecar is tested. -/
  now : Int
  /-- The bytes that can be read from the sidecar, once it is open. -/
  sidecar : Option Str
  /-- The clock when the age is announced. -/
  later : Int
  /-- The bytes that can be read from the body, once it is open, and whether they end with an
  error. -/
  body : Option (Str × Bool)

/-- What is found in the files as they are at the three steps, when no operation fails. -/
def Sight.across (atStat atRead atCopy : Disk) (key : Key) (now later : Int) : Sight where
  info := atStat.lookup (cachePath key metaExt)
  now := now
  sidecar := (atRead.lookup (cachePath key metaExt)).map File.data
  later := later
  body := (atCopy.lookup (cachePath key bodyExt)).map fun file => (file.data, false)

/-- What is found when nothing else happens. -/
def Sight.alone (disk : Disk) (key : Key) (now : Int) : Sight :=
  .across disk disk disk key now now

/-- The errors a read returns. -/
inductive ReadError where
  /-- `os.Stat` fails. -/
  | stat
  /-- The entry is older than its age limit. -/
  | expired
  /-- `openMetaFile` fails. -/
  | openMeta
  /-- `readMetadata` fails. -/
  | metadata (e : MetaError)
  /-- `os.Open` fails for the body. -/
  | openBody
  /-- The body cannot be read to its end. -/
  | copyBody
  /-- The response writer refuses bytes of the body. -/
  | refused (e : WriteError)
  deriving DecidableEq

/-- How a read ends. -/
inductive Outcome where
  /-- It returns nil. -/
  | done
  /-- It returns an error. -/
  | failed (e : ReadError)
  /-- `WriteHeader` panics on the status. -/
  | panicked (code : Nat)
  deriving DecidableEq

/-- The last part of `streamCachedResponse`, which copies the body. -/
def copyBody (body : Option (Str × Bool)) (w : ResponseWriter) : Outcome × ResponseWriter :=
  match body with
  | none => (.failed .openBody, w)
  | some (data, broken) =>
      let (refused, w) := w.copyFrom data
      (refused.elim (if broken then .failed .copyBody else .done) fun e => .failed (.refused e), w)

/-- The response once the status and the headers of an entry are written. -/
def commit (w : ResponseWriter) (m : Metadata) (now : Int) (info : File) : ResponseWriter :=
  { w with header := DiskCache.hitHeader w.header m now info }.writeHeader m.statusCode

/-- `streamCachedResponse` with age limit `age`. -/
def streamCachedResponse (age : Int) (s : Sight) (w : ResponseWriter) : Outcome × ResponseWriter :=
  match s.info with
  | none => (.failed .stat, w)
  | some info =>
      if DiskCache.stale age s.now info then (.failed .expired, w)
      else
        match s.sidecar with
        | none => (.failed .openMeta, w)
        | some data =>
            match readMetadata data with
            | .error e => (.failed (.metadata e), w)
            | .ok m =>
                -- `WriteHeader` looks at a status only if none is committed yet.
                if w.sent.isNone ∧ (m.statusCode < 100 ∨ 999 < m.statusCode) then
                  (.panicked m.statusCode,
                    { w with header := DiskCache.hitHeader w.header m s.later info })
                else copyBody s.body (commit w m s.later info)

/-- What the sequential read returns when this one ends so, with a writer that takes all. -/
def Outcome.result : Outcome → Except DiskCache.StreamError Unit
  | .done => .ok ()
  | .failed .stat | .failed .openMeta => .error .notFound
  | .failed .expired => .error .expired
  | .failed (.metadata e) => .error (.metadata e)
  | .failed .openBody | .failed .copyBody | .failed (.refused _) => .error .noBody
  | .panicked code => .error (.invalidStatus code)

/-- When nothing else happens and no byte is refused, this is the sequential read. -/
theorem streamCachedResponse_alone (d : DiskCache) (now : Int) {w : ResponseWriter}
    (hw : w.sent = none) (key : Key) (ttl : Int)
    (htaken : ∀ e, (streamCachedResponse (d.ageLimit ttl) (.alone d.disk key now) w).1 ≠
      .failed (.refused e)) :
    (d.streamCachedResponse now w key ttl).result =
        (streamCachedResponse (d.ageLimit ttl) (.alone d.disk key now) w).1.result ∧
      (d.streamCachedResponse now w key ttl).writer =
        (streamCachedResponse (d.ageLimit ttl) (.alone d.disk key now) w).2 := by
  unfold streamCachedResponse Sight.alone Sight.across at htaken ⊢
  unfold DiskCache.streamCachedResponse
  cases hmeta : d.disk.lookup (cachePath key metaExt) with
  | none => exact ⟨rfl, rfl⟩
  | some info =>
    simp only [hmeta, Option.map_some] at htaken ⊢
    by_cases hstale : DiskCache.stale (d.ageLimit ttl) now info = true
    · simp [hstale, Outcome.result]
    · cases hread : readMetadata info.data with
      | error e => simp [hstale, Outcome.result]
      | ok m =>
        by_cases hcode : m.statusCode < 100 ∨ 999 < m.statusCode
        · simp [hstale, hcode, hw, Outcome.result]
        · cases hbody : d.disk.lookup (cachePath key bodyExt) with
          | none => simp [hstale, hcode, Outcome.result, copyBody, commit]
          | some file =>
            simp only [hstale, hread, hcode, hbody, and_false, if_false, Option.map_some,
              copyBody, commit, Bool.false_eq_true] at htaken ⊢
            obtain ⟨herror, hwriter⟩ := ResponseWriter.copyFrom_eq ({ w with
              header := DiskCache.hitHeader w.header m now info }.writeHeader m.statusCode) file.data
            rcases hcopy : ResponseWriter.copyFrom _ file.data with ⟨_ | e, w'⟩
            · rw [hcopy] at herror hwriter
              exact ⟨rfl, (hwriter herror.symm).symm⟩
            · rw [hcopy] at htaken
              exact absurd rfl (htaken e)

/-- The sidecar a read goes on with: it is fresh, and it parses. -/
def Sight.accepted (s : Sight) (age : Int) : Option (File × Metadata) :=
  s.info.bind fun info =>
    if DiskCache.stale age s.now info then none
    else (s.sidecar.bind fun data => (readMetadata data).toOption).map fun m => (info, m)

/-- A read with a sidecar to go on with commits it and copies the body, unless `WriteHeader`
panics on the status. -/
theorem streamCachedResponse_of_accepted {age : Int} {s : Sight} {info : File} {m : Metadata}
    (haccepted : s.accepted age = some (info, m)) (w : ResponseWriter) :
    streamCachedResponse age s w =
      if w.sent.isNone ∧ (m.statusCode < 100 ∨ 999 < m.statusCode) then
        (.panicked m.statusCode, { w with header := DiskCache.hitHeader w.header m s.later info })
      else copyBody s.body (commit w m s.later info) := by
  obtain ⟨info', hinfo, haccepted⟩ := Option.bind_eq_some_iff.mp haccepted
  split_ifs at haccepted with hstale
  obtain ⟨m', hread, hpair⟩ := Option.map_eq_some_iff.mp haccepted
  obtain ⟨rfl, rfl⟩ := Prod.mk.inj hpair
  obtain ⟨data, hdata, hread⟩ := Option.bind_eq_some_iff.mp hread
  have hok : readMetadata data = .ok m' := by
    cases h : readMetadata data with
    | error e => simp [h, Except.toOption] at hread
    | ok m => simpa [h, Except.toOption] using hread
  simp only [streamCachedResponse, hinfo, hstale, hdata, hok, Bool.false_eq_true, if_false]

theorem streamCachedResponse_of_not_accepted {age : Int} {s : Sight}
    (haccepted : s.accepted age = none) (w : ResponseWriter) :
    ∃ e, streamCachedResponse age s w = (.failed e, w) := by
  unfold Sight.accepted at haccepted
  unfold streamCachedResponse
  cases hinfo : s.info with
  | none => exact ⟨_, rfl⟩
  | some info =>
    by_cases hstale : DiskCache.stale age s.now info = true
    · exact ⟨.expired, by simp [hstale]⟩
    · cases hdata : s.sidecar with
      | none => exact ⟨.openMeta, by simp [hstale]⟩
      | some data =>
        cases hread : readMetadata data with
        | error e => exact ⟨.metadata e, by simp [hstale, hread]⟩
        | ok m => simp [hinfo, hstale, hdata, hread, Except.toOption] at haccepted

/-- The body of an entry that is being served can be opened, read to its end and sent: the
response committed for it takes the bytes that it gets to see. -/
def Sight.Sendable (s : Sight) (w : ResponseWriter) : Prop :=
  ∃ data, s.body = some (data, false) ∧ w.refuses (w.checked data) = none

variable (s : Sight) (body : Option (Str × Bool)) (w : ResponseWriter)

/-- The copy of the body succeeds exactly if the body can be sent, and returns an error
otherwise. -/
theorem copyBody_cases : ((copyBody s.body w).1 = .done ∧ s.Sendable w) ∨
      ((∃ e, (copyBody s.body w).1 = .failed e) ∧ ¬ s.Sendable w) := by
  unfold copyBody Sight.Sendable
  rcases s.body with _ | ⟨data, broken⟩
  · exact .inr ⟨⟨_, rfl⟩, by simp⟩
  · simp only [(w.copyFrom_eq data).1]
    cases hrefuses : w.refuses (w.checked data) with
    | some e => exact .inr ⟨⟨_, rfl⟩, by simp [hrefuses]⟩
    | none =>
      cases broken
      · exact .inl ⟨rfl, data, rfl, hrefuses⟩
      · exact .inr ⟨⟨_, rfl⟩, by simp⟩

/-- However it ends, a copy leaves the writer `io.Copy` leaves. -/
theorem writer_copyBody : (copyBody body w).2 = body.elim w fun read => (w.copyFrom read.1).2 := by
  cases body <;> rfl

@[simp] theorem header_commit (m : Metadata) (now : Int) (info : File) :
    (commit w m now info).header = DiskCache.hitHeader w.header m now info := by
  unfold commit ResponseWriter.writeHeader
  split <;> rfl

@[simp] theorem header_copyBody : (copyBody body w).2.header = w.header := by
  cases body with
  | none => rfl
  | some read => exact w.header_copyFrom read.1

theorem lookup_xCache_hitHeader (header : Header) (m : Metadata) (now : Int) (info : File) :
    (DiskCache.hitHeader header m now info).lookup (str "X-Cache") = some [str "HIT"] := by
  have hage : str "X-Cache" ≠ canonicalMIMEHeaderKey (str "X-Cache-Age") := by decide
  have hself : str "X-Cache" = canonicalMIMEHeaderKey (str "X-Cache") := by decide
  rw [DiskCache.hitHeader, Header.lookup_set, if_neg hage, Header.lookup_set, if_pos hself]

/-- A read that returns an error has written no status, no header and no byte of a body. -/
def CommitsNothing (age : Int) (s : Sight) (w : ResponseWriter) : Prop :=
  ∀ e, (streamCachedResponse age s w).1 = .failed e → (streamCachedResponse age s w).2 = w

/-- Every entry whose sidecar the read goes on with can be sent. -/
def Sound (age : Int) (s : Sight) (w : ResponseWriter) : Prop :=
  ∀ info m, s.accepted age = some (info, m) → 100 ≤ m.statusCode → m.statusCode ≤ 999 →
    s.Sendable (commit w m s.later info)

/-- A read that fails leaves a response alone exactly if it fails before it accepts a sidecar:
a body that cannot be read, or that the response must not have, is noticed too late. -/
theorem commitsNothing_iff (age : Int) (s : Sight) {w : ResponseWriter} (hnew : w.sent = none)
    (hcache : w.header.lookup (str "X-Cache") = none) :
    CommitsNothing age s w ↔ Sound age s w := by
  constructor
  · intro hnothing info m haccepted hlower hupper
    have hread := streamCachedResponse_of_accepted haccepted w
    rw [if_neg (by omega)] at hread
    by_contra hnot
    obtain ⟨-, hsendable⟩ | ⟨⟨e, hfailed⟩, -⟩ := copyBody_cases s (commit w m s.later info)
    · exact hnot hsendable
    -- The hit is announced in the header map, which had nothing of the kind.
    have hsame := hnothing e (by rw [hread]; exact hfailed)
    have hheader := congrArg (fun w => w.header.lookup (str "X-Cache")) hsame
    rw [hread] at hheader
    simp only [header_copyBody, header_commit, lookup_xCache_hitHeader, hcache] at hheader
    cases hheader
  · intro hsound e hfailed
    cases haccepted : s.accepted age with
    | none =>
      obtain ⟨e', heq⟩ := streamCachedResponse_of_not_accepted haccepted w
      rw [heq]
    | some accepted =>
      obtain ⟨info, m⟩ := accepted
      rw [streamCachedResponse_of_accepted haccepted] at hfailed
      split at hfailed
      · cases hfailed
      · next hstatus =>
        rw [hnew] at hstatus
        have hsendable := hsound info m haccepted (by simp at hstatus; omega)
          (by simp at hstatus; omega)
        obtain ⟨hdone, -⟩ | ⟨-, hnot⟩ := copyBody_cases s (commit w m s.later info)
        · rw [hdone] at hfailed
          cases hfailed
        · exact absurd hsendable hnot

/-- The first write of a page is between its two renames. -/
def halfWritten : Sight :=
  .alone (Failures.sidecarDisk (Failures.pageWrite zeroKey (str "x")) (Failures.failing none none)
    (.new ∅ 0 0)) zeroKey 0

/-- The page is evicted once its sidecar is read. -/
def evictedMeanwhile : Sight :=
  .across Failures.stocked.disk Failures.stocked.disk
    (Disk.removeEntry Failures.stocked.disk zeroKey) zeroKey 0 0

/-- A write of a response with status 204 and a body. -/
def noContent : Write := { Failures.pageWrite zeroKey (str "x") with statusCode := 204 }

/-- A write of a response that declares a length. -/
def declaring (length : Str) : Write :=
  { Failures.pageWrite zeroKey (str "xy") with headers := AList.insert contentLength [length] ∅ }

/-- The page is read right after it was stored in an empty cache. -/
def justStored (w : Write) : Sight := .alone (w.run (.new ∅ 0 0)).2.disk zeroKey 0

/-- The reads return an error with the status and the headers of the page committed: the body
is not there yet, or no longer, or the response must not have it. -/
theorem halfWritten_commits :
    ((streamCachedResponse 0 halfWritten .fresh).1 = .failed .openBody ∧
      (streamCachedResponse 0 halfWritten .fresh).2.sent.map Prod.fst = some 200 ∧
      (streamCachedResponse 0 halfWritten .fresh).2.header.lookup (str "X-Cache") =
        some [str "HIT"] ∧
      ¬ CommitsNothing 0 halfWritten .fresh) ∧
    ((streamCachedResponse 0 evictedMeanwhile .fresh).1 = .failed .openBody ∧
      (streamCachedResponse 0 evictedMeanwhile .fresh).2.sent.map Prod.fst = some 200 ∧
      ¬ CommitsNothing 0 evictedMeanwhile .fresh) ∧
    ((streamCachedResponse 0 (justStored noContent) .fresh).1 = .failed (.refused .bodyNotAllowed) ∧
      (streamCachedResponse 0 (justStored noContent) .fresh).2.sent.map Prod.fst = some 204 ∧
      ¬ CommitsNothing 0 (justStored noContent) .fresh) ∧
    ((streamCachedResponse 0 (justStored (declaring (str "1"))) .fresh).1 =
      .failed (.refused .contentLength) ∧
      (streamCachedResponse 0 (justStored (declaring (str "1"))) .fresh).2.sent.map Prod.fst =
        some 200 ∧
      ¬ CommitsNothing 0 (justStored (declaring (str "1"))) .fresh) := by
  -- A response that is committed is not the one the read began with.
  have hcommitted : ∀ s e code, (streamCachedResponse 0 s .fresh).1 = .failed e →
      (streamCachedResponse 0 s .fresh).2.sent.map Prod.fst = some code →
      ¬ CommitsNothing 0 s .fresh := by
    intro s e code hfailed hsent hnothing
    rw [hnothing _ hfailed] at hsent
    cases hsent
  exact ⟨⟨by decide, by decide, by decide, hcommitted _ .openBody 200 (by decide) (by decide)⟩,
    ⟨by decide, by decide, hcommitted _ .openBody 200 (by decide) (by decide)⟩,
    ⟨by decide, by decide, hcommitted _ (.refused .bodyNotAllowed) 204 (by decide) (by decide)⟩,
    by decide, by decide, hcommitted _ (.refused .contentLength) 200 (by decide) (by decide)⟩

/-- A read of a cache without the page fails and leaves the response alone, and a page whose
length is declared as it is gets sent. -/
theorem emptyCache_commits_nothing :
    ((streamCachedResponse 0 (.alone ∅ zeroKey 0) .fresh).1 = .failed .stat ∧
      CommitsNothing 0 (.alone ∅ zeroKey 0) .fresh) ∧
    ((streamCachedResponse 0 (justStored (declaring (str "2"))) .fresh).1 = .done ∧
      CommitsNothing 0 (justStored (declaring (str "2"))) .fresh) := by
  refine ⟨⟨by decide, (commitsNothing_iff _ _ rfl rfl).mpr fun info m haccepted => ?_⟩,
    by decide, (commitsNothing_iff _ _ rfl rfl).mpr fun info m haccepted _ _ => ?_⟩
  · cases haccepted
  · cases haccepted
    exact ⟨str "xy", rfl, by decide⟩

end Peretum.Cache.Reading
