import Peretum.Cache.Format
import Peretum.Cache.Peek
import Peretum.Cache.Reading

/-!
# Stored entries that can be read

`SetResponseToCache` has no limits on the host, the path and the headers of an entry,
while the reader of sidecars has, and it takes bodies that `net/http` does not send with
the status and the headers of the entry. This file says for which entries a read right
after the write delivers the response. Lengths beyond the four bytes of a length field
wrap around in the text, so the condition is first stated on the text of the sidecar, and
then on the lengths that fit.
-/

namespace Peretum.Cache

open Go

/-- The joined values a header map has for a name, in any spelling of it. -/
def joinedValues (headers : Header) (name : Str) : List Str :=
  (headers.entries.filter (fun e => name = canonicalMIMEHeaderKey e.1)).map
    fun e => join valueSeparator e.2

/-- Two header maps are delivered alike, apart from the headers a hit sets itself. -/
def SameJoined (headers headers' : Header) : Prop :=
  ∀ name, name ≠ str "X-Cache" → name ≠ str "X-Cache-Age" →
    (joinedValues headers name).Perm (joinedValues headers' name)

/-- The response on a writer: the status, the joined headers beside those a hit sets
itself, and the body. -/
structure Delivers (w : ResponseWriter) (statusCode : Nat) (headers : Header) (body : Str) :
    Prop where
  sent : ∃ header, w.sent = some (statusCode, header) ∧
    ∀ name, name ≠ str "X-Cache" → name ≠ str "X-Cache-Age" →
      ((header.lookup name).getD []).Perm (joinedValues headers name)
  body : w.body = body

/-- Every header of the map has one value. -/
def SingleValued (headers : Header) : Prop := ∀ e ∈ headers.entries, ∃ v, e.2 = [v]

/-- The map a reader makes of pairs has one value for each name. -/
theorem singleValued_collect (pairs : List (Str × Str)) {headers : Header}
    (hsingle : SingleValued headers) : SingleValued (collect pairs headers) := by
  induction pairs generalizing headers with
  | nil => exact hsingle
  | cons pair pairs ih =>
    have hinsert : SingleValued (headers.insert pair.1 [pair.2]) := by
      intro e he
      rcases List.mem_cons.mp he with rfl | he
      · exact ⟨pair.2, rfl⟩
      · exact hsingle e ((List.kerase_sublist pair.1 headers.entries).subset he)
    exact ih hinsert

theorem CurrentText.singleValued {text : Str} {m : Metadata} (htext : CurrentText text m) :
    SingleValued m.headers := by
  obtain ⟨-, -, -, block, ⟨pairs, -, -, -, hheaders⟩, -⟩ := htext
  rw [hheaders]
  refine singleValued_collect pairs fun e he => ?_
  simp at he

theorem values_hitHeader {m : Metadata} (hsingle : SingleValued m.headers) (now : Int)
    (info : File) {name : Str} (hcache : name ≠ str "X-Cache") (hage : name ≠ str "X-Cache-Age") :
    ((DiskCache.hitHeader ∅ m now info).lookup name).getD [] = joinedValues m.headers name := by
  have hkey : canonicalMIMEHeaderKey (str "X-Cache") = str "X-Cache" := by decide
  have hkeyAge : canonicalMIMEHeaderKey (str "X-Cache-Age") = str "X-Cache-Age" := by decide
  rw [DiskCache.hitHeader, Header.lookup_set, hkeyAge, if_neg hage, Header.lookup_set, hkey,
    if_neg hcache, Header.copy, Header.values_addEntries, AList.lookup_empty, Option.getD_none,
    List.nil_append, joinedValues, List.flatMap_def]
  have hjoin : ∀ e ∈ m.headers.entries.filter (fun e => name = canonicalMIMEHeaderKey e.1),
      e.2 = [join valueSeparator e.2] := by
    intro e he
    obtain ⟨v, hv⟩ := hsingle e (List.mem_of_mem_filter he)
    rw [hv, join_singleton]
  rw [List.map_congr_left hjoin, ← List.flatMap_def, List.map_eq_flatMap]

theorem sameJoined_rejoin (headers : Header) : SameJoined (rejoin headers) headers := by
  intro name _ _
  have hperm := Map.entries_perm_of_lookup_map _ (lookup_rejoin headers)
  refine ((hperm.filter _).map _).trans (List.Perm.of_eq ?_)
  rw [List.filter_map, List.map_map]
  refine List.map_congr_left fun e _ => ?_
  exact join_singleton valueSeparator _

namespace DiskCache

theorem maxAge_ensureSpace (d : DiskCache) (size : Int) :
    (d.ensureSpace size).2.maxAge = d.maxAge := by
  have hevict : ∀ d₁ d₂ : DiskCache, d₁.maxAge = d.maxAge → d₁.evict = some d₂ →
      d₂.maxAge = d.maxAge := by
    intro d₁ d₂ hage hevict
    obtain ⟨i, s, key, e, -, -, -, -, rfl⟩ := evict_spec hevict
    exact hage
  exact ensureSpace_invariant hevict rfl size

end DiskCache

namespace Write

/-- A call that stores its response has made space for it, written both files and put the
entry. -/
theorem run_eq_stored {w : Write} {d : DiskCache}
    (hstorable : DiskCache.storable w.statusCode w.body = true) (hok : (w.run d).1 = .ok ()) :
    ∃ d', d.ensureSpace w.size = (true, d') ∧
      (w.run d).2 = (w.writeFiles d').touch w.now w.key w.size := by
  have hends := w.run_ends d
  generalize w.run d = r at hends hok
  cases hends with
  | skipped hskipped => exact absurd (hstorable.symm.trans hskipped) (by simp)
  | failed hspace e | withdrawn hspace => cases hok
  | @stored d' _ hspace => exact ⟨d', hspace, rfl⟩

/-- The read right after the call, into a response writer of either kind. -/
def readAfter (w : Write) (d : DiskCache) (later : Int) (direct : Bool) :
    Reading.Outcome × ResponseWriter :=
  Reading.streamCachedResponse ((w.run d).2.ageLimit 0) (.alone (w.run d).2.disk w.key later)
    { ResponseWriter.fresh with direct := direct }

/-- A read right after the call succeeds and delivers the response. -/
structure ReadBack (w : Write) (d : DiskCache) (later : Int) : Prop where
  /-- It returns nil. -/
  done : ∀ direct, (w.readAfter d later direct).1 = .done
  /-- The response writer gets the status, the joined headers and the body. -/
  delivers : ∀ direct,
    Delivers (w.readAfter d later direct).2 w.statusCode w.headers w.body
  /-- `WriteHeader` deletes none of the headers. -/
  kept : ∀ direct response, (w.readAfter d later direct).2.sent = some response →
    response.2.lengthChecked = response.2

/-- The response may have its body. -/
structure Admissible (w : Write) : Prop where
  /-- Its status is not one without a body. -/
  status : bodyAllowedForStatus w.statusCode = true
  /-- A length it declares is a number, and not below that of the body. -/
  length : ∀ v ∈ joinedValues w.headers contentLength,
    v = [] ∨ ∃ n : Nat, atoi v = some (n : Int) ∧ w.body.length ≤ n

/-- The sidecar begins with a text of the current format, within the caps, that has the
joined headers of the response. -/
def Legible (w : Write) : Prop :=
  ∃ text unread m, w.sidecar = metaVersion :: (text ++ unread) ∧ CurrentText text m ∧
    SameJoined m.headers w.headers

theorem legible_iff {w : Write} :
    w.Legible ↔ ∃ m, readMetadata w.sidecar = .ok m ∧ SingleValued m.headers ∧
      SameJoined m.headers w.headers := by
  have hversion : metaVersion = 1 ∨ metaVersion = 2 := .inr rfl
  constructor
  · rintro ⟨text, unread, m, hsidecar, htext, hsame⟩
    refine ⟨m, ?_, htext.singleValued, hsame⟩
    rw [hsidecar, readMetadata_cons_eq_ok hversion]
    exact ⟨text, unread, htext, rfl⟩
  · rintro ⟨m, hread, -, hsame⟩
    obtain ⟨text, unread, htext, hsplit⟩ := (readMetadata_cons_eq_ok hversion).mp hread
    exact ⟨text, unread, m, congrArg (metaVersion :: ·) hsplit, htext, hsame⟩

/-- Where all lengths fit their fields, the entries with a legible sidecar are those within
the caps. -/
theorem legible_iff_readable {w : Write}
    (henc : Encodable w.statusCode w.host w.path w.headers) :
    w.Legible ↔ Readable w.host w.path w.headers := by
  constructor
  · intro hlegible
    obtain ⟨m, hread, -, -⟩ := legible_iff.mp hlegible
    exact ((readMetadata_sidecar_iff henc).mp hread).1
  · intro hread
    obtain ⟨text, hwrite, htext⟩ := writeMetadata_eq_cons w.statusCode hread
    refine ⟨text, [], _, ?_, htext, sameJoined_rejoin w.headers⟩
    rw [List.append_nil]
    exact hwrite

/-- What a read finds right after a call that stores its response. -/
theorem lookup_run {w : Write} {d : DiskCache}
    (hstorable : DiskCache.storable w.statusCode w.body = true) (hok : (w.run d).1 = .ok ()) :
    (w.run d).2.disk.lookup (cachePath w.key metaExt) = some ⟨w.sidecar, w.now⟩ ∧
      (w.run d).2.disk.lookup (cachePath w.key bodyExt) = some ⟨w.body, w.now⟩ ∧
      (w.run d).2.maxAge = d.maxAge := by
  obtain ⟨d', hspace, hrun⟩ := run_eq_stored hstorable hok
  have hage := d.maxAge_ensureSpace w.size
  rw [hspace] at hage
  rw [hrun]
  refine ⟨?_, ?_, hage⟩
  · refine (w.lookup_writeFiles d' _).trans ?_
    rw [if_neg (cachePath_meta_ne_body w.key w.key), if_pos rfl]
  · refine (w.lookup_writeFiles d' _).trans ?_
    rw [if_pos rfl]

/-- The response a hit commits for an entry of the call. -/
def committed (w : Write) (m : Metadata) (later : Int) (direct : Bool) : ResponseWriter where
  header := DiskCache.hitHeader ∅ m later ⟨w.sidecar, w.now⟩
  sent := some (w.statusCode, DiskCache.hitHeader ∅ m later ⟨w.sidecar, w.now⟩)
  body := []
  direct := direct

/-- A read right after the call commits the response and copies the body, if the sidecar
parses. -/
theorem readAfter_eq {w : Write} {d : DiskCache}
    (hstorable : DiskCache.storable w.statusCode w.body = true) (hok : (w.run d).1 = .ok ())
    {later : Int} (hfresh : 0 < d.maxAge → later - w.now ≤ d.maxAge) (direct : Bool) :
    w.readAfter d later direct =
      match readMetadata w.sidecar with
      | .error e => (.failed (.metadata e), { ResponseWriter.fresh with direct := direct })
      | .ok m => Reading.copyBody (some (w.body, false)) (w.committed m later direct) := by
  obtain ⟨hstatus, hstatus'⟩ := DiskCache.status_of_storable hstorable
  obtain ⟨hmeta, hbody, hage⟩ := lookup_run hstorable hok
  have hnotStale : DiskCache.stale ((w.run d).2.ageLimit 0) later ⟨w.sidecar, w.now⟩ = false := by
    simp only [DiskCache.stale, DiskCache.ageLimit, hage, Int.lt_irrefl, if_false,
      Bool.and_eq_false_iff, decide_eq_false_iff_not]
    omega
  unfold readAfter Reading.streamCachedResponse Reading.Sight.alone Reading.Sight.across
  simp only [hmeta, hbody, hnotStale, Option.map_some, Bool.false_eq_true, if_false]
  cases hread : readMetadata w.sidecar with
  | error e => rfl
  | ok m =>
    have hcode : m.statusCode = w.statusCode := statusCode_of_readMetadata (by omega) hread
    have hvalid : ¬ (m.statusCode < 100 ∨ 999 < m.statusCode) := by omega
    have hfinal : ¬ (100 ≤ w.statusCode ∧ w.statusCode ≤ 199 ∧ ¬ w.statusCode = 101) := by omega
    simp only [hvalid, and_false, if_false]
    simp [Reading.commit, ResponseWriter.writeHeader, ResponseWriter.fresh, hfinal, committed,
      hcode]

section

variable {w : Write} {m : Metadata}

/-- What the response writer has got once the body is copied. -/
theorem delivers_committed (hsingle : SingleValued m.headers) (later : Int) (direct : Bool) :
    Delivers ((w.committed m later direct).acceptFrom w.body) w.statusCode w.headers w.body ↔
      SameJoined m.headers w.headers := by
  have hvalues : ∀ name, name ≠ str "X-Cache" → name ≠ str "X-Cache-Age" →
      ((DiskCache.hitHeader ∅ m later ⟨w.sidecar, w.now⟩).lookup name).getD [] =
        joinedValues m.headers name := fun _ => values_hitHeader hsingle _ _
  have hsent : ((w.committed m later direct).acceptFrom w.body).sent = _ :=
    ResponseWriter.sent_acceptFrom rfl w.body
  constructor
  · rintro ⟨⟨header, hsent', hheader⟩, -⟩ name hcache hage
    obtain ⟨-, rfl⟩ := Prod.mk.inj (Option.some.inj (hsent.symm.trans hsent'))
    exact hvalues name hcache hage ▸ hheader name hcache hage
  · intro hsame
    refine ⟨⟨_, hsent, fun name hcache hage => ?_⟩, ?_⟩
    · exact (hvalues name hcache hage).symm ▸ hsame name hcache hage
    · rw [ResponseWriter.acceptFrom]
      split
      · next hbody => exact hbody.symm
      · rw [ResponseWriter.accept_eq]
        rfl

/-- The length a hit declares is the first that is stored. -/
theorem get_hitHeader (hsingle : SingleValued m.headers) (later : Int) (info : File) :
    (DiskCache.hitHeader ∅ m later info).get contentLength =
      (joinedValues m.headers contentLength).headD [] := by
  have hkey : canonicalMIMEHeaderKey contentLength = contentLength := by decide
  rw [Header.get, hkey, values_hitHeader hsingle _ _ (by decide) (by decide)]

/-- The length that a response which may have its body declares: none, or one that is large
enough. -/
theorem Admissible.declared (hadmissible : w.Admissible) (hsingle : SingleValued m.headers)
    (hsame : SameJoined m.headers w.headers) (later : Int) (info : File) :
    (DiskCache.hitHeader ∅ m later info).get contentLength = [] ∨
      ∃ n, declaredLength (DiskCache.hitHeader ∅ m later info) = some n ∧ w.body.length ≤ n := by
  have hget := get_hitHeader hsingle later info
  cases hvalues : joinedValues m.headers contentLength with
  | nil => exact .inl (by rw [hget, hvalues]; rfl)
  | cons v values =>
    rw [hvalues, List.headD_cons] at hget
    have hv : v ∈ joinedValues w.headers contentLength :=
      (hsame contentLength (by decide) (by decide)).mem_iff.mp (hvalues ▸ List.mem_cons_self)
    rcases hadmissible.length v hv with hempty | ⟨n, hn, hle⟩
    · exact .inl (hget.trans hempty)
    · exact .inr ⟨n, declaredLength_eq_some_iff.mpr (by rw [hget, hn]), hle⟩

/-- A response that may have its body is taken whole, by writers of both kinds. -/
theorem Admissible.taken (hadmissible : w.Admissible) (hsingle : SingleValued m.headers)
    (hsame : SameJoined m.headers w.headers) (later : Int) (direct : Bool) :
    (w.committed m later direct).refuses ((w.committed m later direct).checked w.body) = none := by
  have hshort : ((w.committed m later direct).checked w.body).length ≤ w.body.length := by
    unfold ResponseWriter.checked
    split
    · rw [List.length_take]
      omega
    · exact le_rfl
  unfold ResponseWriter.refuses
  split
  · rfl
  · refine refusal_eq_none_iff.mpr ⟨hadmissible.status, fun n hn => ?_⟩
    change declaredLength (DiskCache.hitHeader ∅ m later ⟨w.sidecar, w.now⟩) = some n at hn
    change 0 + _ ≤ n
    rcases hadmissible.declared hsingle hsame later ⟨w.sidecar, w.now⟩ with hempty | ⟨n', hn', hle⟩
    · rw [declaredLength_eq_some_iff, hempty] at hn
      cases hn
    · cases hn.symm.trans hn'
      omega

/-- `WriteHeader` leaves its headers alone. -/
theorem Admissible.kept (hadmissible : w.Admissible) (hsingle : SingleValued m.headers)
    (hsame : SameJoined m.headers w.headers) (later : Int) (info : File) :
    (DiskCache.hitHeader ∅ m later info).lengthChecked = DiskCache.hitHeader ∅ m later info := by
  refine if_pos ((hadmissible.declared hsingle hsame later info).imp_right ?_)
  rintro ⟨n, hn, -⟩
  rw [hn, Option.isSome_some]

/-- A response whose body is taken and whose headers stay may have the body, where one length is
declared at most. -/
theorem admissible_of_taken (hbody : w.body ≠ []) (hsingle : SingleValued m.headers)
    (hsame : SameJoined m.headers w.headers)
    (honce : (joinedValues w.headers contentLength).length ≤ 1) {later : Int}
    (htaken : (w.committed m later false).refuses w.body = none)
    (hkept : (w.committed m later false).header.lengthChecked =
      (w.committed m later false).header) : w.Admissible := by
  have hperm := hsame contentLength (by decide) (by decide)
  rw [ResponseWriter.refuses_of_ne_nil hbody, refusal_eq_none_iff] at htaken
  obtain ⟨hstatus, hlength⟩ := htaken
  refine ⟨hstatus, fun v hv => ?_⟩
  have hvalues : joinedValues w.headers contentLength = [v] := by
    obtain ⟨v', hv'⟩ := List.length_eq_one_iff.mp
      (le_antisymm honce (List.length_pos_of_mem hv))
    rw [hv', List.mem_singleton] at hv
    rw [hv', hv]
  rw [hvalues, List.perm_singleton] at hperm
  have hget : (w.committed m later false).header.get contentLength = v := by
    rw [committed, get_hitHeader hsingle, hperm, List.headD_cons]
  by_cases hempty : v = []
  · exact .inl hempty
  · cases hdeclared : declaredLength (w.committed m later false).header with
    | none =>
      -- `WriteHeader` deletes what is not a number.
      have hkey : canonicalMIMEHeaderKey contentLength = contentLength := by decide
      rw [Header.lengthChecked, if_neg (by simp [hget, hempty, hdeclared])] at hkept
      rw [← hkept, Header.get, hkey, Header.lookup_del, if_pos hkey.symm] at hget
      exact absurd hget.symm hempty
    | some n =>
      have hle : 0 + w.body.length ≤ n := hlength n hdeclared
      exact .inr ⟨n, hget ▸ declaredLength_eq_some_iff.mp hdeclared, by omega⟩

end

/-- After a write that stores its response, a read while the entry is fresh delivers it if its
sidecar begins with a text of the response within the caps of the reader and the response may
have its body; and only if, where the response declares one length at most. When all lengths
fit their fields, the entries with such a sidecar are those within the caps. -/
theorem readBack_iff {w : Write} {d : DiskCache}
    (hstorable : DiskCache.storable w.statusCode w.body = true) (hok : (w.run d).1 = .ok ())
    {later : Int} (hfresh : 0 < d.maxAge → later - w.now ≤ d.maxAge) :
    (w.Legible ∧ w.Admissible → w.ReadBack d later) ∧
      ((joinedValues w.headers contentLength).length ≤ 1 → w.ReadBack d later →
        w.Legible ∧ w.Admissible) ∧
      (Encodable w.statusCode w.host w.path w.headers →
        (w.Legible ↔ Readable w.host w.path w.headers)) := by
  have hread := readAfter_eq hstorable hok hfresh
  refine ⟨?_, ?_, legible_iff_readable⟩
  · rintro ⟨hlegible, hadmissible⟩
    obtain ⟨m, hparse, hsingle, hsame⟩ := legible_iff.mp hlegible
    simp only [hparse] at hread
    have hcopy : ∀ direct, w.readAfter d later direct =
        (.done, (w.committed m later direct).acceptFrom w.body) := by
      intro direct
      have htaken := hadmissible.taken hsingle hsame later direct
      obtain ⟨herror, hwriter⟩ := (w.committed m later direct).copyFrom_eq w.body
      rw [hread, Reading.copyBody]
      simp only [herror, htaken, hwriter htaken]
      rfl
    refine ⟨fun direct => ?_, fun direct => ?_, fun direct response hsent => ?_⟩
    · rw [hcopy]
    · rw [hcopy]
      exact (delivers_committed hsingle later direct).mpr hsame
    · rw [hcopy, ResponseWriter.sent_acceptFrom rfl] at hsent
      cases hsent
      exact hadmissible.kept hsingle hsame later _
  · intro honce hback
    cases hparse : readMetadata w.sidecar with
    | error e =>
      have hdone := hback.done false
      simp [hread, hparse] at hdone
    | ok m =>
      simp only [hparse] at hread
      obtain ⟨text, unread, htext, -⟩ := (readMetadata_cons_eq_ok (.inr rfl)).mp hparse
      have hsingle := htext.singleValued
      obtain ⟨herror, hwriter⟩ := (w.committed m later false).copyFrom_eq w.body
      have htaken : (w.committed m later false).refuses w.body = none := by
        have hdone := hback.done false
        rw [hread, Reading.copyBody] at hdone
        simp only [herror] at hdone
        cases hrefuses : (w.committed m later false).refuses w.body with
        | none => rfl
        | some e =>
          rw [show (w.committed m later false).checked w.body = w.body from rfl, hrefuses] at hdone
          cases hdone
      have hwrites : (w.readAfter d later false).2 =
          (w.committed m later false).acceptFrom w.body := by
        rw [hread, Reading.writer_copyBody]
        exact hwriter htaken
      have hsame := (delivers_committed hsingle later false).mp (hwrites ▸ hback.delivers false)
      have hkept := hback.kept false _ (by rw [hwrites, ResponseWriter.sent_acceptFrom rfl])
      have hne : w.body ≠ [] := by
        intro hnil
        simp [DiskCache.storable, hnil] at hstorable
      exact ⟨legible_iff.mpr ⟨m, hparse, hsingle, hsame⟩,
        admissible_of_taken hne hsingle hsame honce htaken hkept⟩

/-- A header value of more than a mebibyte is stored and cannot be read back, and neither can a
body with status 204 or one that is longer than declared. -/
theorem longHeader_not_readBack :
    (((FileCall.headerWrite (List.replicate 1048577 0x78)).run (.new ∅ 0 0)).1 = .ok () ∧
      ¬ (FileCall.headerWrite (List.replicate 1048577 0x78)).ReadBack (.new ∅ 0 0) 0) ∧
    ((Reading.noContent.run (.new ∅ 0 0)).1 = .ok () ∧
      (Reading.noContent.readAfter (.new ∅ 0 0) 0 false).1 =
        .failed (.refused .bodyNotAllowed) ∧
      ¬ Reading.noContent.ReadBack (.new ∅ 0 0) 0) ∧
    (((Reading.declaring (str "1")).run (.new ∅ 0 0)).1 = .ok () ∧
      ((Reading.declaring (str "1")).readAfter (.new ∅ 0 0) 0 false).1 =
        .failed (.refused .contentLength) ∧
      ¬ (Reading.declaring (str "1")).ReadBack (.new ∅ 0 0) 0) := by
  have hlength : (List.replicate 1048577 (0x78 : UInt8)).length = 1048577 := List.length_replicate
  refine ⟨⟨rfl, fun hback => ?_⟩, ⟨by decide, by decide, fun hback => ?_⟩,
    by decide, by decide, fun hback => ?_⟩
  · have hdone := hback.done false
    -- The sequential read would succeed too.
    obtain ⟨hresult, -⟩ := Reading.streamCachedResponse_alone
      ((FileCall.headerWrite (List.replicate 1048577 0x78)).run (.new ∅ 0 0)).2 0
      (w := .fresh) rfl zeroKey 0 fun e hrefused => by cases hdone.symm.trans hrefused
    refine FileCall.headerWrite_unreadable (by rw [hlength]; decide) (by rw [hlength]; decide)
      (hresult.trans (congrArg Reading.Outcome.result hdone))
  · exact absurd (hback.done false) (by decide)
  · exact absurd (hback.done false) (by decide)

/-- A short header is stored and read back, and so is a body with its length. -/
theorem shortHeader_readBack :
    (FileCall.headerWrite (str "on")).ReadBack (.new ∅ 0 0) 0 ∧
      (Reading.declaring (str "2")).ReadBack (.new ∅ 0 0) 0 := by
  have hread : Readable (str "example.com") (str "/a")
      (FileCall.headerWrite (str "on")).headers := by
    refine ⟨by decide, by decide, by decide, fun e he => ?_⟩
    rw [FileCall.mem_headerWrite he]
    decide
  have hread' : Readable (str "example.com") (str "/a") (Reading.declaring (str "2")).headers := by
    refine ⟨by decide, by decide, by decide, fun e he => ?_⟩
    rw [show e = ⟨contentLength, [str "2"]⟩ from List.mem_singleton.mp he]
    decide
  obtain ⟨hback, -, hlegible⟩ := @readBack_iff (FileCall.headerWrite (str "on")) (.new ∅ 0 0)
    (by decide) rfl 0 (fun hage => absurd hage (by decide))
  obtain ⟨hback', -, hlegible'⟩ := @readBack_iff (Reading.declaring (str "2")) (.new ∅ 0 0)
    (by decide) rfl 0 (fun hage => absurd hage (by decide))
  refine ⟨hback ⟨(hlegible (hread.encodable (by decide))).mpr hread, by decide,
    fun v hv => absurd hv ?_⟩,
    hback' ⟨(hlegible' (hread'.encodable (by decide))).mpr hread', by decide, fun v hv => ?_⟩⟩
  · exact (show joinedValues (FileCall.headerWrite (str "on")).headers contentLength = [] by
      decide) ▸ List.not_mem_nil
  · rw [show v = str "2" from List.mem_singleton.mp hv]
    exact .inr ⟨2, by decide, by decide⟩

end Write

end Peretum.Cache
