import Peretum.Cache.Format
import Peretum.Sums

/-!
# Sidecars of the legacy format

Before the format had a version byte, a sidecar began with the status. The reader
tells the formats apart by the first byte, which is then the low byte of the status.
For two statuses it is a version number, and what is read as the current format is
never the entry: that format spends more bytes on the same headers.
-/

namespace Peretum.Cache

open Go Formats

/-- The legacy encoding: the status, the number of headers and the headers. -/
def writeLegacyMetadata (statusCode : Nat) (headers : Header) : Str :=
  encodeLE 2 statusCode ++
    (encodeLE 4 headers.entries.length ++ headers.entries.flatMap writeHeader)

/-- A legacy sidecar is read as the entry it was written for. -/
def LegacyReadable (statusCode : Nat) (headers : Header) : Prop :=
  ∃ m, readMetadata (writeLegacyMetadata statusCode headers) = .ok m ∧
    m.statusCode = statusCode ∧ m.host = [] ∧ m.path = [] ∧
    ∀ name, m.headers.lookup name =
      (headers.lookup name).map (fun vals => [join valueSeparator vals])

/-- The bytes a header takes in a sidecar. -/
def headerBytes (name : Str) (vals : List Str) : Int :=
  8 + name.length + (join valueSeparator vals).length

/-- The headers of a list take at least the bytes of the map that is made of them. -/
theorem sum_collect_le (pairs : List (Str × Str)) (headers : Header) :
    Map.sum headerBytes (collect pairs headers) ≤
      Map.sum headerBytes headers + (pairs.flatMap writePair).length := by
  induction pairs generalizing headers with
  | nil => simp [collect]
  | cons e pairs ih =>
    have hpair : ((writePair e).length : Int) = headerBytes e.1 [e.2] := by
      simp only [writePair, writeString, List.length_append, encodeLE_length, headerBytes,
        join_singleton]
      omega
    have hold : 0 ≤ (headers.lookup e.1).elim 0 (headerBytes e.1) := by
      cases headers.lookup e.1 with
      | none => exact Int.le_refl 0
      | some vals =>
        simp only [Option.elim_some, headerBytes]
        omega
    have hstep : Map.sum headerBytes (collect (e :: pairs) headers) ≤
        Map.sum headerBytes (headers.insert e.1 [e.2]) + (pairs.flatMap writePair).length :=
      ih (headers.insert e.1 [e.2])
    rw [Map.sum_insert, ← hpair] at hstep
    rw [List.flatMap_cons, List.length_append]
    omega

theorem length_flatMap_writeHeader (headers : Header) :
    ((headers.entries.flatMap writeHeader).length : Int) = Map.sum headerBytes headers := by
  induction headers using AList.insertRec with
  | H0 =>
    rw [Map.sum_empty, AList.empty_entries, List.flatMap_nil, List.length_nil, Int.natCast_zero]
  | IH name vals headers hnotMem ih =>
    have hnone : headers.lookup name = none := AList.lookup_eq_none.mpr hnotMem
    rw [AList.entries_insert_of_notMem hnotMem, List.flatMap_cons, List.length_append,
      Map.sum_insert, hnone, ← ih]
    simp only [writeHeader, writeString, List.length_append, encodeLE_length, headerBytes,
      Option.elim_none]
    omega

theorem CurrentText.bytes_le {text : Str} {m : Metadata} (htext : CurrentText text m)
    (hhost : m.host = []) (hpath : m.path = []) :
    14 + Map.sum headerBytes m.headers ≤ text.length := by
  obtain ⟨-, -, -, block, ⟨pairs, -, -, rfl, hheaders⟩, rfl⟩ := htext
  have hsum := sum_collect_le pairs ∅
  rw [← hheaders, Map.sum_empty] at hsum
  simp only [hhost, hpath, writeString, writePairs, List.length_append, encodeLE_length,
    List.length_nil]
  omega

/-- The first byte of a legacy sidecar is the low byte of the status. -/
theorem writeLegacyMetadata_eq_cons (statusCode : Nat) (headers : Header) :
    writeLegacyMetadata statusCode headers = UInt8.ofNat (statusCode % 256) ::
      UInt8.ofNat (statusCode / 256 % 256) ::
        (encodeLE 4 headers.entries.length ++ headers.entries.flatMap writeHeader) := rfl

/-- A legacy sidecar that is taken for the current format is not read as its entry. -/
theorem not_legacyReadable_of_version {statusCode : Nat} {headers : Header}
    (hversion : UInt8.ofNat (statusCode % 256) = 1 ∨ UInt8.ofNat (statusCode % 256) = 2) :
    ¬ LegacyReadable statusCode headers := by
  rintro ⟨m, hread, -, hhost, hpath, hheaders⟩
  rw [writeLegacyMetadata_eq_cons, readMetadata_cons_eq_ok hversion] at hread
  obtain ⟨text, unread, htext, hsplit⟩ := hread
  -- The entry needs fourteen bytes beside its headers, and only five are left for them.
  have hbytes := htext.bytes_le hhost hpath
  have hsum := Map.sum_of_lookup_map _ hheaders headerBytes
  have hlength := congrArg List.length hsplit
  have hwritten := length_flatMap_writeHeader headers
  have hjoined : Map.sum (fun k v => headerBytes k [join valueSeparator v]) headers =
      Map.sum headerBytes headers := by
    refine Map.sum_congr fun name vals _ => ?_
    simp only [headerBytes, join_singleton]
  simp only [List.length_cons, List.length_append, encodeLE_length] at hlength
  omega

/-- Of the statuses that are stored, two begin with a version number. -/
theorem version_iff {statusCode : Nat} (hlow : 200 ≤ statusCode) (hhigh : statusCode ≤ 299) :
    (UInt8.ofNat (statusCode % 256) = 1 ∨ UInt8.ofNat (statusCode % 256) = 2) ↔
      statusCode = 257 ∨ statusCode = 258 := by
  have hbyte : (UInt8.ofNat (statusCode % 256)).toNat = statusCode % 256 := by simp
  rw [← UInt8.toNat_inj, ← UInt8.toNat_inj, hbyte]
  simp only [UInt8.reduceToNat]
  omega

/-- A legacy sidecar of a stored status, with headers within the caps, is read as its
entry exactly if the low byte of the status is no version number. -/
theorem legacyReadable_iff {statusCode : Nat} (hlow : 200 ≤ statusCode)
    (hhigh : statusCode ≤ 299) {headers : Header} (hread : Readable [] [] headers) :
    LegacyReadable statusCode headers ↔ statusCode ≠ 257 ∧ statusCode ≠ 258 := by
  rw [← not_or, ← version_iff hlow hhigh]
  constructor
  · exact fun hreadable hversion => not_legacyReadable_of_version hversion hreadable
  · intro hversion
    have htext : LegacyText (writeLegacyMetadata statusCode headers)
        ⟨statusCode, [], [], rejoin headers⟩ :=
      ⟨by dsimp only; omega, rfl, rfl, _, blockText_of_readable hread, rfl⟩
    refine ⟨⟨statusCode, [], [], rejoin headers⟩, ?_, rfl, rfl, rfl, lookup_rejoin headers⟩
    exact readMetadata_of_legacyText hversion htext

/-- A legacy entry without headers and with status 257 or 258 is not read. -/
theorem legacyVersions_not_readable :
    ¬ LegacyReadable 257 ∅ ∧ ¬ LegacyReadable 258 ∅ ∧
      readMetadata (writeLegacyMetadata 257 ∅) = .error (.ended .unexpectedEOF) := by
  refine ⟨not_legacyReadable_of_version (.inl rfl), not_legacyReadable_of_version (.inr rfl), ?_⟩
  rfl

/-- A legacy entry with two headers is read. -/
theorem twoHeaders_legacyReadable : LegacyReadable 200 twoHeaders := by
  have hread : Readable [] [] twoHeaders := ⟨by decide, by decide, by decide, by decide⟩
  exact (legacyReadable_iff (by decide) (by decide) hread).mpr ⟨by decide, by decide⟩

end Peretum.Cache
