import Peretum.Formats
import Peretum.Cache.Metadata

/-!
# The texts of a sidecar

`readMetadata` accepts exactly the texts of the two formats, within its caps, and
nothing that was cut short. This file describes these texts by relations and
derives what reading a written sidecar, a part of it or a legacy one yields.
-/

namespace Peretum.Cache

open Go Formats

/-- The text of one header: its name and its value. -/
def writePair (e : Str × Str) : Str := writeString e.1 ++ writeString e.2

/-- The name of an entry of a header map and its joined values. -/
def pairOf (e : Sigma fun _ : Str => List Str) : Str × Str := (e.1, join valueSeparator e.2)

/-- The map a reader makes of the headers it reads: the last value of a name counts. -/
def collect (pairs : List (Str × Str)) (headers : Header) : Header :=
  pairs.foldl (fun h e => h.insert e.1 [e.2]) headers

/-- The text of a header block: the number of headers and the headers. -/
def writePairs (pairs : List (Str × Str)) : Str :=
  encodeLE 4 pairs.length ++ pairs.flatMap writePair

/-- A header stays within the caps. -/
def ShortPair (e : Str × Str) : Prop :=
  e.1.length ≤ maxMetaString ∧ e.2.length ≤ maxMetaString

/-- The text of a header block within the caps. -/
def BlockText (text : Str) (headers : Header) : Prop :=
  ∃ pairs : List (Str × Str), pairs.length ≤ maxMetaHeaders ∧ (∀ e ∈ pairs, ShortPair e) ∧
    text = writePairs pairs ∧ headers = collect pairs ∅

/-- The text of a legacy sidecar. -/
def LegacyText (text : Str) (m : Metadata) : Prop :=
  m.statusCode < 2 ^ 16 ∧ m.host = [] ∧ m.path = [] ∧
    ∃ block, BlockText block m.headers ∧ text = encodeLE 2 m.statusCode ++ block

/-- The text of a sidecar of the current format after its version byte. -/
def CurrentText (text : Str) (m : Metadata) : Prop :=
  m.statusCode < 2 ^ 16 ∧ m.host.length ≤ maxMetaString ∧ m.path.length ≤ maxMetaString ∧
    ∃ block, BlockText block m.headers ∧
      text = encodeLE 2 m.statusCode ++ (writeString m.host ++ (writeString m.path ++ block))

/-- A sidecar is read in the way the library composes readers. -/
theorem MetaReader.andThen_eq {α β : Type} (first : MetaReader α) (next : α → MetaReader β) :
    first.andThen next = Formats.andThen first next := by
  funext input
  unfold MetaReader.andThen Formats.andThen
  cases first input <;> rfl

theorem reads_andThen {α β : Type} {first : MetaReader α} {next : α → MetaReader β}
    {Text : Str → α → Prop} {Text' : α → Str → β → Prop} (hfirst : Reads first Text)
    (hnext : ∀ a, Reads (next a) (Text' a)) :
    Reads (first.andThen next)
      (fun text b => ∃ a front back, Text front a ∧ Text' a back b ∧ text = front ++ back) := by
  rw [MetaReader.andThen_eq]
  exact hfirst.andThen hnext

theorem reads_readUint (width : Nat) :
    Reads (readUint width) (fun text n => text = encodeLE width n ∧ n < 256 ^ width) := by
  intro input n rest
  constructor
  · intro hread
    unfold readUint at hread
    cases hfull : readFull width input with
    | error e => simp [hfull] at hread
    | ok r =>
      obtain ⟨bytes, rest'⟩ := r
      obtain ⟨rfl, rfl⟩ := readFull_eq_ok.mp hfull
      rw [hfull] at hread
      obtain ⟨rfl, rfl⟩ := Prod.mk.inj (Except.ok.inj hread)
      exact ⟨bytes, ⟨(encodeLE_decodeLE bytes).symm, decodeLE_lt bytes⟩, rfl⟩
  · rintro ⟨text, ⟨rfl, hn⟩, rfl⟩
    rw [readUint_encodeLE, Nat.mod_eq_of_lt hn]

theorem reads_readBytes (length : Nat) :
    Reads (readBytes length)
      (fun text s => text = s ∧ s.length = length ∧ length ≤ maxMetaString) := by
  intro input s rest
  unfold readBytes
  by_cases hcap : length > maxMetaString
  · have hlong : ¬ length ≤ maxMetaString := Nat.not_le.mpr hcap
    simp [hcap, hlong]
  · rw [if_neg hcap]
    constructor
    · intro hread
      cases hfull : readFull length input with
      | error e => simp [hfull] at hread
      | ok r =>
        obtain ⟨bytes, rest'⟩ := r
        obtain ⟨hlength, rfl⟩ := readFull_eq_ok.mp hfull
        rw [hfull] at hread
        obtain ⟨rfl, rfl⟩ := Prod.mk.inj (Except.ok.inj hread)
        exact ⟨bytes, ⟨rfl, hlength, Nat.not_lt.mp hcap⟩, rfl⟩
    · rintro ⟨text, ⟨rfl, rfl, -⟩, rfl⟩
      rw [readFull_append]

theorem reads_readString :
    Reads readString (fun text s => text = writeString s ∧ s.length ≤ maxMetaString) := by
  refine (reads_andThen (reads_readUint 4) reads_readBytes).congr fun text s => ?_
  constructor
  · rintro ⟨length, front, back, ⟨rfl, -⟩, ⟨rfl, rfl, hcap⟩, rfl⟩
    exact ⟨rfl, hcap⟩
  · rintro ⟨rfl, hcap⟩
    have hlength : s.length < 256 ^ 4 := by
      unfold maxMetaString at hcap
      omega
    exact ⟨s.length, encodeLE 4 s.length, s, ⟨rfl, hlength⟩, ⟨rfl, rfl, hcap⟩, rfl⟩

theorem reads_readHeaders (count : Nat) (headers : Header) :
    Reads (readHeaders count headers)
      (fun text h => ∃ pairs : List (Str × Str), pairs.length = count ∧ (∀ e ∈ pairs, ShortPair e) ∧
        text = pairs.flatMap writePair ∧ h = collect pairs headers) := by
  induction count generalizing headers with
  | zero =>
    refine (Reads.done headers).congr fun text h => ?_
    constructor
    · rintro ⟨rfl, rfl⟩
      exact ⟨[], rfl, by simp, rfl, rfl⟩
    · rintro ⟨pairs, hnil, -, rfl, rfl⟩
      obtain rfl := List.length_eq_zero_iff.mp hnil
      exact ⟨rfl, rfl⟩
  | succ count ih =>
    have hrest : ∀ key, Reads (readString.andThen fun val =>
        readHeaders count (headers.insert key [val])) _ :=
      fun key => reads_andThen reads_readString fun val => ih (headers.insert key [val])
    refine (reads_andThen reads_readString hrest).congr fun text h => ?_
    constructor
    · rintro ⟨key, _, _, ⟨rfl, hkey⟩, ⟨val, _, _, ⟨rfl, hval⟩, ⟨pairs, rfl, hpairs, rfl, rfl⟩, rfl⟩,
        rfl⟩
      refine ⟨(key, val) :: pairs, rfl, ?_, ?_, rfl⟩
      · rintro e he
        rcases List.mem_cons.mp he with rfl | he
        · exact ⟨hkey, hval⟩
        · exact hpairs e he
      · rw [List.flatMap_cons, writePair, List.append_assoc]
    · rintro ⟨pairs, hcount, hpairs, rfl, rfl⟩
      obtain ⟨⟨key, val⟩, rest, rfl⟩ := List.exists_cons_of_length_eq_add_one hcount
      obtain ⟨hkey, hval⟩ := hpairs (key, val) List.mem_cons_self
      have hrest' : ∀ e ∈ rest, ShortPair e := fun e he => hpairs e (List.mem_cons_of_mem _ he)
      refine ⟨key, writeString key, _, ⟨rfl, hkey⟩, ⟨val, writeString val, _, ⟨rfl, hval⟩,
        ⟨rest, Nat.succ.inj hcount, hrest', rfl, rfl⟩, rfl⟩, ?_⟩
      rw [List.flatMap_cons, writePair, List.append_assoc]

theorem reads_readHeaderBlock : Reads readHeaderBlock BlockText := by
  have hrest : ∀ count, Reads (fun input => if count > maxMetaHeaders then
      .error (MetaError.tooManyHeaders count) else readHeaders count ∅ input) _ :=
    fun count => (reads_readHeaders count ∅).refuse (count > maxMetaHeaders) _
  refine (reads_andThen (reads_readUint 4) hrest).congr fun text h => ?_
  constructor
  · rintro ⟨count, _, _, ⟨rfl, -⟩, ⟨hcap, pairs, rfl, hpairs, rfl, rfl⟩, rfl⟩
    exact ⟨pairs, Nat.not_lt.mp hcap, hpairs, rfl, rfl⟩
  · rintro ⟨pairs, hcap, hpairs, rfl, rfl⟩
    have hcount : pairs.length < 256 ^ 4 := by
      unfold maxMetaHeaders at hcap
      omega
    exact ⟨pairs.length, encodeLE 4 pairs.length, _, ⟨rfl, hcount⟩,
      ⟨Nat.not_lt.mpr hcap, pairs, rfl, hpairs, rfl, rfl⟩, rfl⟩

theorem reads_readMetadataV1 : Reads readMetadataV1 LegacyText := by
  have hrest : ∀ status, Reads (readHeaderBlock.andThen fun headers input =>
      .ok ((⟨status, [], [], headers⟩ : Metadata), input)) _ :=
    fun status => reads_andThen reads_readHeaderBlock fun headers =>
      Reads.done (⟨status, [], [], headers⟩ : Metadata)
  refine (reads_andThen (reads_readUint 2) hrest).congr fun text m => ?_
  constructor
  · rintro ⟨status, _, _, ⟨rfl, hstatus⟩, ⟨headers, block, _, hblock, ⟨rfl, rfl⟩, rfl⟩, rfl⟩
    refine ⟨hstatus, rfl, rfl, block, hblock, ?_⟩
    rw [List.append_nil]
  · obtain ⟨status, host, path, headers⟩ := m
    rintro ⟨hstatus, rfl, rfl, block, hblock, rfl⟩
    exact ⟨status, encodeLE 2 status, block, ⟨rfl, hstatus⟩,
      ⟨headers, block, [], hblock, ⟨rfl, rfl⟩, (List.append_nil block).symm⟩, rfl⟩

/-- `readMetadataV2` accepts the current texts. -/
theorem reads_readMetadataV2 : Reads readMetadataV2 CurrentText := by
  have hblock : ∀ status host path, Reads (readHeaderBlock.andThen fun headers input =>
      .ok ((⟨status, host, path, headers⟩ : Metadata), input)) _ :=
    fun status host path => reads_andThen reads_readHeaderBlock fun headers =>
      Reads.done (⟨status, host, path, headers⟩ : Metadata)
  have hpath : ∀ status host, Reads (readString.andThen fun path =>
      readHeaderBlock.andThen fun headers input =>
        .ok ((⟨status, host, path, headers⟩ : Metadata), input)) _ :=
    fun status host => reads_andThen reads_readString (hblock status host)
  have hhost : ∀ status, Reads (readString.andThen fun host => readString.andThen fun path =>
      readHeaderBlock.andThen fun headers input =>
        .ok ((⟨status, host, path, headers⟩ : Metadata), input)) _ :=
    fun status => reads_andThen reads_readString (hpath status)
  refine (reads_andThen (reads_readUint 2) hhost).congr fun text m => ?_
  constructor
  · rintro ⟨status, _, _, ⟨rfl, hstatus⟩, ⟨host, _, _, ⟨rfl, hhostCap⟩,
      ⟨path, _, _, ⟨rfl, hpathCap⟩, ⟨headers, block, _, hheaders, ⟨rfl, rfl⟩, rfl⟩,
        rfl⟩, rfl⟩, rfl⟩
    refine ⟨hstatus, hhostCap, hpathCap, block, hheaders, ?_⟩
    rw [List.append_nil]
  · obtain ⟨status, host, path, headers⟩ := m
    rintro ⟨hstatus, hhostCap, hpathCap, block, hheaders, rfl⟩
    exact ⟨status, encodeLE 2 status, _, ⟨rfl, hstatus⟩,
      ⟨host, writeString host, _, ⟨rfl, hhostCap⟩,
        ⟨path, writeString path, block, ⟨rfl, hpathCap⟩,
          ⟨headers, block, [], hheaders, ⟨rfl, rfl⟩, (List.append_nil block).symm⟩,
          rfl⟩, rfl⟩, rfl⟩

variable {m : Metadata} {host path : Str} {headers : Header}

/-- A first byte of one or two hands the rest to the reader of the current format. -/
theorem readMetadata_cons_eq_ok {version : UInt8} (hversion : version = 1 ∨ version = 2)
    {rest : Str} :
    readMetadata (version :: rest) = .ok m ↔
      ∃ text unread, CurrentText text m ∧ rest = text ++ unread := by
  rw [readMetadata, if_pos hversion]
  constructor
  · intro hread
    cases hparse : readMetadataV2 rest with
    | error e => simp [hparse, Except.map] at hread
    | ok r =>
      obtain ⟨m', unread⟩ := r
      obtain rfl : m' = m := by simpa [hparse, Except.map] using hread
      obtain ⟨text, htext, rfl⟩ := (reads_readMetadataV2 rest m' unread).mp hparse
      exact ⟨text, unread, htext, rfl⟩
  · rintro ⟨text, unread, htext, rfl⟩
    rw [reads_readMetadataV2.ok htext unread]
    rfl

theorem readMetadata_of_legacyText {version : UInt8} (hversion : ¬ (version = 1 ∨ version = 2))
    {rest : Str} (htext : LegacyText (version :: rest) m) :
    readMetadata (version :: rest) = .ok m := by
  have hread := reads_readMetadataV1.ok htext []
  rw [List.append_nil] at hread
  rw [readMetadata, if_neg hversion, hread]
  rfl

theorem flatMap_writeHeader (entries : List (Sigma fun _ : Str => List Str)) :
    entries.flatMap writeHeader = (entries.map pairOf).flatMap writePair := by
  rw [List.flatMap_map]
  rfl

theorem rejoin_eq_collect (headers : Header) :
    rejoin headers = collect (headers.entries.map pairOf) ∅ := by
  rw [rejoin, collect, List.foldl_map]
  rfl

theorem blockText_of_readable (hread : Readable host path headers) :
    BlockText (encodeLE 4 headers.entries.length ++ headers.entries.flatMap writeHeader)
      (rejoin headers) := by
  refine ⟨headers.entries.map pairOf, ?_, ?_, ?_, rejoin_eq_collect headers⟩
  · rw [List.length_map]
    exact hread.count
  · intro e he
    obtain ⟨entry, hentry, rfl⟩ := List.mem_map.mp he
    exact hread.header entry hentry
  · rw [writePairs, List.length_map, flatMap_writeHeader]

/-- A written sidecar within the caps is a text of the current format, with the status cut
to two bytes. -/
theorem writeMetadata_eq_cons (statusCode : Nat) (hread : Readable host path headers) :
    ∃ text, writeMetadata statusCode host path headers = metaVersion :: text ∧
      CurrentText text ⟨statusCode % 256 ^ 2, host, path, rejoin headers⟩ := by
  have hstatus : encodeLE 2 (statusCode % 256 ^ 2) = encodeLE 2 statusCode := by
    have hbytes := encodeLE_decodeLE (encodeLE 2 statusCode)
    rwa [encodeLE_length, decodeLE_encodeLE] at hbytes
  refine ⟨_, ?_, Nat.mod_lt statusCode (by decide), hread.host, hread.path, _,
    blockText_of_readable hread, rfl⟩
  rw [hstatus]
  simp [writeMetadata]

theorem statusCode_of_readMetadata {statusCode : Nat} (hstatus : statusCode < 2 ^ 16)
    (hread : readMetadata (writeMetadata statusCode host path headers) = .ok m) :
    m.statusCode = statusCode := by
  obtain ⟨text, unread, htext, hsplit⟩ := (readMetadata_cons_eq_ok (.inr rfl)).mp hread
  obtain ⟨hcode, -, -, block, -, rfl⟩ := htext
  exact ((reads_readUint 2).unique ⟨rfl, hcode⟩ ⟨rfl, hstatus⟩ hsplit.symm).1

/-- Reading back a written sidecar within the caps, with anything after it and whatever
order the header map was visited in, yields the status, the host and the path, and one
value for each header: its values, joined. -/
theorem readMetadata_writeMetadata_reordered {statusCode : Nat} (hstatus : statusCode ≤ 65535)
    {host path : Str} {headers order : Header} (hread : Readable host path headers)
    (horder : order.entries.Perm headers.entries) (extra : Str) :
    ∃ m, readMetadata (writeMetadata statusCode host path order ++ extra) = .ok m ∧
      m.statusCode = statusCode ∧ m.host = host ∧ m.path = path ∧
      ∀ name, m.headers.lookup name =
        (headers.lookup name).map (fun vals => [join valueSeparator vals]) := by
  have hreordered : Readable host path order := by
    refine ⟨hread.host, hread.path, ?_, fun e he => hread.header e (horder.mem_iff.mp he)⟩
    rw [horder.length_eq]
    exact hread.count
  refine ⟨⟨statusCode, host, path, rejoin order⟩, ?_, rfl, rfl, rfl, fun name => ?_⟩
  · rw [readMetadata_writeMetadata_eq_ok (hreordered.encodable (by omega)) extra]
    exact ⟨hreordered, rfl⟩
  · rw [lookup_rejoin, AList.perm_lookup horder]

def twoHeaders : Header :=
  (AList.insert (str "Vary") [str "Accept", str "Origin"] ∅).insert (str "Etag") [str "x"]

def twoHeadersReordered : Header :=
  (AList.insert (str "Etag") [str "x"] ∅).insert (str "Vary") [str "Accept", str "Origin"]

theorem readable_twoHeaders : Readable (str "a") (str "/") twoHeaders :=
  ⟨by decide, by decide, by decide, by decide⟩

/-- The two headers are read back from a sidecar that has them in the other order. -/
theorem twoHeaders_read_back :
    ∃ m, readMetadata (writeMetadata 200 (str "a") (str "/") twoHeadersReordered ++ [0]) = .ok m ∧
      m.headers.lookup (str "Vary") = some [str "Accept, Origin"] := by
  obtain ⟨m, hm, -, -, -, hheaders⟩ := readMetadata_writeMetadata_reordered
    (by decide : 200 ≤ 65535) readable_twoHeaders
    (by decide : twoHeadersReordered.entries.Perm _) [0]
  refine ⟨m, hm, ?_⟩
  rw [hheaders]
  decide

/-- No part of a written sidecar within the caps is read, the empty one included. -/
theorem readMetadata_of_truncated (statusCode : Nat) {host path : Str} {headers : Header}
    (hread : Readable host path headers) {part : Str}
    (hpart : part <+: writeMetadata statusCode host path headers)
    (hstrict : part ≠ writeMetadata statusCode host path headers) :
    ∃ e, readMetadata part = .error e := by
  obtain ⟨text, hwrite, htext⟩ := writeMetadata_eq_cons statusCode hread
  obtain ⟨lost, hlost⟩ := hpart
  cases part with
  | nil => exact ⟨.ended .eof, rfl⟩
  | cons version rest =>
    rw [hwrite] at hlost hstrict
    obtain ⟨rfl, rfl⟩ : version = metaVersion ∧ rest ++ lost = text := List.cons.inj hlost
    have hne : lost ≠ [] := by
      rintro rfl
      exact hstrict (by rw [List.append_nil])
    obtain ⟨e, he⟩ := reads_readMetadataV2.error_of_truncated htext hne
    refine ⟨e, ?_⟩
    rw [readMetadata, if_pos (show metaVersion = 1 ∨ metaVersion = 2 from .inr rfl), he]
    rfl

/-- A sidecar without its last byte is not read. -/
theorem twoHeaders_truncated :
    ∃ e, readMetadata (writeMetadata 200 (str "a") (str "/") twoHeaders).dropLast = .error e :=
  readMetadata_of_truncated 200 readable_twoHeaders (List.dropLast_prefix _) (by decide)

end Peretum.Cache
