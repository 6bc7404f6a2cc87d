import Peretum.Go.Binary
import Peretum.Go.Header

/-!
# The metadata sidecar

Each cached response has a `.meta` file with its status, host, path and headers
in a small binary format. This file embeds `writeMetadata` and `readMetadata`,
the latter with both format versions and its size caps, and determines exactly
what reading back a written sidecar yields: several values of one header come
back as a single value joined with a comma.
-/

namespace Peretum.Cache

open Go

/-- The version byte `writeMetadata` puts first. -/
def metaVersion : UInt8 := 2

/-- The largest header count `readMetadata` accepts. -/
def maxMetaHeaders : Nat := 10000

/-- The longest string `readMetadata` accepts. -/
def maxMetaString : Nat := 2 ^ 20

/-- What a sidecar holds. -/
structure Metadata where
  statusCode : Nat
  /-- The cache host, empty for the legacy format. -/
  host : Str
  /-- The request path, empty for the legacy format. -/
  path : Str
  headers : Header

/-- The errors of `readMetadata`. -/
inductive MetaError where
  | ended (at_ : EndOfStream)
  /-- "metadata has %d headers, max %d" -/
  | tooManyHeaders (count : Nat)
  /-- "metadata string of %d bytes exceeds max %d" -/
  | stringTooLong (length : Nat)
  deriving DecidableEq, Repr

/-- `writeString`: a length prefix of four bytes and the bytes themselves. -/
def writeString (s : Str) : Str := encodeLE 4 s.length ++ s

/-- The separator of the values of one header. -/
def valueSeparator : Str := str ", "

/-- One header of the sidecar, its values joined. -/
def writeHeader (e : Sigma fun _ : Str => List Str) : Str :=
  writeString e.1 ++ writeString (join valueSeparator e.2)

/-- `writeMetadata`. The order of the headers is the iteration order of the map. -/
def writeMetadata (statusCode : Nat) (host path : Str) (headers : Header) : Str :=
  [metaVersion] ++ encodeLE 2 statusCode ++ writeString host ++ writeString path ++
    encodeLE 4 headers.entries.length ++ headers.entries.flatMap writeHeader

/-- A parser over the bytes of a sidecar not yet consumed. -/
abbrev MetaReader (α : Type) := Str → Except MetaError (α × Str)

/-- Read one part of a sidecar and pass it to the parser of the rest. -/
def MetaReader.andThen {α β : Type} (first : MetaReader α) (next : α → MetaReader β) :
    MetaReader β := fun input =>
  match first input with
  | .error e => .error e
  | .ok (a, rest) => next a rest

/-- `binary.Read` of an unsigned integer of `width` bytes. -/
def readUint (width : Nat) : MetaReader Nat := fun input =>
  match readFull width input with
  | .error e => .error (.ended e)
  | .ok (bytes, rest) => .ok (decodeLE bytes, rest)

/-- The bytes of a string whose length has been read. -/
def readBytes (length : Nat) : MetaReader Str := fun input =>
  if length > maxMetaString then .error (.stringTooLong length)
  else match readFull length input with
    | .error e => .error (.ended e)
    | .ok (bytes, rest) => .ok (bytes, rest)

def readString : MetaReader Str := (readUint 4).andThen readBytes

/-- The header loop of `readMetadataV1` and `readMetadataV2`. -/
def readHeaders : Nat → Header → MetaReader Header
  | 0, headers => fun input => .ok (headers, input)
  | count + 1, headers =>
      readString.andThen fun key => readString.andThen fun val =>
        readHeaders count (headers.insert key [val])

/-- The header count, its cap, and the headers. -/
def readHeaderBlock : MetaReader Header :=
  (readUint 4).andThen fun count input =>
    if count > maxMetaHeaders then .error (.tooManyHeaders count)
    else readHeaders count ∅ input

/-- `readMetadataV1`: the legacy format without host and path. -/
def readMetadataV1 : MetaReader Metadata :=
  (readUint 2).andThen fun status => readHeaderBlock.andThen fun headers input =>
    .ok (⟨status, [], [], headers⟩, input)

/-- `readMetadataV2`: the current format, after its version byte. -/
def readMetadataV2 : MetaReader Metadata :=
  (readUint 2).andThen fun status => readString.andThen fun host =>
    readString.andThen fun path => readHeaderBlock.andThen fun headers input =>
      .ok (⟨status, host, path, headers⟩, input)

/-- `readMetadata`: a first byte of one or two announces the current format. -/
def readMetadata (input : Str) : Except MetaError Metadata :=
  match input with
  | [] => .error (.ended .eof)
  | version :: rest =>
      if version = 1 ∨ version = 2 then (readMetadataV2 rest).map Prod.fst
      else (readMetadataV1 (version :: rest)).map Prod.fst

/-- The headers a reader of the sidecar gets: one joined value for each name. -/
def rejoin (headers : Header) : Header :=
  headers.entries.foldl (fun h e => h.insert e.1 [join valueSeparator e.2]) ∅

/-- The lengths of an entry fit the integer types of the format. -/
structure Encodable (statusCode : Nat) (host path : Str) (headers : Header) : Prop where
  status : statusCode < 2 ^ 16
  host : host.length < 2 ^ 32
  path : path.length < 2 ^ 32
  /-- The number of headers fits four bytes. -/
  count : headers.entries.length < 2 ^ 32
  /-- The lengths of every name and joined value fit four bytes. -/
  header : ∀ e ∈ headers.entries,
    e.1.length < 2 ^ 32 ∧ (join valueSeparator e.2).length < 2 ^ 32

/-- The entry stays within the caps of `readMetadata`. -/
structure Readable (host path : Str) (headers : Header) : Prop where
  host : host.length ≤ maxMetaString
  path : path.length ≤ maxMetaString
  count : headers.entries.length ≤ maxMetaHeaders
  /-- Every name and joined value is short enough. -/
  header : ∀ e ∈ headers.entries,
    e.1.length ≤ maxMetaString ∧ (join valueSeparator e.2).length ≤ maxMetaString

variable {headers : Header} {input rest : Str}

/-- An entry within the caps fits the format. -/
theorem Readable.encodable {statusCode : Nat} {host path : Str} (hread : Readable host path headers)
    (hstatus : statusCode < 2 ^ 16) : Encodable statusCode host path headers := by
  have hstring : ∀ {n : Nat}, n ≤ maxMetaString → n < 2 ^ 32 := by
    intro n hn
    unfold maxMetaString at hn
    omega
  have hcount : headers.entries.length < 2 ^ 32 := by
    have h := hread.count
    unfold maxMetaHeaders at h
    omega
  refine ⟨hstatus, hstring hread.host, hstring hread.path, hcount, ?_⟩
  intro e he
  obtain ⟨hname, hvalue⟩ := hread.header e he
  exact ⟨hstring hname, hstring hvalue⟩

theorem MetaReader.andThen_eq_ok {α β : Type} {first : MetaReader α} {next : α → MetaReader β}
    {r : β × Str} :
    first.andThen next input = .ok r ↔
      ∃ a rest, first input = .ok (a, rest) ∧ next a rest = .ok r := by
  unfold MetaReader.andThen
  cases hfirst : first input with
  | error e => simp
  | ok p => obtain ⟨a, rest⟩ := p; simp

theorem readUint_encodeLE (width n : Nat) (rest : Str) :
    readUint width (encodeLE width n ++ rest) = .ok (n % 256 ^ width, rest) := by
  have hfull : readFull width (encodeLE width n ++ rest) = .ok (encodeLE width n, rest) := by
    simpa using readFull_append (encodeLE width n) rest
  simp [readUint, hfull, decodeLE_encodeLE]

/-- Reading a string written at the front of the input succeeds when it is
within the cap, and then returns it. -/
theorem readString_writeString_eq_ok {s : Str} (hs : s.length < 2 ^ 32) {r : Str × Str} :
    readString (writeString s ++ rest) = .ok r ↔
      s.length ≤ maxMetaString ∧ r = (s, rest) := by
  have hlength : s.length % 256 ^ 4 = s.length := Nat.mod_eq_of_lt (by simpa using hs)
  rw [readString, MetaReader.andThen_eq_ok, writeString, List.append_assoc, readUint_encodeLE]
  simp only [hlength, Except.ok.injEq, Prod.mk.injEq, ↓existsAndEq, readBytes, readFull_append,
    true_and]
  by_cases hcap : s.length > maxMetaString
  · simp [hcap, show ¬ s.length ≤ maxMetaString by omega]
  · simp only [hcap, if_false, Except.ok.injEq, show s.length ≤ maxMetaString by omega, true_and]
    exact eq_comm

theorem readHeaders_write_eq_ok {entries : List (Sigma fun _ : Str => List Str)}
    (hlen : ∀ e ∈ entries, e.1.length < 2 ^ 32 ∧ (join valueSeparator e.2).length < 2 ^ 32)
    {acc : Header} {r : Header × Str} :
    readHeaders entries.length acc (entries.flatMap writeHeader ++ rest) = .ok r ↔
      (∀ e ∈ entries, e.1.length ≤ maxMetaString ∧
        (join valueSeparator e.2).length ≤ maxMetaString) ∧
      r = (entries.foldl (fun h e => h.insert e.1 [join valueSeparator e.2]) acc, rest) := by
  induction entries generalizing acc with
  | nil => simp [readHeaders, eq_comm]
  | cons e entries ih =>
    obtain ⟨hkey, hval⟩ := hlen e List.mem_cons_self
    have htail := fun e' he' => hlen e' (List.mem_cons_of_mem e he')
    rw [List.length_cons, readHeaders, MetaReader.andThen_eq_ok, List.flatMap_cons, writeHeader,
      List.append_assoc, List.append_assoc]
    simp only [readString_writeString_eq_ok hkey, MetaReader.andThen_eq_ok, Prod.mk.injEq,
      List.mem_cons, forall_eq_or_imp, List.foldl_cons]
    constructor
    · rintro ⟨_, _, ⟨hkeyCap, rfl, rfl⟩, _, _, hvalRead, hrest⟩
      obtain ⟨hvalCap, heq⟩ := (readString_writeString_eq_ok hval).mp hvalRead
      obtain ⟨rfl, rfl⟩ := Prod.mk.inj heq
      obtain ⟨hcaps, hr⟩ := (ih htail).mp hrest
      exact ⟨⟨⟨hkeyCap, hvalCap⟩, hcaps⟩, hr⟩
    · rintro ⟨⟨⟨hkeyCap, hvalCap⟩, hcaps⟩, hr⟩
      exact ⟨_, _, ⟨hkeyCap, rfl, rfl⟩, _, _,
        (readString_writeString_eq_ok hval).mpr ⟨hvalCap, rfl⟩, (ih htail).mpr ⟨hcaps, hr⟩⟩

theorem readHeaderBlock_write_eq_ok (hcount : headers.entries.length < 2 ^ 32)
    (hlen : ∀ e ∈ headers.entries,
      e.1.length < 2 ^ 32 ∧ (join valueSeparator e.2).length < 2 ^ 32) {r : Header × Str} :
    readHeaderBlock (encodeLE 4 headers.entries.length ++
        (headers.entries.flatMap writeHeader ++ rest)) = .ok r ↔
      (headers.entries.length ≤ maxMetaHeaders ∧
        ∀ e ∈ headers.entries, e.1.length ≤ maxMetaString ∧
          (join valueSeparator e.2).length ≤ maxMetaString) ∧
      r = (rejoin headers, rest) := by
  have hmod : headers.entries.length % 256 ^ 4 = headers.entries.length :=
    Nat.mod_eq_of_lt (by simpa using hcount)
  rw [readHeaderBlock, MetaReader.andThen_eq_ok, readUint_encodeLE]
  simp only [hmod, Except.ok.injEq, Prod.mk.injEq, ↓existsAndEq, true_and]
  by_cases hcap : headers.entries.length > maxMetaHeaders
  · simp [hcap, show ¬ headers.entries.length ≤ maxMetaHeaders by omega]
  · simp only [hcap, if_false, readHeaders_write_eq_ok hlen, rejoin,
      show headers.entries.length ≤ maxMetaHeaders by omega, true_and]

/-- Reading back a written sidecar, with anything after it, succeeds exactly when
the entry is within the caps, and returns the entry with its headers rejoined. -/
theorem readMetadata_writeMetadata_eq_ok {statusCode : Nat} {host path : Str}
    (henc : Encodable statusCode host path headers) (extra : Str) {m : Metadata} :
    readMetadata (writeMetadata statusCode host path headers ++ extra) = .ok m ↔
      Readable host path headers ∧ m = ⟨statusCode, host, path, rejoin headers⟩ := by
  have hstatus : statusCode % 256 ^ 2 = statusCode :=
    Nat.mod_eq_of_lt (by simpa using henc.status)
  have hshape : writeMetadata statusCode host path headers ++ extra =
      metaVersion :: (encodeLE 2 statusCode ++ (writeString host ++ (writeString path ++
        (encodeLE 4 headers.entries.length ++
          (headers.entries.flatMap writeHeader ++ extra))))) := by
    simp [writeMetadata]
  have hmap : readMetadata (writeMetadata statusCode host path headers ++ extra) = .ok m ↔
      ∃ rest, readMetadataV2 (encodeLE 2 statusCode ++ (writeString host ++
        (writeString path ++ (encodeLE 4 headers.entries.length ++
          (headers.entries.flatMap writeHeader ++ extra))))) = .ok (m, rest) := by
    rw [hshape, readMetadata, if_pos (show metaVersion = 1 ∨ metaVersion = 2 from Or.inr rfl)]
    cases readMetadataV2 _ with
    | error e => simp [Except.map]
    | ok p => obtain ⟨a, rest⟩ := p; simp [Except.map]
  rw [hmap]
  simp only [readMetadataV2, MetaReader.andThen_eq_ok, readUint_encodeLE, hstatus,
    Except.ok.injEq, Prod.mk.injEq, ↓existsAndEq, true_and, and_true,
    readString_writeString_eq_ok henc.host, readString_writeString_eq_ok henc.path,
    readHeaderBlock_write_eq_ok henc.count henc.header]
  constructor
  · rintro ⟨hhost, hpath, hblock, rfl⟩
    exact ⟨⟨hhost, hpath, hblock.1, hblock.2⟩, rfl⟩
  · rintro ⟨hread, rfl⟩
    exact ⟨hread.host, hread.path, ⟨hread.count, hread.header⟩, rfl⟩

theorem lookup_rejoin (headers : Header) (name : Str) :
    (rejoin headers).lookup name =
      (headers.lookup name).map (fun vals => [join valueSeparator vals]) := by
  have h := Map.lookup_foldl_insert (fun vals => [join valueSeparator vals]) headers ∅ name
  simpa [rejoin] using h

/-- A written sidecar has a version byte and two bytes for the status at least. -/
theorem two_lt_length_writeMetadata (statusCode : Nat) (host path : Str) (headers : Header) :
    2 < (writeMetadata statusCode host path headers).length := by
  simp only [writeMetadata, List.length_append, List.length_singleton, encodeLE_length]
  omega

theorem le_length_of_readUint_eq_ok {width : Nat} {r : Nat × Str}
    (hread : readUint width input = .ok r) : width ≤ input.length := by
  by_contra hshort
  unfold readUint readFull at hread
  split_ifs at hread

/-- A sidecar that parses has two bytes for the status at least. -/
theorem one_lt_length_of_readMetadata_eq_ok {m : Metadata} (hread : readMetadata input = .ok m) :
    1 < input.length := by
  cases input with
  | nil => cases hread
  | cons version rest =>
    simp only [readMetadata] at hread
    by_cases hversion : version = 1 ∨ version = 2
    · rw [if_pos hversion] at hread
      cases hparse : readMetadataV2 rest with
      | error e => simp [hparse, Except.map] at hread
      | ok r =>
        obtain ⟨_, _, hstatus, -⟩ := MetaReader.andThen_eq_ok.mp hparse
        have hlength := le_length_of_readUint_eq_ok hstatus
        simp only [List.length_cons]
        omega
    · rw [if_neg hversion] at hread
      cases hparse : readMetadataV1 (version :: rest) with
      | error e => simp [hparse, Except.map] at hread
      | ok r =>
        obtain ⟨_, _, hstatus, -⟩ := MetaReader.andThen_eq_ok.mp hparse
        exact le_length_of_readUint_eq_ok hstatus

end Peretum.Cache
