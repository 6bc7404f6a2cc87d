import Peretum.Go.ReverseProxy
import Peretum.Cache.Operations

/-!
# Response headers on a cache miss and on a cache hit

On a miss the header rules of a location run inside the reverse proxy, after the
sanitized upstream headers were saved for the cache. On a hit they run on the
empty headers of the response, before the saved ones are added. This file embeds
both paths and relates the two header maps a client can get.
-/

namespace Peretum.Handler

open Go Cache

/-- The response part of a location's `Headers` configuration. -/
structure HeadersConfig where
  /-- Headers to set, `response_add`. -/
  responseAdd : Map Str Str
  /-- Headers to delete, `response_remove`. -/
  responseRemove : List Str

/-- `applyResponseHeadersTo`; a location may have no header configuration. -/
def applyResponseHeadersTo (headers : Option HeadersConfig) (h : Header) : Header :=
  match headers with
  | none => h
  | some headers => (h.setAll headers.responseAdd.entries).delAll headers.responseRemove

def upstreamIdentityHeaders : List Str :=
  [str "Server", str "Via", str "Age", str "X-Powered-By", str "X-Cache", str "X-Cache-Hits",
    str "X-Cache-Status", str "X-Served-By", str "X-Backend-Server", str "X-Backend-Host",
    str "Cf-Ray", str "Cf-Cache-Status", str "Cf-Worker"]

def sanitizeResponseHeaders (hdr : Header) : Header :=
  (hdr.delAll upstreamIdentityHeaders).set (str "Server") (str "peretum")

/-- The header map of a response the HTTP client has parsed. -/
structure UpstreamHeader where
  header : Header
  canonical : header.Canonical
  /-- A name is in the map because the response has a value for it. -/
  valued : header.Valued

/-- The sanitized headers of an upstream response, which `RoundTrip` hands to the
reverse proxy and saves for the cache. -/
def UpstreamHeader.sanitized (u : UpstreamHeader) : Header := sanitizeResponseHeaders u.header

/-- The `ModifyResponse` hook `ServeHTTP` installs. -/
def modifyResponse (webSocket : Bool) (headers : Option HeadersConfig) (statusCode : Nat)
    (h : Header) : Header :=
  let h := if webSocket ∧ statusCode = 101 then
      (h.set (str "Connection") (str "upgrade")).set (str "Upgrade") (str "websocket")
    else h
  applyResponseHeadersTo headers (h.set (str "X-Cache") (str "MISS"))

/-- The response to a request that misses the cache. -/
def serveMiss (webSocket : Bool) (headers : Option HeadersConfig) (statusCode : Nat)
    (u : UpstreamHeader) (body : Str) : ResponseWriter :=
  reverseProxy (modifyResponse webSocket headers) .fresh statusCode u.sanitized body

/-- The lookup of `ServeHTTP`: the rules are applied when a fresh entry exists, and
the entry is streamed. -/
def serveFromCache (headers : Option HeadersConfig) (d : DiskCache) (now : Int) (key : Key)
    (ttl : Int) : DiskCache.Streamed :=
  let w := if d.peek now key ttl then
      { ResponseWriter.fresh with header := applyResponseHeadersTo headers ∅ }
    else .fresh
  d.streamCachedResponse now w key ttl

/-- Two readings of one configuration, which may visit `response_add` in different
orders. -/
def SameRules : Option HeadersConfig → Option HeadersConfig → Prop
  | none, none => True
  | some a, some b => a.responseAdd.entries.Perm b.responseAdd.entries ∧
      a.responseRemove = b.responseRemove
  | _, _ => False

/-- The values the rules set for a header, in any spelling of its name. -/
def added (headers : Option HeadersConfig) (name : Str) : List Str :=
  match headers with
  | none => []
  | some headers => Header.spelled headers.responseAdd.entries name

/-- The rules delete the header. -/
def Removed (headers : Option HeadersConfig) (name : Str) : Prop :=
  match headers with
  | none => False
  | some headers => name ∈ headers.responseRemove.map canonicalMIMEHeaderKey

/-- Whether the rules delete a header can be decided. -/
instance (headers : Option HeadersConfig) (name : Str) : Decidable (Removed headers name) :=
  match headers with
  | none => inferInstanceAs (Decidable False)
  | some headers => inferInstanceAs (Decidable (name ∈ headers.responseRemove.map _))

theorem lookup_applyResponseHeadersTo (headers : Option HeadersConfig) (h : Header) (name : Str) :
    (applyResponseHeadersTo headers h).lookup name =
      if Removed headers name then none
      else (((added headers name).getLast?).map (fun v => [v])).or (h.lookup name) := by
  cases headers with
  | none => simp [applyResponseHeadersTo, Removed, added]
  | some headers =>
    rw [applyResponseHeadersTo, Header.lookup_delAll, Header.lookup_setAll]
    rfl

theorem canonical_applyResponseHeadersTo {h : Header} (hcanon : h.Canonical)
    (headers : Option HeadersConfig) : Header.Canonical (applyResponseHeadersTo headers h) := by
  cases headers with
  | none => exact hcanon
  | some headers => exact (hcanon.setAll _).delAll _

/-- Different orders of `response_add` leave the same value for a header that is
spelled at most once. -/
theorem added_eq_of_sameRules {a b : Option HeadersConfig} (hsame : SameRules a b) {name : Str}
    (honce : (added a name).length ≤ 1) : added a name = added b name := by
  match a, b, hsame with
  | none, none, _ => rfl
  | some a, some b, ⟨hperm, _⟩ =>
    have hspelled : (added (some a) name).Perm (added (some b) name) :=
      (hperm.filter _).map _
    match hlist : added (some a) name, honce, hspelled with
    | [], _, hspelled => rw [hspelled.nil_eq]
    | [v], _, hspelled => exact (List.singleton_perm.mp hspelled).symm ▸ rfl

theorem removed_iff_of_sameRules {a b : Option HeadersConfig} (hsame : SameRules a b)
    (name : Str) : Removed a name ↔ Removed b name := by
  match a, b, hsame with
  | none, none, _ => rfl
  | some a, some b, ⟨_, hremove⟩ => simp [Removed, hremove]

namespace UpstreamHeader

theorem canonical_sanitized (u : UpstreamHeader) : Header.Canonical u.sanitized :=
  (Header.Canonical.delAll u.canonical _).set _ _

theorem valued_sanitized (u : UpstreamHeader) : Header.Valued u.sanitized := by
  intro name
  rw [sanitized, sanitizeResponseHeaders, Header.lookup_set, Header.lookup_delAll]
  split
  · simp
  · split
    · simp
    · exact u.valued name

end UpstreamHeader

/-- The header map a miss with a status other than 101 sends. -/
def missHeader (headers : Option HeadersConfig) (u : UpstreamHeader) : Header :=
  Header.copy ∅ (applyResponseHeadersTo headers
    (u.sanitized.removeHopByHopHeaders.set (str "X-Cache") (str "MISS")))

theorem sent_serveMiss (webSocket : Bool) (headers : Option HeadersConfig) {statusCode : Nat}
    (hstatus : 200 ≤ statusCode) (u : UpstreamHeader) (body : Str) :
    (serveMiss webSocket headers statusCode u body).sent =
      some (statusCode, missHeader headers u) := by
  have hmodify : modifyResponse webSocket headers statusCode
      u.sanitized.removeHopByHopHeaders = applyResponseHeadersTo headers
        (u.sanitized.removeHopByHopHeaders.set (str "X-Cache") (str "MISS")) := by
    simp only [modifyResponse, show statusCode ≠ 101 by omega, and_false, if_false]
  rw [serveMiss, sent_reverseProxy rfl _ hstatus, hmodify]
  rfl

theorem lookup_missHeader (headers : Option HeadersConfig) (u : UpstreamHeader) {name : Str}
    (hcache : name ≠ str "X-Cache") (hhop : ¬ Header.HopByHop u.sanitized name) :
    (missHeader headers u).lookup name =
      if Removed headers name then none
      else (((added headers name).getLast?).map (fun v => [v])).or (u.sanitized.lookup name) := by
  have hkey : canonicalMIMEHeaderKey (str "X-Cache") = str "X-Cache" := by decide
  have hcanon : Header.Canonical (applyResponseHeadersTo headers
      (u.sanitized.removeHopByHopHeaders.set (str "X-Cache") (str "MISS"))) :=
    canonical_applyResponseHeadersTo (u.canonical_sanitized.removeHopByHopHeaders.set _ _) headers
  have hvalued := u.valued_sanitized name
  rw [missHeader, Header.lookup_copy _ _ hcanon, lookup_applyResponseHeadersTo, Header.lookup_set,
    hkey, if_neg hcache, Header.lookup_removeHopByHopHeaders hhop]
  by_cases hremoved : Removed headers name
  · simp [hremoved]
  · simp only [hremoved, if_false]
    cases (added headers name).getLast? with
    | some v => simp
    | none =>
      cases hvals : u.sanitized.lookup name with
      | none => simp
      | some vals =>
        have hne : vals ≠ [] := fun h => hvalued (by rw [hvals, h])
        simp [hne]

/-- A header of a hit is what the rules set, followed by the stored value. -/
theorem lookup_hitHeader (headers : Option HeadersConfig) (m : Metadata) (now : Int) (info : File)
    {name : Str} (hcache : name ≠ str "X-Cache") (hage : name ≠ str "X-Cache-Age")
    (u : UpstreamHeader) (hm : m.headers = rejoin u.sanitized) :
    (DiskCache.hitHeader (applyResponseHeadersTo headers ∅) m now info).lookup name =
      match u.sanitized.lookup name with
      | none => (applyResponseHeadersTo headers ∅).lookup name
      | some vals => some (((applyResponseHeadersTo headers ∅).lookup name).getD [] ++
          [join valueSeparator vals]) := by
  have hkey : canonicalMIMEHeaderKey (str "X-Cache") = str "X-Cache" := by decide
  have hkeyAge : canonicalMIMEHeaderKey (str "X-Cache-Age") = str "X-Cache-Age" := by decide
  have hcanon : Header.Canonical (rejoin u.sanitized) := by
    intro k hk
    refine u.canonical_sanitized k ?_
    rw [← AList.lookup_isSome] at hk ⊢
    simpa [lookup_rejoin] using hk
  rw [DiskCache.hitHeader, Header.lookup_set, hkeyAge, if_neg hage, Header.lookup_set, hkey,
    if_neg hcache, hm, Header.lookup_copy _ _ hcanon, lookup_rejoin]
  cases u.sanitized.lookup name <;> simp

/-- A hit on the entry a miss stored sends its status and the merged headers. -/
theorem sent_serveFromCache {headers : Option HeadersConfig} {u : UpstreamHeader}
    {statusCode : Nat} {host path : Str} (hstatus : 200 ≤ statusCode)
    (henc : Encodable statusCode host path u.sanitized) {d : DiskCache} {key : Key}
    {stored now ttl : Int}
    (hentry : d.disk.lookup (cachePath key metaExt) =
      some ⟨writeMetadata statusCode host path u.sanitized, stored⟩)
    (hhit : (serveFromCache headers d now key ttl).result = .ok ()) :
    ∃ m info, m.headers = rejoin u.sanitized ∧
      (serveFromCache headers d now key ttl).writer.sent = some (statusCode,
        DiskCache.hitHeader (applyResponseHeadersTo headers ∅) m now info) := by
  obtain ⟨info, m, file, hinfo, hfresh, hread, -, hwriter⟩ :=
    DiskCache.exists_of_streamCachedResponse_ok hhit
  have hdata : info = ⟨writeMetadata statusCode host path u.sanitized, stored⟩ := by
    simpa [hentry] using hinfo.symm
  have hm : m = ⟨statusCode, host, path, rejoin u.sanitized⟩ := by
    rw [hdata] at hread
    exact ((readMetadata_writeMetadata_eq_ok henc []).mp (by simpa using hread)).2
  have hpeek : d.peek now key ttl = true := by simp [DiskCache.peek, hinfo, hfresh]
  refine ⟨m, info, by rw [hm], ?_⟩
  have hcode : m.statusCode = statusCode := by rw [hm]
  simp only [serveFromCache, hpeek, if_true] at hwriter ⊢
  rw [hwriter, hcode]
  exact ResponseWriter.sent_acceptFrom (ResponseWriter.sent_writeHeader rfl hstatus) _

/-- The client gets the same headers from a hit as from the miss that stored the
entry, with the values of each header joined into one, apart from the headers
that describe the cache or the connection, those that both the upstream sends and
the rules mention, and those the rules spell in more than one way. -/
theorem hit_headers_eq_joined_miss_headers (webSocket : Bool) (u : UpstreamHeader)
    {rules rules' : Option HeadersConfig} (hsame : SameRules rules rules')
    {d d' : DiskCache} {key : Key} {stored now ttl : Int} {io : DiskCache.WriteOutcome}
    {host path body : Str} {statusCode : Nat}
    (hstorable : DiskCache.storable statusCode body = true)
    (henc : Encodable statusCode host path u.sanitized)
    (hstored : (d.setResponseToCache stored io key host path statusCode u.sanitized body).1 =
      .ok ())
    (hkept : d'.disk.lookup (cachePath key metaExt) =
      (d.setResponseToCache stored io key host path statusCode u.sanitized body).2.disk.lookup
        (cachePath key metaExt))
    (hhit : (serveFromCache rules' d' now key ttl).result = .ok ()) :
    ∃ miss hit,
      (serveMiss webSocket rules statusCode u body).sent = some (statusCode, miss) ∧
      (serveFromCache rules' d' now key ttl).writer.sent = some (statusCode, hit) ∧
      ∀ name, name ≠ str "X-Cache" → name ≠ str "X-Cache-Age" →
        ¬ Header.HopByHop u.sanitized name →
        ¬ (name ∈ u.sanitized ∧ (added rules name ≠ [] ∨ Removed rules name)) →
        (added rules name).length ≤ 1 →
        hit.lookup name = (miss.lookup name).map (fun vals => [join valueSeparator vals]) := by
  have hstatus : 200 ≤ statusCode := (DiskCache.status_of_storable hstorable).1
  rw [DiskCache.lookup_meta_setResponseToCache hstorable hstored] at hkept
  obtain ⟨m, info, hm, hsent⟩ := sent_serveFromCache hstatus henc hkept hhit
  refine ⟨_, _, sent_serveMiss webSocket rules hstatus u body, hsent, ?_⟩
  intro name hcache hage hhop hoverlap honce
  have hset := added_eq_of_sameRules hsame honce
  have hdel := removed_iff_of_sameRules hsame name
  have hlookup := lookup_applyResponseHeadersTo rules' ∅ name
  rw [lookup_hitHeader _ m now info hcache hage u hm, lookup_missHeader _ u hcache hhop]
  cases hvals : u.sanitized.lookup name with
  | none =>
    simp only [hlookup, ← hset, ← hdel, AList.lookup_empty, Option.or_none]
    split
    · rfl
    · cases (added rules name).getLast? <;> simp
  | some vals =>
    have hmem : name ∈ u.sanitized := by simp [← AList.lookup_isSome, hvals]
    obtain ⟨hnotAdded, hnotRemoved⟩ := not_or.mp (fun h => hoverlap ⟨hmem, h⟩)
    have hadded : added rules name = [] := by simpa using hnotAdded
    have hnone : (applyResponseHeadersTo rules' ∅).lookup name = none := by
      rw [hlookup, ← hset, hadded]
      simp
    simp [hnone, hadded, hnotRemoved]

/-- An upstream response with two cookies and a framing policy. -/
def sampleUpstream : UpstreamHeader where
  header := (AList.insert (str "Set-Cookie") [str "a=1", str "b=2"] ∅).insert
    (str "X-Frame-Options") [str "DENY"]
  canonical := Header.canonical_of_entries (by decide)
  valued := Header.valued_of_entries (by decide)

/-- Rules that relax the framing policy. -/
def sampleRules : Option HeadersConfig :=
  some ⟨AList.insert (str "X-Frame-Options") (str "SAMEORIGIN") ∅, []⟩

def sampleStore : Except DiskCache.SetError Unit × DiskCache :=
  (DiskCache.new ∅ 0 0).setResponseToCache 0 ⟨true, true⟩ zeroKey (str "example.com")
    (str "/") 200 sampleUpstream.sanitized (str "x")

/-- The headers the client gets for the sample response, by miss and by hit. -/
def sampleHeaders : Option (Header × Header) :=
  match (serveMiss false sampleRules 200 sampleUpstream (str "x")).sent,
    (serveFromCache sampleRules sampleStore.2 0 zeroKey 0).writer.sent with
  | some (_, miss), some (_, hit) => some (miss, hit)
  | _, _ => none

/-- A hit joins the two cookies and, after the policy of the rules, still sends the
one the rules replaced on the miss. -/
theorem sampleHeaders_differ :
    ¬ Header.HopByHop sampleUpstream.sanitized (str "Set-Cookie") ∧
    ¬ Header.HopByHop sampleUpstream.sanitized (str "X-Frame-Options") ∧
    (serveFromCache sampleRules sampleStore.2 0 zeroKey 0).result = .ok () ∧
    ∃ miss hit, sampleHeaders = some (miss, hit) ∧
      miss.lookup (str "Set-Cookie") = some [str "a=1", str "b=2"] ∧
      hit.lookup (str "Set-Cookie") = some [str "a=1, b=2"] ∧
      miss.lookup (str "X-Frame-Options") = some [str "SAMEORIGIN"] ∧
      hit.lookup (str "X-Frame-Options") = some [str "SAMEORIGIN", str "DENY"] := by
  exact ⟨by decide, by decide, rfl, _, _, rfl, by decide, by decide, by decide, by decide⟩

/-- Rules for headers that the response does not have, in one of two orders. -/
def ownRules (swapped : Bool) : Option HeadersConfig :=
  let robots : Map Str Str := AList.insert (str "X-Robots-Tag") (str "none") ∅
  let referrer : Map Str Str := AList.insert (str "Referrer-Policy") (str "origin") ∅
  some ⟨if swapped then robots.insert (str "Referrer-Policy") (str "origin")
    else referrer.insert (str "X-Robots-Tag") (str "none"), [str "X-Debug"]⟩

/-- With such rules a hit has the cookies of the miss joined into one, and the header that the
rules set. -/
theorem sampleHeaders_joined :
    (serveFromCache (ownRules true) sampleStore.2 0 zeroKey 0).result = .ok () ∧
    ∃ miss hit,
      (serveMiss false (ownRules false) 200 sampleUpstream (str "x")).sent = some (200, miss) ∧
      (serveFromCache (ownRules true) sampleStore.2 0 zeroKey 0).writer.sent = some (200, hit) ∧
      hit.lookup (str "Set-Cookie") =
        (miss.lookup (str "Set-Cookie")).map (fun vals => [join valueSeparator vals]) ∧
      hit.lookup (str "X-Robots-Tag") =
        (miss.lookup (str "X-Robots-Tag")).map (fun vals => [join valueSeparator vals]) := by
  have hrules : SameRules (ownRules false) (ownRules true) := ⟨.swap _ _ _, rfl⟩
  have hstored : sampleStore.1 = .ok () := rfl
  have hhit : (serveFromCache (ownRules true) sampleStore.2 0 zeroKey 0).result = .ok () := rfl
  have henc : Encodable 200 (str "example.com") (str "/") sampleUpstream.sanitized :=
    ⟨by decide, by decide, by decide, by decide, by decide⟩
  obtain ⟨miss, hit, hmiss, hsent, hsame⟩ := hit_headers_eq_joined_miss_headers false
    sampleUpstream hrules (by decide) henc hstored rfl hhit
  exact ⟨hhit, miss, hit, hmiss, hsent,
    hsame _ (by decide) (by decide) (by decide) (by decide) (by decide),
    hsame _ (by decide) (by decide) (by decide) (by decide) (by decide)⟩

end Peretum.Handler
