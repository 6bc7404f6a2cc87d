import Peretum.Waf.Policy

/-!
# The request as a policy sees it

A condition names a parameter of the request. `requestCtx` looks each one up when
it is first asked for and remembers what is expensive: the location of the client's
address and the body. The body is a stream, so looking it up takes its bytes away
from whoever reads it next.
-/

namespace Peretum.Waf

open Go

variable {F R A N : Type}

/-- A request body: a stream that can be read once. -/
structure Body where
  /-- The bytes not read yet. -/
  data : Str
  /-- Whether reading on fails after these bytes, where it would end otherwise. -/
  failed : Bool
  deriving DecidableEq

/-- `io.ReadAll` of an `io.LimitReader`: the bytes read, unless reading fails, and
what is left of the body. -/
def Body.readLimited (b : Body) (limit : Int64) : Option Str × Body :=
  if limit ≤ 0 then (some [], b)
  else if limit.toNatClampNeg ≤ b.data.length then
    (some (b.data.take limit.toNatClampNeg), { b with data := b.data.drop limit.toNatClampNeg })
  else (if b.failed then none else some b.data, { b with data := [] })

/-- Reading a body up to a limit: the value to match, the body to store, and what is
left of the stream. A body beyond the limit is cut and not stored. -/
def Body.inspect (b : Body) (limit : Int64) : Str × Option Str × Body :=
  -- the sum is one of 64-bit integers and may be negative
  match b.readLimited (limit + 1) with
  | (none, rest) => ([], none, rest)
  | (some read, rest) =>
      if limit < .ofNat read.length then
        (read.take limit.toNatClampNeg ++ str "... [truncated]", none, rest)
      else (read, some read, rest)

/-- The parts of an `http.Request` the plugin reads. -/
structure Request where
  method : Str
  host : Str
  remoteAddr : Str
  header : Header
  requestURI : Str
  path : Str
  rawQuery : Str
  body : Option Body

def clientIP (lib : Library F R A N) (r : Request) : Str :=
  let x := r.header.get (str "X-Real-IP")
  if x ≠ [] then trimSpace x
  else
    let xff := r.header.get (str "X-Forwarded-For")
    if xff ≠ [] then
      -- a comma in first place is not taken for the end of an address
      let first := xff.takeWhile (· ≠ 0x2C)
      if 0x2C ∈ xff ∧ first ≠ [] then trimSpace first else trimSpace xff
    else (lib.splitHostPort r.remoteAddr).getD r.remoteAddr

/-- A record of the country database. -/
structure CountryRecord where
  /-- `country.iso_code`. -/
  country : Str
  /-- `registered_country.iso_code`. -/
  registeredCountry : Str

/-- A record of the ASN database. -/
structure AsnRecord where
  /-- `autonomous_system_number`. -/
  asn : UInt32
  /-- `autonomous_system_organization`. -/
  org : Str

/-- The databases that are open; a lookup may fail. -/
structure Geodb (A : Type) where
  country : Option (A → Option CountryRecord)
  asn : Option (A → Option AsnRecord)
  /-- The city database, which holds a city's names by language. -/
  city : Option (A → Option (Map Str Str))

/-- What the databases say about an address. -/
structure Geo where
  country : Str := []
  asn : UInt32 := 0
  asnOrg : Str := []
  city : Str := []

/-- `geodb.lookup`. -/
def Geodb.lookup (g : Geodb A) (ip : A) : Geo where
  country :=
    match g.country.bind (· ip) with
    | some r => if r.country = [] then r.registeredCountry else r.country
    | none => []
  asn := ((g.asn.bind (· ip)).map AsnRecord.asn).getD 0
  asnOrg := ((g.asn.bind (· ip)).map AsnRecord.org).getD []
  city := ((g.city.bind (· ip)).bind (·.lookup (str "en"))).getD []

structure RequestCtx (A : Type) where
  r : Request
  gs : Option (Geodb A)
  ip : Str
  /-- Whether the address was looked up. -/
  geoDone : Bool := false
  geo : Geo := {}
  bodyDone : Bool := false
  body : Str := []
  maxBodySize : Int64

def newRequestCtx (lib : Library F R A N) (r : Request) (gs : Option (Geodb A))
    (maxBodySize : Int64) : RequestCtx A where
  r := r
  gs := gs
  ip := clientIP lib r
  maxBodySize := maxBodySize

/-- A lookup by spelling in the list of an enumeration's members. -/
def ofSpelling {α : Type} (members : List α) (spelling : α → Str) (s : Str) : Option α :=
  members.find? fun a => spelling a == s

theorem spelling_of_ofSpelling {α : Type} {members : List α} {spelling : α → Str} {s : Str}
    {a : α} (hfound : ofSpelling members spelling s = some a) : spelling a = s := by
  simpa using List.find?_some hfound

/-- The parameters `get` knows. -/
inductive Param where
  | host | userAgent | referer | cookie | url | path | query | method | ip | country | asn
  | asnOrg | city | body | arg | header
  deriving DecidableEq

namespace Param

/-- A parameter's name in a policy. -/
def spelling : Param → Str
  | host => str "host"
  | userAgent => str "user_agent"
  | referer => str "referer"
  | cookie => str "cookie"
  | url => str "url"
  | path => str "path"
  | query => str "query"
  | method => str "method"
  | ip => str "ip"
  | country => str "country"
  | asn => str "asn"
  | asnOrg => str "asn_org"
  | city => str "city"
  | body => str "body"
  | arg => str "arg"
  | header => str "header"

/-- The parameters in the order of `get`. -/
def all : List Param :=
  [host, userAgent, referer, cookie, url, path, query, method, ip, country, asn, asnOrg, city,
    body, arg, header]

/-- The parameter with a name. -/
def parse : Str → Option Param := ofSpelling all spelling

end Param

namespace RequestCtx

/-- `requestCtx.ensureGeo`. -/
def ensureGeo (lib : Library F R A N) (c : RequestCtx A) : RequestCtx A :=
  if c.geoDone then c
  else
    match c.gs, lib.parseIP (trimSpace c.ip) with
    | some gs, some ip => { c with geoDone := true, geo := gs.lookup ip }
    | _, _ => { c with geoDone := true }

/-- The limit `ensureBody` reads to: 1 MiB unless a positive one is set. -/
def bodyLimit (c : RequestCtx A) : Int64 :=
  if c.maxBodySize ≤ 0 then 1048576 else c.maxBodySize

/-- `requestCtx.ensureBody`. -/
def ensureBody (c : RequestCtx A) : Str × RequestCtx A :=
  if c.bodyDone then (c.body, c)
  else
    match c.r.body with
    | none => ([], { c with bodyDone := true })
    | some stream =>
        let (value, stored, rest) := stream.inspect c.bodyLimit
        (value, { c with
          bodyDone := true
          body := stored.getD c.body
          r := { c.r with body := some rest } })

/-- `requestCtx.get`: the value, whether the parameter is present, and the context
afterwards. -/
def get (lib : Library F R A N) (c : RequestCtx A) (param name : Str) :
    (Str × Bool) × RequestCtx A :=
  -- most parameters are present when they are not empty
  let filled (v : Str) (c : RequestCtx A) := ((v, decide (v ≠ [])), c)
  match Param.parse param with
  | some .host => filled c.r.host c
  | some .userAgent => filled (c.r.header.get (str "User-Agent")) c
  | some .referer => filled (c.r.header.get (str "Referer")) c
  | some .cookie => filled (c.r.header.get (str "Cookie")) c
  | some .url => ((c.r.requestURI, true), c)
  | some .path => ((c.r.path, true), c)
  | some .query => ((c.r.rawQuery, true), c)
  | some .method => ((c.r.method, true), c)
  | some .ip => filled c.ip c
  | some .country => filled (c.ensureGeo lib).geo.country (c.ensureGeo lib)
  | some .asn =>
      let c := c.ensureGeo lib
      if c.geo.asn = 0 then (([], false), c)
      else ((str (toString c.geo.asn.toNat), true), c)
  | some .asnOrg => filled (c.ensureGeo lib).geo.asnOrg (c.ensureGeo lib)
  | some .city => filled (c.ensureGeo lib).geo.city (c.ensureGeo lib)
  | some .body =>
      -- presence is read from the context, where a truncated body is not stored
      let (v, c) := c.ensureBody
      ((v, decide (c.body ≠ [])), c)
  | some .arg => filled (lib.queryGet c.r.rawQuery name) c
  | some .header => filled (c.r.header.get name) c
  | none => (([], false), c)

/-- Two contexts of one request that differ at most in what was read of its body. -/
structure Agrees (lib : Library F R A N) (c c' : RequestCtx A) : Prop where
  request_eq : { c'.r with body := none } = { c.r with body := none }
  ip_eq : c'.ip = c.ip
  geo_eq : (c'.ensureGeo lib).geo = (c.ensureGeo lib).geo

/-- Nothing was read of the body in between. -/
structure SameBody (c c' : RequestCtx A) : Prop where
  stream_eq : c'.r.body = c.r.body
  body_eq : c'.body = c.body
  done_eq : c'.bodyDone = c.bodyDone
  limit_eq : c'.maxBodySize = c.maxBodySize

theorem Agrees.refl (lib : Library F R A N) (c : RequestCtx A) : Agrees lib c c := ⟨rfl, rfl, rfl⟩

theorem SameBody.refl (c : RequestCtx A) : SameBody c c := ⟨rfl, rfl, rfl, rfl⟩

/-- Looking the address up changes nothing else. -/
theorem ensureGeo_eq (lib : Library F R A N) (c : RequestCtx A) :
    c.ensureGeo lib = { c with geoDone := true, geo := (c.ensureGeo lib).geo } := by
  unfold ensureGeo
  split
  · next hdone => rw [← hdone]
  · split <;> rfl

theorem ensureBody_eq (c : RequestCtx A) :
    c.ensureBody.2 = { c with
      r := { c.r with body := c.ensureBody.2.r.body }
      bodyDone := true
      body := c.ensureBody.2.body } := by
  unfold ensureBody
  split
  · next hdone => rw [← hdone]
  · split <;> rfl

variable {lib : Library F R A N} {c c' : RequestCtx A} {param : Str}

theorem Agrees.ensureGeo (h : Agrees lib c c') : Agrees lib c (c'.ensureGeo lib) := by
  have hgeo := ensureGeo_eq lib c'
  refine ⟨?_, ?_, ?_⟩
  · rw [hgeo]
    exact h.request_eq
  · rw [hgeo]
    exact h.ip_eq
  · rw [← h.geo_eq, hgeo]
    rfl

/-- Reading the body changes nothing else one can look up. -/
theorem Agrees.ensureBody (h : Agrees lib c c') : Agrees lib c c'.ensureBody.2 := by
  have hbody := ensureBody_eq c'
  refine ⟨?_, ?_, ?_⟩
  · rw [hbody]
    exact h.request_eq
  · rw [hbody]
    exact h.ip_eq
  · rw [← h.geo_eq, hbody]
    unfold RequestCtx.ensureGeo
    cases c'.geoDone with
    | true => rfl
    | false => cases c'.gs <;> cases lib.parseIP (trimSpace c'.ip) <;> rfl

theorem SameBody.ensureBody (h : SameBody c c') :
    c'.ensureBody.1 = c.ensureBody.1 ∧ c'.ensureBody.2.body = c.ensureBody.2.body ∧
      c'.ensureBody.2.r.body = c.ensureBody.2.r.body := by
  unfold RequestCtx.ensureBody bodyLimit
  simp only [h.done_eq, h.stream_eq, h.limit_eq, h.body_eq]
  split
  · exact ⟨rfl, h.body_eq, h.stream_eq⟩
  · cases hstream : c.r.body with
    | none => exact ⟨rfl, rfl, by simp [h.stream_eq]⟩
    | some stream => exact ⟨rfl, rfl, rfl⟩

/-- A parameter's value does not depend on what was looked up before, unless the
body was read before and is asked for again. -/
theorem Agrees.get_eq (h : Agrees lib c c') (hbody : param = str "body" → SameBody c c')
    (name : Str) : (c'.get lib param name).1 = (c.get lib param name).1 := by
  obtain ⟨hmethod, hhost, -, hheader, huri, hpath, hquery, -⟩ := Request.mk.inj h.request_eq
  unfold RequestCtx.get
  cases hparam : Param.parse param with
  | none => rfl
  | some p =>
    cases p with
    | body =>
      have hread := (hbody (spelling_of_ofSpelling hparam).symm).ensureBody
      simp only [hread]
    | asn =>
      simp only [h.geo_eq]
      split <;> rfl
    | _ => simp only [h.ip_eq, h.geo_eq, hmethod, hhost, hheader, huri, hpath, hquery]

/-- Looking a parameter up leaves the others as they were. -/
theorem Agrees.get (h : Agrees lib c c') (param name : Str) :
    Agrees lib c (c'.get lib param name).2 := by
  unfold RequestCtx.get
  cases Param.parse param with
  | none => exact h
  | some p =>
    cases p with
    | country | asnOrg | city => exact h.ensureGeo
    | asn =>
      simp only
      split <;> exact h.ensureGeo
    | body => exact h.ensureBody
    | _ => exact h

/-- Looking another parameter up reads nothing of the body. -/
theorem SameBody.get (h : SameBody c c') (hparam : param ≠ str "body") (name : Str) :
    SameBody c (c'.get lib param name).2 := by
  have hgeo : SameBody c (c'.ensureGeo lib) := by
    rw [ensureGeo_eq]
    exact ⟨h.stream_eq, h.body_eq, h.done_eq, h.limit_eq⟩
  unfold RequestCtx.get
  cases hparse : Param.parse param with
  | none => exact h
  | some p =>
    cases p with
    | country | asnOrg | city => exact hgeo
    | asn =>
      simp only
      split <;> exact hgeo
    | body => exact absurd (spelling_of_ofSpelling hparse).symm hparam
    | _ => exact h

/-- Only the parameters `arg` and `header` need a name. -/
theorem get_name (harg : param ≠ str "arg") (hheader : param ≠ str "header") (c : RequestCtx A)
    (name name' : Str) : (c.get lib param name).1 = (c.get lib param name').1 := by
  unfold RequestCtx.get
  cases hparse : Param.parse param with
  | none => rfl
  | some p =>
    cases p with
    | arg => exact absurd (spelling_of_ofSpelling hparse).symm harg
    | header => exact absurd (spelling_of_ofSpelling hparse).symm hheader
    | _ => rfl

end RequestCtx

end Peretum.Waf
