import Peretum.Cache.Legible
import Peretum.Handler.Purgeable

/-!
# The length that is stored with a body

The transport saves the headers of a response before the plugins see its body. The
`TransformResponseBody` and `BeforeCacheStore` hooks may then change the body, and the
response is stored with the headers of the body it had. This file follows the
`Content-Length` of an upstream response into the cache and out of it again.
-/

namespace Peretum.Handler

open Go Cache

/-- The loop of `RunTransformResponseBody` and `RunBeforeCacheStore`: every hook gets the
body the one before it has left, and an error ends the loop. -/
def runBodyHooks : List (Str → Option Str) → Str → Option Str
  | [], body => some body
  | hook :: hooks, body => (hook body).bind (runBodyHooks hooks)

/-- The plugins of a handler, by what their hooks do for its target and location. -/
structure Plugins where
  /-- `TransformResponseBody`, for a content type and a body. -/
  transformResponseBody : List (Str → Str → Option Str)
  /-- `BeforeCacheStore`, for a key, a status, headers and a body. -/
  beforeCacheStore : List (Key → Nat → Header → Str → Option Str)
  /-- `ShouldCache`, for a status, headers and a body. -/
  shouldCache : List (Nat → Header → Str → Bool)

namespace Plugins

/-- The result of `RunTransformResponseBody`. -/
def transformed (p : Plugins) (c : Captured) : Option Str :=
  runBodyHooks
    (p.transformResponseBody.map fun hook => hook (c.header.sanitized.get (str "Content-Type")))
    c.body

/-- The body after the transformation, which is kept when it fails. -/
def bodyCopy (p : Plugins) (c : Captured) : Str := (p.transformed c).getD c.body

/-- The result of `RunBeforeCacheStore`. -/
def beforeStore (p : Plugins) (key : Key) (c : Captured) : Option Str :=
  runBodyHooks (p.beforeCacheStore.map fun hook => hook key c.statusCode c.header.sanitized)
    (p.bodyCopy c)

/-- The body that is stored. -/
def storeBody (p : Plugins) (key : Key) (c : Captured) : Str :=
  (p.beforeStore key c).getD (p.bodyCopy c)

/-- What the plugins make of a response when they change bodies only. -/
def hooks (p : Plugins) (key : Key) (c : Captured) : Hooks where
  header := id
  transformed := p.transformed c
  beforeStore := p.beforeStore key c
  shouldCache := p.shouldCache.all fun hook =>
    hook c.statusCode c.header.sanitized (p.storeBody key c)

def none : Plugins := ⟨[], [], []⟩

end Plugins

/-- The hooks of a stored response are those of the plugins of its handler. -/
def PluggedBy (plugins : Nat → Plugins) (s : State) : Nat × Step → Prop
  | (i, .store hooks _ _ _) => ∀ job flight c, s.requests i = .proxied job flight (some c) →
      hooks = (plugins job.handler).hooks job.key c
  | _ => True

/-- The `Content-Length` of a header map, if it has one, is the length of a body. -/
def LengthAgrees (headers : Header) (body : Str) : Prop :=
  ∀ v ∈ joinedValues headers contentLength, atoi v = some body.length

instance (headers : Header) (body : Str) : Decidable (LengthAgrees headers body) :=
  inferInstanceAs (Decidable (∀ v ∈ joinedValues headers contentLength, _))

/-- A response has as many bytes of body as its headers say. -/
def Complete (w : ResponseWriter) : Prop :=
  ∀ code header, w.sent = some (code, header) →
    ∀ v ∈ (header.lookup contentLength).getD [], atoi v = some w.body.length

theorem joinedValues_of_canonical {headers : Header} (hcanon : headers.Canonical) (name : Str) :
    joinedValues headers name = ((headers.lookup name).map (join valueSeparator)).toList := by
  have hfilter : headers.entries.filter (fun e => name = canonicalMIMEHeaderKey e.1) =
      headers.entries.filter (fun e => name = e.1) := by
    refine List.filter_congr fun e he => ?_
    rw [hcanon e.1 (AList.mem_keys.mpr (List.mem_keys_of_mem he))]
  rw [joinedValues, hfilter]
  exact Map.map_filter_entries (join valueSeparator) headers name

/-- Sanitizing leaves the `Content-Length` of a response. -/
theorem joinedValues_sanitized (u : UpstreamHeader) :
    joinedValues u.sanitized contentLength = joinedValues u.header contentLength := by
  have hnotMem : contentLength ∉ upstreamIdentityHeaders.map canonicalMIMEHeaderKey := by decide
  have hne : contentLength ≠ canonicalMIMEHeaderKey (str "Server") := by decide
  rw [joinedValues_of_canonical u.canonical_sanitized, joinedValues_of_canonical u.canonical,
    UpstreamHeader.sanitized, sanitizeResponseHeaders, Header.lookup_set, if_neg hne,
    Header.lookup_delAll, if_neg hnotMem]

/-- What is stored of a response: its headers, and the body the plugins leave. -/
def StoredBy (plugins : Nat → Plugins) (s : State) : Prop :=
  ∀ job c w result, .stored job c w result ∈ s.log →
    w.headers = c.header.sanitized ∧ w.body = (plugins job.handler).storeBody job.key c

theorem storedBy_of_reaches {sha : Str → Key} {handlers : Nat → TargetHandler}
    {plugins : Nat → Plugins} {maxSize maxAge : Int} {s : State}
    (hreach : Runs.Reaches (step sha handlers) (PluggedBy plugins) (.init maxSize maxAge) s) :
    StoredBy plugins s := by
  refine hreach.invariant (fun s a t hs hguard hstep => ?_) ?_
  · intro job c w result hmem
    obtain ⟨i, a⟩ := a
    obtain ⟨p', htaken⟩ := requestStep_taken hstep
    rcases htaken.progress.stored job c w result hmem with
      hold | ⟨flight, hooks, slot, now, io, hp, rfl, rfl⟩
    · exact hs job c w result hold
    · obtain rfl := hguard job flight c hp
      exact ⟨rfl, rfl⟩
  · intro job c w result hmem
    simp [State.init] at hmem

theorem complete_iff_lengthAgrees {hit : ResponseWriter} {statusCode : Nat} {headers : Header}
    {body : Str} (hhit : Delivers hit statusCode headers body) :
    Complete hit ↔ LengthAgrees headers body := by
  obtain ⟨⟨header, hsent, hvalues⟩, hbody⟩ := hhit
  have hperm := hvalues contentLength (by decide) (by decide)
  constructor
  · intro hcomplete v hv
    rw [← hbody]
    exact hcomplete statusCode header hsent v (hperm.mem_iff.mpr hv)
  · intro hagrees code header' hsent' v hv
    obtain ⟨-, rfl⟩ := Prod.mk.inj (Option.some.inj (hsent.symm.trans hsent'))
    rw [hbody]
    exact hagrees v (hperm.mem_iff.mp hv)

/-- The stored length of a response is that of the stored body exactly if the length the
upstream sent is that of the body the plugins leave. When the upstream has sent the length
of its own body, this means that it has sent none or the plugins keep the length. A hit
that delivers the entry is complete in the same cases. -/
theorem lengthAgrees_stored_iff {sha : Str → Key} {handlers : Nat → TargetHandler}
    {plugins : Nat → Plugins} {maxSize maxAge : Int} {s : State}
    (hreach : Runs.Reaches (step sha handlers) (PluggedBy plugins) (.init maxSize maxAge) s)
    {job : Job} {c : Captured} {w : Write} {result : Except DiskCache.SetError Unit}
    (hstored : .stored job c w result ∈ s.log) :
    (LengthAgrees w.headers w.body ↔
        LengthAgrees c.header.header ((plugins job.handler).storeBody job.key c)) ∧
      (LengthAgrees c.header.header c.body →
        (LengthAgrees w.headers w.body ↔ joinedValues c.header.header contentLength = [] ∨
          ((plugins job.handler).storeBody job.key c).length = c.body.length)) ∧
      ∀ hit, Delivers hit w.statusCode w.headers w.body →
        (Complete hit ↔ LengthAgrees w.headers w.body) := by
  obtain ⟨hheaders, hbody⟩ := storedBy_of_reaches hreach job c w result hstored
  have hsame : LengthAgrees w.headers w.body ↔
      LengthAgrees c.header.header ((plugins job.handler).storeBody job.key c) := by
    rw [hheaders, hbody, LengthAgrees, LengthAgrees, joinedValues_sanitized]
  refine ⟨hsame, fun hupstream => ?_, fun hit hhit => complete_iff_lengthAgrees hhit⟩
  rw [hsame]
  constructor
  · intro hagrees
    cases hvalues : joinedValues c.header.header contentLength with
    | nil => exact .inl rfl
    | cons v values =>
      have hv : v ∈ joinedValues c.header.header contentLength := hvalues ▸ List.mem_cons_self
      right
      have hlength := (hagrees v hv).symm.trans (hupstream v hv)
      exact_mod_cast Option.some.inj hlength
  · rintro (hnone | hlength) v hv
    · rw [hnone] at hv
      cases hv
    · rw [hlength]
      exact hupstream v hv

/-- A response with a `Content-Length`. -/
def sizedPage : Captured where
  statusCode := 200
  header := ⟨AList.insert contentLength [str "4"] ∅, Header.canonical_of_entries (by decide),
    Header.valued_of_entries (by decide)⟩
  body := str "page"

/-- The response is fetched and given to the hooks of some plugins. -/
def storesSized (p : Plugins) : List (Nat × Step) :=
  comes 0 getPage ++ [(0, .fetch (some sizedPage)),
    (0, .store (p.hooks zeroKey sizedPage) true 0 ⟨true, true⟩)]

theorem admitted_storesSized (p : Plugins) :
    Runs.Admitted (step (fun _ => zeroKey) fun _ => plainHandler) (PluggedBy fun _ => p)
      (.init 0 0) (storesSized p) := by
  refine .cons trivial rfl (.cons trivial rfl (.cons trivial rfl (.cons trivial rfl
    ⟨fun job flight c hproxied => ?_, fun _ _ => trivial⟩)))
  obtain ⟨rfl, -, hc⟩ := Phase.proxied.inj hproxied
  cases hc
  rfl

/-- A plugin that cuts a body down to its first byte. -/
def cutting : Plugins := ⟨[fun _ body => some (body.take 1)], [], []⟩

/-- The server after the plugin has cut the response. -/
def cutState : State :=
  (Runs.exec (step (fun _ => zeroKey) fun _ => plainHandler) (.init 0 0)
    (storesSized cutting)).get (by decide)

/-- The first byte is stored with the length of the whole body, and a hit announces four
bytes and sends one. -/
theorem cutState_incomplete :
    Runs.Reaches (step (fun _ => zeroKey) fun _ => plainHandler) (PluggedBy fun _ => cutting)
        (.init 0 0) cutState ∧
      LengthAgrees sizedPage.header.header sizedPage.body ∧
      (∃ job w, .stored job sizedPage w (.ok ()) ∈ cutState.log ∧
        ¬ LengthAgrees w.headers w.body) ∧
      ∃ hit, cutState.cache.served 0 zeroKey = some hit ∧ hit.body = str "p" ∧ ¬ Complete hit := by
  refine ⟨Runs.reaches_get (admitted_storesSized cutting),
    by decide, ⟨_, _, List.mem_cons_self, by decide⟩, _, rfl, by decide, fun hcomplete => ?_⟩
  exact absurd (hcomplete _ _ rfl (str "4") (by decide)) (by decide)

/-- The server after the response was stored without plugins. -/
def sizedState : State :=
  (Runs.exec (step (fun _ => zeroKey) fun _ => plainHandler) (.init 0 0)
    (storesSized .none)).get (by decide)

/-- The body is stored with its length. -/
theorem sizedState_lengthAgrees :
    ∃ job w, .stored job sizedPage w (.ok ()) ∈ sizedState.log ∧
      LengthAgrees w.headers w.body := by
  have hreach : Runs.Reaches (step (fun _ => zeroKey) fun _ => plainHandler)
      (PluggedBy fun _ => .none) (.init 0 0) sizedState :=
    Runs.reaches_get (admitted_storesSized .none)
  refine ⟨_, _, List.mem_cons_self, ?_⟩
  exact ((lengthAgrees_stored_iff hreach List.mem_cons_self).2.1 (by decide)).mpr (.inr rfl)

end Peretum.Handler
