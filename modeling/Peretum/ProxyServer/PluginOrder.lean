import Peretum.Chains
import Peretum.ProxyServer.Plugins

/-!
# The order of plugins

`LoadPlugins` ranges over a map of configurations, so the plugins that look at a request
before it is proxied do so in an order that changes from start to start, and the first one
that answers the request ends it. This file embeds the hooks of the plugins that can. What
becomes of a request is the same in every order exactly if all plugins that would not let
it pass give the same answer.
-/

namespace Peretum.ProxyServer

open Go Waf

variable {F R A N S : Type}

/-- `CORSPlugin`, initialized. -/
structure CORSPlugin where
  enabled : Bool
  allowOrigins : List Str
  allowMethods : List Str
  allowHeaders : List Str
  exposeHeaders : List Str
  allowCredentials : Bool
  /-- How long the announcement may be kept. -/
  maxAge : Int

namespace CORSPlugin

/-- The origin of the request is allowed. -/
def allows (p : CORSPlugin) (r : Request) : Bool :=
  let origin := r.header.get (str "Origin")
  origin ≠ [] && p.allowOrigins.any fun o => o == str "*" || o == origin

/-- The headers `BeforeProxy` sets for an allowed origin. -/
def announce (p : CORSPlugin) (r : Request) (h : Header) : Header :=
  let h := (h.add (str "Vary") (str "Origin")).set (str "Access-Control-Allow-Origin")
    (r.header.get (str "Origin"))
  let h :=
    if p.allowCredentials then h.set (str "Access-Control-Allow-Credentials") (str "true") else h
  let h :=
    if p.allowMethods ≠ [] then
      h.set (str "Access-Control-Allow-Methods") (join (str ", ") p.allowMethods)
    else h
  let asked := r.header.get (str "Access-Control-Request-Headers")
  let h :=
    if p.allowHeaders ≠ [] then
      h.set (str "Access-Control-Allow-Headers") (join (str ", ") p.allowHeaders)
    else if asked ≠ [] then h.set (str "Access-Control-Allow-Headers") asked
    else h
  let h :=
    if p.exposeHeaders ≠ [] then
      h.set (str "Access-Control-Expose-Headers") (join (str ", ") p.exposeHeaders)
    else h
  if 0 < p.maxAge then h.set (str "Access-Control-Max-Age") (str (toString p.maxAge)) else h

/-- `CORSPlugin.BeforeProxy`: whether the request passes, and what is left behind. -/
def beforeProxy (p : CORSPlugin) (w : ResponseWriter) (r : Request) :
    Bool × ResponseWriter × Request :=
  if p.enabled && p.allows r then
    let w := { w with header := p.announce r w.header }
    if r.method = str "OPTIONS" then (false, w.writeHeader 204, r) else (true, w, r)
  else (true, w, r)

end CORSPlugin

/-- `http.Error`. -/
def httpError (w : ResponseWriter) (text : Str) (code : Nat) : ResponseWriter :=
  let header := ((w.header.del (str "Content-Length")).set (str "Content-Type")
    (str "text/plain; charset=utf-8")).set (str "X-Content-Type-Options") (str "nosniff")
  ({ w with header := header }.writeHeader code).write (text ++ str "\n") |>.2

/-- `RateLimitPlugin`, initialized. -/
structure RateLimitPlugin (F S : Type) where
  enabled : Bool
  rps : F
  burst : Int
  store : S

namespace RateLimitPlugin

/-- `RateLimitPlugin.key`. -/
def key (lib : Library F R A N) (r : Request) (target : Str) : Str :=
  target ++ str "|" ++ (lib.splitHostPort r.remoteAddr).getD r.remoteAddr

/-- The request is over the limit. -/
def exceeded (lib : Library F R A N) (allow : S → Str → F → Int → Bool × S)
    (p : RateLimitPlugin F S)
    (r : Request) (target : Str) : Bool :=
  p.enabled && !(allow p.store (key lib r target) p.rps p.burst).1

/-- `RateLimitPlugin.BeforeProxy`. -/
def beforeProxy (lib : Library F R A N) (allow : S → Str → F → Int → Bool × S)
    (p : RateLimitPlugin F S) (target : Str) (w : ResponseWriter) (r : Request) :
    Bool × ResponseWriter × Request :=
  if p.exceeded lib allow r target then
    (false, httpError { w with header := w.header.set (str "Retry-After") (str "1") }
      (str "Too Many Requests") 429, r)
  else (true, w, r)

end RateLimitPlugin

/-- The plugins with a hook before proxying. -/
inductive Plugin (F R A N S : Type) where
  /-- `CORSPlugin`. -/
  | cors (p : CORSPlugin)
  /-- `WAFPlugin`. -/
  | waf (p : WAFPlugin F R A N S)
  /-- `RateLimitPlugin`. -/
  | ratelimit (p : RateLimitPlugin F S)
  /-- `CompressionPlugin`; its level. -/
  | compression (level : Int)

namespace Plugin

/-- The name a plugin is registered and configured under. -/
def name : Plugin F R A N S → Str
  | .cors _ => str "cors"
  | .waf _ => str "waf"
  | .ratelimit _ => str "ratelimit"
  | .compression _ => str "compression"

/-- The hook of a plugin for requests to a target. -/
def hook (lib : Library F R A N) (allow : S → Str → F → Int → Bool × S) (target : Str) :
    Plugin F R A N S → RequestHook F R A N S
  | .cors p => .other (.plain p.beforeProxy)
  | .waf p => .waf p
  | .ratelimit p => .other (.plain (p.beforeProxy lib allow target))
  | .compression level => .other (.compression level)

end Plugin

/-- What becomes of a request that does not pass. -/
inductive Verdict where
  | answered (status : Option Nat)
  | panicked
  deriving DecidableEq

/-- What becomes of a request after `RunBeforeProxy`, if it does not pass. -/
def verdict : Except Panic (HooksResult F R N) → Option Verdict
  | .error _ => some .panicked
  | .ok result =>
      if result.passed then none else some (.answered (result.w.sent.map Prod.fst))

/-- The status that is committed when `writeBlock` is called with a code. -/
def committed (code : Int) : Nat :=
  if 100 ≤ code ∧ code ≤ 199 ∧ code ≠ 101 then 200 else code.toNat

/-- What a plugin that does not let a request pass makes of it. -/
def Plugin.answer (lib : Library F R A N) (allow : S → Str → F → Int → Bool × S) (order : KeyOrder)
    (target location : Str) (r : Request) : Plugin F R A N S → Option Verdict
  | .cors p =>
      if p.enabled && p.allows r && r.method == str "OPTIONS" then some (.answered (some 204))
      else none
  | .waf p =>
      (p.blockStatus lib allow order r target location).map fun status =>
        if validStatus status then .answered (some (committed status)) else .panicked
  | .ratelimit p => if p.exceeded lib allow r target then some (.answered (some 429)) else none
  | .compression level =>
      if acceptsGzip r && !validLevel level then some .panicked else none

section

variable {lib : Library F R A N} {allow : S → Str → F → Int → Bool × S} {order : KeyOrder}
  {target location : Str}

variable (lib allow order target location) in
/-- One hook as a link of a chain. -/
def link (h : RequestHook F R A N S) (s : ResponseWriter × Request) :
    Verdict ⊕ (ResponseWriter × Request) :=
  match runBeforeProxy lib allow order target location [h] s.1 s.2 with
  | .error _ => .inl .panicked
  | .ok result =>
      if result.passed then .inr (result.w, result.r)
      else .inl (.answered (result.w.sent.map Prod.fst))

/-- `RunBeforeProxy` is a chain of its hooks. -/
theorem verdict_runBeforeProxy (hooks : List (RequestHook F R A N S)) (w : ResponseWriter)
    (r : Request) :
    verdict (runBeforeProxy lib allow order target location hooks w r) =
      Chains.run (link lib allow order target location) hooks (w, r) := by
  induction hooks generalizing w r with
  | nil => rfl
  | cons h hooks ih =>
    rw [Chains.run]
    cases h with
    | waf p =>
      simp only [runBeforeProxy, link]
      cases p.blockStatus lib allow order r target location with
      | some status =>
        simp only
        split <;> rfl
      | none =>
        simp only [if_true]
        rw [← ih]
        split <;> simp_all [verdict]
    | other h =>
      simp only [runBeforeProxy, link]
      rcases h.beforeProxy w r with e | ⟨_ | _, w', r'⟩
      · rfl
      · rfl
      · simp only [if_true]
        exact ih w' r'

/-- The status that is committed by `WriteHeader` and a write. -/
theorem sent_write {w : ResponseWriter} (hw : w.sent = none) (code : Nat) (text : Str) :
    ((w.writeHeader code).write text).2.sent.map Prod.fst =
      some (if 100 ≤ code ∧ code ≤ 199 ∧ code ≠ 101 then 200 else code) := by
  rw [ResponseWriter.sent_write, Option.map_some, ResponseWriter.response,
    ResponseWriter.writeHeader]
  by_cases hinfo : 100 ≤ code ∧ code ≤ 199 ∧ code ≠ 101
  · rw [if_pos (.inr hinfo), if_pos hinfo, hw]
    rfl
  · rw [if_neg (by simp [hw, hinfo]), if_neg hinfo]
    rfl

theorem sent_writeBlock {w : ResponseWriter} (hw : w.sent = none) {status : Int}
    (hstatus : validStatus status = true) (message : Str) :
    (writeBlock w status message).sent.map Prod.fst = some (committed status) := by
  simp only [validStatus, Bool.and_eq_true, decide_eq_true_eq] at hstatus
  refine (sent_write (by exact hw) _ _).trans (congrArg some ?_)
  unfold committed
  split_ifs <;> omega

theorem sent_beforeProxy {p : WAFPlugin F R A N S} {w : ResponseWriter} (hw : w.sent = none)
    {r : Request} {status : Int}
    (hblock : p.blockStatus lib allow order r target location = some status)
    (hstatus : validStatus status = true) :
    (p.beforeProxy lib allow order w r target location).w.sent.map Prod.fst =
      some (committed status) := by
  obtain ⟨rs, hrs, hdecided⟩ := Option.bind_eq_some_iff.mp hblock
  unfold WAFPlugin.consulted at hrs
  split_ifs at hrs with henabled
  simp only [WAFPlugin.beforeProxy, henabled, hrs, Bool.not_true, Bool.false_eq_true, if_false]
  revert hdecided
  rcases rs.evaluate lib order r p.gs with ⟨⟨_ | _, _ | rule⟩, r'⟩ <;> intro hdecided
  · cases hdecided
  · cases hdecided
  · cases hdecided
    exact sent_writeBlock hw hstatus _
  · by_cases haction : rule.action = .rateLimit
    · simp only [if_pos haction] at hdecided ⊢
      split at hdecided
      · cases hdecided
      · next hallowed =>
        cases hdecided
        rw [if_neg hallowed]
        exact sent_writeBlock (by exact hw) hstatus _
    · simp only [if_neg haction] at hdecided ⊢
      cases hdecided
      exact sent_writeBlock hw hstatus _

theorem beforeProxy_w {p : WAFPlugin F R A N S} {r : Request}
    (hblock : p.blockStatus lib allow order r target location = none) (w : ResponseWriter) :
    (p.beforeProxy lib allow order w r target location).w = w := by
  unfold WAFPlugin.blockStatus WAFPlugin.consulted at hblock
  unfold WAFPlugin.beforeProxy
  cases henabled : p.enabled with
  | false => rfl
  | true =>
    simp only [henabled, if_true] at hblock
    cases hrs : p.rs.lookup (policyKey target location) with
    | none => rfl
    | some rs =>
      simp only [hrs, Option.bind_some] at hblock
      simp only [Bool.not_true, Bool.false_eq_true, if_false]
      revert hblock
      rcases rs.evaluate lib order r p.gs with ⟨⟨_ | _, _ | rule⟩, r'⟩ <;> intro hblock
      · rfl
      · rfl
      · cases hblock
      · simp only at hblock ⊢
        split_ifs at hblock ⊢
        rfl

variable (lib allow order target location) in
/-- What a plugin does to a request whose response is not committed. -/
inductive Treated (p : Plugin F R A N S) (w : ResponseWriter) (r : Request) : Prop where
  | answered {a : Verdict} (hanswer : p.answer lib allow order target location r = some a)
      (hlink : link lib allow order target location (p.hook lib allow target) (w, r) = .inl a)
  /-- It passes on a request that differs at most in its body, and only if it is the firewall. -/
  | passed (w' : ResponseWriter) (r' : Request)
      (hanswer : p.answer lib allow order target location r = none)
      (hlink : link lib allow order target location (p.hook lib allow target) (w, r) =
        .inr (w', r'))
      (hsent : w'.sent = none) (hbody : { r' with body := none } = { r with body := none })
      (hother : p.name ≠ str "waf" → r' = r)

theorem treated_of_plain {p : Plugin F R A N S} {w : ResponseWriter} {r : Request}
    {run : ResponseWriter → Request → Bool × ResponseWriter × Request} {passes : Bool}
    {w' : ResponseWriter} (hhook : p.hook lib allow target = .other (.plain run))
    (hrun : run w r = (passes, w', r))
    (hpasses : passes = true →
      p.answer lib allow order target location r = none ∧ w'.sent = none)
    (hanswers : passes = false → p.answer lib allow order target location r =
      some (.answered (w'.sent.map Prod.fst))) :
    Treated lib allow order target location p w r := by
  cases passes with
  | true =>
    obtain ⟨hnone, hsent⟩ := hpasses rfl
    refine .passed w' r hnone ?_ hsent rfl fun _ => rfl
    simp [link, hhook, runBeforeProxy, OtherHook.beforeProxy, hrun]
  | false =>
    refine .answered (hanswers rfl) ?_
    simp [link, hhook, runBeforeProxy, OtherHook.beforeProxy, hrun]

/-- The cross-origin plugin answers preflight requests from allowed origins. -/
theorem treated_cors (p : CORSPlugin) {w : ResponseWriter} (hw : w.sent = none) (r : Request) :
    Treated lib allow order target location (.cors p) w r := by
  by_cases hallows : (p.enabled && p.allows r) = true
  · by_cases hmethod : r.method = str "OPTIONS"
    · have hrun : p.beforeProxy w r =
          (false, { w with header := p.announce r w.header }.writeHeader 204, r) := by
        rw [CORSPlugin.beforeProxy, if_pos hallows, if_pos hmethod]
      refine treated_of_plain rfl hrun (by simp) fun _ => ?_
      rw [ResponseWriter.sent_writeHeader (by exact hw) (by decide)]
      simp [Plugin.answer, hallows, hmethod]
    · have hrun : p.beforeProxy w r = (true, { w with header := p.announce r w.header }, r) := by
        rw [CORSPlugin.beforeProxy, if_pos hallows, if_neg hmethod]
      refine treated_of_plain rfl hrun (fun _ => ⟨?_, hw⟩) (by simp)
      simp [Plugin.answer, hmethod]
  · have hrun : p.beforeProxy w r = (true, w, r) := by
      rw [CORSPlugin.beforeProxy, if_neg hallows]
    refine treated_of_plain rfl hrun (fun _ => ⟨?_, hw⟩) (by simp)
    simp [Plugin.answer, hallows]

theorem treated_ratelimit (p : RateLimitPlugin F S) {w : ResponseWriter} (hw : w.sent = none)
    (r : Request) : Treated lib allow order target location (.ratelimit p) w r := by
  by_cases hexceeded : p.exceeded lib allow r target = true
  · have hrun : p.beforeProxy lib allow target w r = (false, httpError
        { w with header := w.header.set (str "Retry-After") (str "1") }
        (str "Too Many Requests") 429, r) := by
      rw [RateLimitPlugin.beforeProxy, if_pos hexceeded]
    refine treated_of_plain rfl hrun (by simp) fun _ => ?_
    rw [httpError, sent_write (by exact hw)]
    simp [Plugin.answer, hexceeded]
  · have hrun : p.beforeProxy lib allow target w r = (true, w, r) := by
      rw [RateLimitPlugin.beforeProxy, if_neg hexceeded]
    refine treated_of_plain rfl hrun (fun _ => ⟨?_, hw⟩) (by simp)
    simp [Plugin.answer, hexceeded]

theorem treated_compression (level : Int) {w : ResponseWriter} (hw : w.sent = none) (r : Request) :
    Treated lib allow order target location (.compression level : Plugin F R A N S) w r := by
  by_cases hnil : (acceptsGzip r && !validLevel level) = true
  · refine .answered (a := .panicked) ?_ ?_
    · simp [Plugin.answer, hnil]
    · simp [link, Plugin.hook, runBeforeProxy, OtherHook.beforeProxy, hnil]
  · refine .passed w r ?_ ?_ hw rfl fun _ => rfl
    · simp [Plugin.answer, hnil]
    · simp [link, Plugin.hook, runBeforeProxy, OtherHook.beforeProxy, hnil]

/-- The firewall answers the requests it blocks, and may have read the body of others. -/
theorem treated_waf (p : WAFPlugin F R A N S) {w : ResponseWriter} (hw : w.sent = none)
    (r : Request) : Treated lib allow order target location (.waf p) w r := by
  cases hblock : p.blockStatus lib allow order r target location with
  | some status =>
    refine .answered (by rw [Plugin.answer, hblock, Option.map_some]) ?_
    by_cases hstatus : validStatus status = true
    · simp [link, Plugin.hook, runBeforeProxy, hblock, hstatus, sent_beforeProxy hw hblock hstatus]
    · simp [link, Plugin.hook, runBeforeProxy, hblock, hstatus]
  | none =>
    refine .passed (p.beforeProxy lib allow order w r target location).w
      (p.beforeProxy lib allow order w r target location).r ?_ ?_ ?_ ?_ ?_
    · rw [Plugin.answer, hblock, Option.map_none]
    · simp [link, Plugin.hook, runBeforeProxy, hblock]
    · rw [beforeProxy_w hblock, hw]
    · exact beforeProxy_request lib allow order p w r target location
    · exact fun h => absurd rfl h

theorem treated (p : Plugin F R A N S) {w : ResponseWriter} (hw : w.sent = none) (r : Request) :
    Treated lib allow order target location p w r := by
  cases p with
  | cors p => exact treated_cors p hw r
  | waf p => exact treated_waf p hw r
  | ratelimit p => exact treated_ratelimit p hw r
  | compression level => exact treated_compression level hw r

theorem answer_body {p : Plugin F R A N S} (hp : p.name ≠ str "waf") {r r' : Request}
    (hbody : { r' with body := none } = { r with body := none }) :
    p.answer lib allow order target location r' = p.answer lib allow order target location r := by
  have hr' : r' = { r with body := r'.body } := by
    cases r
    cases hbody
    rfl
  rw [hr']
  cases p with
  | waf p => exact absurd rfl hp
  | _ => rfl

variable (lib allow order target location) in
/-- A plugin as a link of a chain. -/
def pluginLink (p : Plugin F R A N S) (s : ResponseWriter × Request) :
    Verdict ⊕ (ResponseWriter × Request) :=
  link lib allow order target location (p.hook lib allow target) s

theorem answer_pluginLink (p : Plugin F R A N S) {w : ResponseWriter} (hw : w.sent = none)
    (r : Request) :
    Chains.answer (pluginLink lib allow order target location) p (w, r) =
      p.answer lib allow order target location r := by
  unfold Chains.answer pluginLink
  cases treated p hw r with
  | answered hanswer hlink => rw [hanswer, hlink, Sum.getLeft?_inl]
  | passed w' r' hanswer hlink => rw [hanswer, hlink, Sum.getLeft?_inr]

theorem of_pluginLink {p : Plugin F R A N S} {w w' : ResponseWriter} {r r' : Request}
    (hw : w.sent = none)
    (hlink : pluginLink lib allow order target location p (w, r) = .inr (w', r')) :
    w'.sent = none ∧ { r' with body := none } = { r with body := none } ∧
      (p.name ≠ str "waf" → r' = r) := by
  unfold pluginLink at hlink
  cases treated p hw r with
  | answered hanswer hanswered =>
    rw [hanswered] at hlink
    cases hlink
  | passed w'' r'' hanswer hpassed hsent hbody hother =>
    rw [hpassed] at hlink
    cases hlink
    exact ⟨hsent, hbody, hother⟩

theorem unaffected_of_name_ne {p q : Plugin F R A N S} (hne : p.name ≠ q.name) :
    Chains.Unaffected (pluginLink lib allow order target location) (·.1.sent = none) p q := by
  rintro ⟨w, r⟩ ⟨w', r'⟩ hw hlink
  obtain ⟨hw', hbody, hother⟩ := of_pluginLink hw hlink
  rw [answer_pluginLink q hw' r', answer_pluginLink q hw r]
  by_cases hp : p.name = str "waf"
  · exact answer_body (fun hq => hne (hp.trans hq.symm)) hbody
  · rw [hother hp]

variable (lib allow order target location) in
/-- What becomes of a request does not depend on the order of the plugins. -/
def Orderless (plugins : List (Plugin F R A N S)) (w : ResponseWriter) (r : Request) : Prop :=
  ∀ plugins' : List (Plugin F R A N S), plugins'.Perm plugins →
    verdict (runBeforeProxy lib allow order target location
        (plugins'.map (·.hook lib allow target)) w r) =
      verdict (runBeforeProxy lib allow order target location
        (plugins.map (·.hook lib allow target)) w r)

/-- What becomes of a request is the same in every order exactly if all plugins that would
stop the request as it came give the same answer. -/
theorem orderless_iff {plugins : List (Plugin F R A N S)}
    (hnames : (plugins.map Plugin.name).Nodup) {w : ResponseWriter} (hw : w.sent = none)
    (r : Request) :
    Orderless lib allow order target location plugins w r ↔
      ∀ p ∈ plugins, ∀ q ∈ plugins,
        (p.answer lib allow order target location r).isSome →
        (q.answer lib allow order target location r).isSome →
        p.answer lib allow order target location r =
          q.answer lib allow order target location r := by
  have hkeeps : ∀ p ∈ plugins,
      Chains.Keeps (pluginLink lib allow order target location) (·.1.sent = none) p := by
    rintro p - ⟨w, r⟩ ⟨w', r'⟩ hs hlink
    exact (of_pluginLink hs hlink).1
  have hunaffected : plugins.Pairwise fun p q =>
      Chains.Unaffected (pluginLink lib allow order target location) (·.1.sent = none) p q ∧
      Chains.Unaffected (pluginLink lib allow order target location) (·.1.sent = none) q p :=
    (List.pairwise_map.mp hnames).imp fun hne =>
      ⟨unaffected_of_name_ne hne, unaffected_of_name_ne hne.symm⟩
  have hchain := Chains.run_perm_iff hkeeps hunaffected (s := (w, r)) hw
  simp only [Chains.Unanimous, answer_pluginLink _ hw] at hchain
  rw [← hchain]
  unfold Orderless
  simp only [verdict_runBeforeProxy, Chains.run_map]
  rfl

end

/-- A cross-origin policy for everyone. -/
def openCORS : CORSPlugin where
  enabled := true
  allowOrigins := [str "*"]
  allowMethods := [str "GET", str "POST", str "PUT", str "DELETE", str "OPTIONS", str "HEAD"]
  allowHeaders := []
  exposeHeaders := []
  allowCredentials := false
  maxAge := 0

/-- A firewall that denies one method on the path of the administrators. -/
def adminWAF (method : String) : WAFPlugin Int Str Str Str Unit :=
  configured plainLibrary () none true 0
    [⟨str "example.com", str "/", ⟨true, [denyRule "no-admin" method "/admin"]⟩⟩]

/-- The three plugins that answer requests, with a limit that is not reached. -/
def guards (method : String) : List (Plugin Int Str Str Str Unit) :=
  [.cors openCORS, .waf (adminWAF method), .ratelimit ⟨true, 100, 200, ()⟩]

/-- A request from a page of another origin. -/
def crossOrigin (method : String) : Request :=
  { adminRequest method with header := Header.set ∅ (str "Origin") (str "https://a.com") }

/-- What the three plugins make of a request, in some order. -/
def guarded (plugins : List (Plugin Int Str Str Str Unit)) (r : Request) : Option Verdict :=
  verdict (runBeforeProxy plainLibrary (fun s _ _ _ => (true, s)) .asListed (str "example.com")
    (str "/") (plugins.map (·.hook plainLibrary (fun s _ _ _ => (true, s)) (str "example.com")))
    .fresh r)

/-- A preflight request that the firewall denies is answered by the plugin that comes first. -/
theorem preflight_not_orderless :
    (guards "OPTIONS").reverse.Perm (guards "OPTIONS") ∧
      ((guards "OPTIONS").map Plugin.name).Nodup ∧
      guarded (guards "OPTIONS") (crossOrigin "OPTIONS") = some (.answered (some 204)) ∧
      guarded (guards "OPTIONS").reverse (crossOrigin "OPTIONS") = some (.answered (some 403)) :=
  ⟨List.reverse_perm _, by decide, by decide, by decide⟩

/-- A request only the firewall denies is denied in every order. -/
theorem post_orderless :
    guarded (guards "POST") (crossOrigin "POST") = some (.answered (some 403)) ∧
      Orderless plainLibrary (fun s _ _ _ => (true, s)) .asListed (str "example.com") (str "/")
        (guards "POST") .fresh (crossOrigin "POST") :=
  ⟨by decide, (orderless_iff (by decide) rfl (crossOrigin "POST")).mpr (by decide)⟩

end Peretum.ProxyServer
