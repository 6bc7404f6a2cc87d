import Peretum.Go.ResponseWriter
import Peretum.Waf.Evaluate

/-!
# The firewall plugin

The plugin compiles the policies of all locations when it is initialized and keeps
them by target and location. Before a request is proxied it evaluates the policy of
the request's location and answers requests that are blocked itself. Rules that
throttle consult a store of token buckets, which is a state with one operation here.
-/

namespace Peretum.Waf

open Go

variable {F R A N S : Type}

structure WAFPlugin (F R A N S : Type) where
  enabled : Bool
  /-- The compiled policies by target and location. -/
  rs : Map Str (RuleSet F R N)
  gs : Option (Geodb A)
  /-- The number of bytes of a body to inspect. -/
  maxBodySize : Int64
  limiter : S

/-- The key of a location's policy. -/
def policyKey (target location : Str) : Str := target ++ str "|" ++ location

variable (lib : Library F R A N) (allow : S → Str → F → Int → Bool × S) (order : KeyOrder)

/-- The loop of `Init` over the locations. -/
def initLocation (maxBodySize : Int64) (rs : Map Str (RuleSet F R N)) (raw : Value F) :
    Map Str (RuleSet F R N) :=
  match raw with
  | .map loc =>
      match loc.lookup (str "waf") with
      | some (.map wafCfg) =>
          match buildRuleSet lib wafCfg maxBodySize with
          | .ok (some set) =>
              rs.insert (policyKey (getString loc (str "target")) (getString loc (str "location")))
                set
          | _ => rs
      | _ => rs
  | _ => rs

/-- `WAFPlugin.Init`; the databases are opened later. -/
def WAFPlugin.init (limiter : S) (config : Object F) : WAFPlugin F R A N S :=
  let size := getInt64 lib config (str "max_body_size")
  let maxBodySize := if size = 0 then 1048576 else size
  let locs :=
    match config.lookup (str "locations") with
    | some (.list locs) => locs
    | _ => []
  { enabled := getBool config (str "enabled")
    rs := locs.foldl (initLocation lib maxBodySize) ∅
    gs := none
    maxBodySize := maxBodySize
    limiter := limiter }

/-- A location that declares a policy. -/
structure WAFLocation (F : Type) where
  target : Str
  location : Str
  waf : WAFLocationConfig F

/-- An entry of `buildWAFLocations`. -/
def WAFLocation.toMap (l : WAFLocation F) : Object F :=
  [(str "target", .str l.target), (str "location", .str l.location),
    (str "waf", .map (wafLocationToMap lib l.waf))]

/-- `blockConfig`: the status and the text of the block page. -/
def blockConfig (rule : Option (CompiledRule F)) : Int × Str :=
  match rule with
  | none => (403, str "Request blocked by WAF")
  | some rule =>
      (if rule.code ≠ 0 then rule.code else 403,
        if rule.message ≠ [] then rule.message else str "Request blocked by WAF")

/-- `writeBlock`, for a status `WriteHeader` accepts. -/
def writeBlock (w : ResponseWriter) (status : Int) (message : Str) : ResponseWriter :=
  let status := if status = 0 then 403 else status
  let message := if message = [] then str "Request blocked by WAF" else message
  let header := (w.header.set (str "Content-Type") (str "text/plain; charset=utf-8")).set
    (str "X-WAF-Block") (str "true")
  ({ w with header := header }.writeHeader status.toNat).write message |>.2

/-- What `BeforeProxy` leaves behind. -/
structure HookResult (S : Type) where
  /-- Whether the error `errWAFBlocked` is returned. -/
  blocked : Bool
  w : ResponseWriter
  /-- The request, which the handler goes on with if it is not blocked. -/
  r : Request
  limiter : S

/-- `WAFPlugin.BeforeProxy`; `allow` is `Store.Allow`. -/
def WAFPlugin.beforeProxy (p : WAFPlugin F R A N S) (w : ResponseWriter) (r : Request)
    (target location : Str) : HookResult S :=
  if !p.enabled then ⟨false, w, r, p.limiter⟩
  else
    match p.rs.lookup (policyKey target location) with
    | none => ⟨false, w, r, p.limiter⟩
    | some rs =>
        match rs.evaluate lib order r p.gs with
        | ((.allow, _), r) => ⟨false, w, r, p.limiter⟩
        | ((.block, none), r) =>
            let (status, message) := blockConfig (none : Option (CompiledRule F))
            ⟨true, writeBlock w status message, r, p.limiter⟩
        | ((.block, some rule), r) =>
            let (status, message) := blockConfig (some rule)
            if rule.action = .rateLimit then
              let (allowed, limiter) :=
                allow p.limiter (rule.id ++ str "|" ++ clientIP lib r) rule.rps rule.burst
              if allowed then ⟨false, w, r, limiter⟩
              else
                let status := if status = 403 then 429 else status
                let message :=
                  if message = str "Request blocked by WAF" then str "Too Many Requests"
                  else message
                let w := { w with header := w.header.set (str "Retry-After") (str "1") }
                ⟨true, writeBlock w status message, r, limiter⟩
            else ⟨true, writeBlock w status message, r, p.limiter⟩

/-- The rule set `BeforeProxy` evaluates for a location. -/
def WAFPlugin.consulted (p : WAFPlugin F R A N S) (target location : Str) :
    Option (RuleSet F R N) :=
  if p.enabled then p.rs.lookup (policyKey target location) else none

/-- The status `BeforeProxy` passes to `writeBlock`, if it blocks the request. -/
def WAFPlugin.blockStatus (p : WAFPlugin F R A N S) (r : Request) (target location : Str) :
    Option Int :=
  (p.consulted target location).bind fun rs =>
    match rs.evaluate lib order r p.gs with
    | ((.allow, _), _) => none
    | ((.block, none), _) => some (blockConfig (none : Option (CompiledRule F))).1
    | ((.block, some rule), r) =>
        let status := (blockConfig (some rule)).1
        if rule.action = .rateLimit then
          if (allow p.limiter (rule.id ++ str "|" ++ clientIP lib r) rule.rps rule.burst).1 then none
          else some (if status = 403 then 429 else status)
        else some status

theorem WAFPlugin.beforeProxy_r (p : WAFPlugin F R A N S) (w : ResponseWriter) (r : Request)
    (target location : Str) : (p.beforeProxy lib allow order w r target location).r =
      match p.enabled, p.rs.lookup (policyKey target location) with
      | true, some rs => (rs.evaluate lib order r p.gs).2
      | _, _ => r := by
  unfold beforeProxy
  cases p.enabled with
  | false => rfl
  | true =>
    cases p.rs.lookup (policyKey target location) with
    | none => rfl
    | some rs =>
      simp only [Bool.not_true, Bool.false_eq_true, if_false]
      rcases rs.evaluate lib order r p.gs with ⟨⟨_ | _, _ | rule⟩, r'⟩
      · rfl
      · rfl
      · rfl
      · simp only
        split
        · split <;> rfl
        · rfl

end Peretum.Waf
