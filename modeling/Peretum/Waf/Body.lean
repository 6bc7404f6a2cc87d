import Peretum.Waf.Plugin
import Peretum.Waf.Meaning

/-!
# The body of a request that is let through

Evaluating a policy that mentions the parameter `body` reads the request's body, and
nothing puts the bytes back. The handler forwards what is left of the stream. This
file determines for which configurations and requests that is the body the client
sent.
-/

namespace Peretum.Waf

open Go

variable {F R A N S : Type}

/-- The bytes a reader of the request's body gets; these are what the handler forwards. -/
def Request.content (r : Request) : Str := (r.body.map Body.data).getD []

/-- Reading a body up to a limit leaves it as it was only if there is nothing to read
or the limit forbids reading. -/
theorem Body.readLimited_data_iff (b : Body) (limit : Int64) :
    (b.readLimited limit).2.data = b.data ↔ limit ≤ 0 ∨ b.data = [] := by
  unfold readLimited
  split
  · next hlimit => simp [hlimit]
  · next hlimit =>
    have hpos : 0 < limit.toNatClampNeg := by
      rw [Int64.not_le, Int64.lt_iff_toInt_lt, Int64.toInt_zero] at hlimit
      rw [Int64.toNatClampNeg]
      omega
    split
    · next hlength =>
      have hdrop : b.data.drop limit.toNatClampNeg ≠ b.data := by
        intro heq
        have hlen := congrArg List.length heq
        rw [List.length_drop] at hlen
        omega
      have hne : b.data ≠ [] := by
        intro hnil
        rw [hnil, List.length_nil] at hlength
        omega
      simp [hlimit, hdrop, hne]
    · simp [hlimit, eq_comm]

/-- A positive limit has a successor above zero, unless it is the largest integer. -/
theorem add_one_le_zero_iff {limit : Int64} (hpos : 0 < limit) :
    limit + 1 ≤ 0 ↔ limit = Int64.maxValue := by
  rw [Int64.le_iff_toInt_le, Int64.toInt_add, ← Int64.toInt_inj]
  rw [Int64.lt_iff_toInt_lt] at hpos
  have hupper := limit.toInt_lt
  simp only [Int64.toInt_zero, Int64.toInt_one, Int64.toInt_maxValue, Int.bmod] at *
  split <;> omega

variable {ctx start : RequestCtx A} {lib : Library F R A N} {rs : RuleSet F R N}

/-- What is left of a request's body once it was looked up. -/
theorem content_ensureBody_iff (hnew : ctx.bodyDone = false) :
    ctx.ensureBody.2.r.content = ctx.r.content ↔
      ctx.maxBodySize = Int64.maxValue ∨ ctx.r.content = [] := by
  have hlimit : ctx.bodyLimit + 1 ≤ 0 ↔ ctx.maxBodySize = Int64.maxValue := by
    unfold RequestCtx.bodyLimit
    split
    · next hsmall =>
      have hne : ctx.maxBodySize ≠ Int64.maxValue := by
        intro heq
        rw [heq] at hsmall
        exact absurd hsmall (by decide)
      simp [hne]
    · next hlarge => exact add_one_le_zero_iff (Int64.not_le.mp hlarge)
  cases hbody : ctx.r.body with
  | none => simp [RequestCtx.ensureBody, hnew, hbody, Request.content]
  | some stream =>
    have hrest : (stream.inspect ctx.bodyLimit).2.2 =
        (stream.readLimited (ctx.bodyLimit + 1)).2 := by
      unfold Body.inspect
      rcases stream.readLimited (ctx.bodyLimit + 1) with ⟨_ | read, rest⟩
      · rfl
      · simp only
        split <;> rfl
    have hcontent : ctx.ensureBody.2.r.content = (stream.inspect ctx.bodyLimit).2.2.data := by
      simp [RequestCtx.ensureBody, hnew, hbody, Request.content]
    rw [hcontent, hrest, ← hlimit]
    simpa [Request.content, hbody] using stream.readLimited_data_iff (ctx.bodyLimit + 1)

theorem sameBody_foldl (hsame : start.SameBody ctx) {params : List Str}
    (hnotMem : str "body" ∉ params) (hits : List Bool) :
    start.SameBody (params.foldl (rs.inspect lib) (ctx, hits)).1 := by
  induction params generalizing ctx hits with
  | nil => exact hsame
  | cons param params ih =>
    obtain ⟨hne, hrest⟩ : str "body" ≠ param ∧ str "body" ∉ params := by simpa using hnotMem
    rw [List.foldl_cons, RuleSet.inspect]
    cases rs.params.lookup param with
    | none =>
      exact ih hsame hrest hits
    | some idx =>
      exact ih (hsame.get hne.symm _) hrest _

/-- Inspecting parameters changes nothing of the request but its body. -/
theorem agrees_foldl (hagrees : start.Agrees lib ctx) (params : List Str) (hits : List Bool) :
    start.Agrees lib (params.foldl (rs.inspect lib) (ctx, hits)).1 := by
  induction params generalizing ctx hits with
  | nil => exact hagrees
  | cons param params ih =>
    rw [List.foldl_cons, RuleSet.inspect]
    cases rs.params.lookup param with
    | none =>
      exact ih hagrees hits
    | some idx =>
      exact ih (hagrees.get _ _) _

theorem beforeProxy_request (lib : Library F R A N) (allow : S → Str → F → Int → Bool × S)
    (order : KeyOrder) (p : WAFPlugin F R A N S) (w : ResponseWriter) (r : Request)
    (target location : Str) :
    { (p.beforeProxy lib allow order w r target location).r with body := none } =
      { r with body := none } := by
  rw [WAFPlugin.beforeProxy_r]
  split
  · exact (agrees_foldl (RequestCtx.Agrees.refl lib _) _ _).request_eq
  · rfl

theorem body_foldl (hsame : start.SameBody ctx) {params : List Str} (hnodup : params.Nodup)
    (hindexed : ∀ param ∈ params, (rs.params.lookup param).isSome) (hits : List Bool) :
    (params.foldl (rs.inspect lib) (ctx, hits)).1.r.body =
      if str "body" ∈ params then start.ensureBody.2.r.body else start.r.body := by
  split
  · next hmem =>
    induction params generalizing ctx hits with
    | nil => simp at hmem
    | cons param params ih =>
      obtain ⟨hnotMem, hrestNodup⟩ := List.nodup_cons.mp hnodup
      obtain ⟨idx, hidx⟩ := Option.isSome_iff_exists.mp (hindexed param (by simp))
      have hrestIndexed : ∀ param ∈ params, (rs.params.lookup param).isSome :=
        fun param hparam => hindexed param (by simp [hparam])
      rw [List.foldl_cons]
      simp only [RuleSet.inspect, hidx]
      by_cases hparam : param = str "body"
      · subst hparam
        exact (sameBody_foldl (RequestCtx.SameBody.refl _) hnotMem _).stream_eq.trans
          hsame.ensureBody.2.2
      · have hlater : str "body" ∈ params := by
          simpa [Ne.symm hparam] using hmem
        exact ih (hsame.get hparam _) hrestNodup hrestIndexed _ hlater
  · next hnotMem => exact (sameBody_foldl hsame hnotMem hits).stream_eq

theorem content_evaluate_iff (lib : Library F R A N) (order : KeyOrder) (rs : RuleSet F R N)
    (r : Request) (gs : Option (Geodb A)) :
    (rs.evaluate lib order r gs).2.content = r.content ↔
      str "body" ∉ rs.params.keys ∨ r.content = [] ∨ rs.maxBodySize = Int64.maxValue := by
  set ctx := newRequestCtx lib r gs rs.maxBodySize with hctx
  have hperm := order.perm rs.params.keys
  have hbody : (rs.evaluate lib order r gs).2.body =
      if str "body" ∈ order.visit rs.params.keys then ctx.ensureBody.2.r.body else r.body :=
    body_foldl (RequestCtx.SameBody.refl ctx) (hperm.nodup_iff.mpr rs.params.nodupKeys)
      (fun param hparam => AList.lookup_isSome.mpr (AList.mem_keys.mpr (hperm.mem_iff.mp hparam)))
      (List.replicate rs.condCount false)
  simp only [hperm.mem_iff] at hbody
  by_cases hmem : str "body" ∈ rs.params.keys
  · have hcontent : (rs.evaluate lib order r gs).2.content = ctx.ensureBody.2.r.content := by
      simp [Request.content, hbody, hmem]
    have hread : ctx.ensureBody.2.r.content = r.content ↔
        rs.maxBodySize = Int64.maxValue ∨ r.content = [] := content_ensureBody_iff rfl
    rw [hcontent, hread]
    simp [hmem, or_comm]
  · simp [Request.content, hbody, hmem]

/-- The policy of a location: the last one that is on, among those with its key. -/
def governing (locations : List (WAFLocation F)) (target location : Str) :
    Option (WAFLocation F) :=
  (locations.filter fun l =>
    l.waf.enabled && policyKey l.target l.location = policyKey target location).getLast?

/-- The configuration of the plugin for a list of locations. -/
def pluginConfig (lib : Library F R A N) (enabled : Bool) (maxBodySize : Int64)
    (locations : List (WAFLocation F)) : Object F :=
  [(str "enabled", .bool enabled), (str "max_body_size", .int64 maxBodySize),
    (str "locations", .list (locations.map fun l => .map (l.toMap lib)))]

/-- The plugin with this configuration, once the databases are opened. -/
def configured (lib : Library F R A N) (limiter : S) (gs : Option (Geodb A)) (enabled : Bool)
    (maxBodySize : Int64) (locations : List (WAFLocation F)) : WAFPlugin F R A N S :=
  { WAFPlugin.init lib limiter (pluginConfig lib enabled maxBodySize locations) with gs := gs }

theorem buildRuleSet_enabled (lib : Library F R A N) (p : WAFLocationConfig F)
    (maxBodySize : Int64) :
    buildRuleSet lib (wafLocationToMap lib p) maxBodySize =
      .ok (if p.enabled then some (p.named.ruleSet lib maxBodySize) else none) := by
  rw [← buildRuleSet_named, buildRuleSet_wafLocationToMap]
  · rfl
  · exact fun c hc => (mem_conditionsOf_named.mp hc).2

theorem initLocation_toMap (lib : Library F R A N) (maxBodySize : Int64)
    (rs : Map Str (RuleSet F R N)) (l : WAFLocation F) :
    initLocation lib maxBodySize rs (.map (l.toMap lib)) =
      if l.waf.enabled then
        rs.insert (policyKey l.target l.location) (l.waf.named.ruleSet lib maxBodySize)
      else rs := by
  have hwaf : (l.toMap lib).lookup (str "waf") = some (.map (wafLocationToMap lib l.waf)) := rfl
  have htarget : getString (l.toMap lib) (str "target") = l.target := rfl
  have hlocation : getString (l.toMap lib) (str "location") = l.location := rfl
  simp only [initLocation, hwaf, htarget, hlocation, buildRuleSet_enabled]
  cases l.waf.enabled <;> rfl

theorem lookup_initLocation (lib : Library F R A N) (maxBodySize : Int64)
    (locations : List (WAFLocation F)) (target location : Str) :
    ((locations.map fun l => Value.map (l.toMap lib)).foldl (initLocation lib maxBodySize)
        ∅).lookup (policyKey target location) =
      (governing locations target location).map fun l => l.waf.named.ruleSet lib maxBodySize := by
  induction locations using List.reverseRecOn with
  | nil => rfl
  | append_singleton locations l ih =>
    rw [List.map_append, List.foldl_append, List.map_singleton, List.foldl_cons, List.foldl_nil,
      initLocation_toMap]
    unfold governing at ih ⊢
    by_cases hon : l.waf.enabled = true
    · by_cases hkey : policyKey l.target l.location = policyKey target location
      · rw [if_pos hon, hkey, AList.lookup_insert]
        simp [hon, hkey]
      · rw [if_pos hon, AList.lookup_insert_ne (Ne.symm hkey), ih]
        simp [hkey]
    · rw [if_neg hon, ih]
      simp [hon]

theorem body_mem_keys_iff (lib : Library F R A N) (p : WAFLocationConfig F) (maxBodySize : Int64) :
    str "body" ∈ (p.named.ruleSet lib maxBodySize).params.keys ↔
      ∃ c ∈ conditionsOf p.rules, c.param = str "body" := by
  rw [mem_keys_ruleSet]
  refine exists_congr fun c => ?_
  rw [mem_conditionsOf_named, and_assoc]
  refine and_congr_right fun _ => and_iff_right_of_imp fun hparam => ?_
  rw [hparam]
  decide

/-- After the plugin has run, the request still has the body the client sent exactly
if the plugin is off, or no condition of the location's policy is on the body, or the
body is empty, or the limit is the largest integer, whose successor overflows. -/
theorem content_beforeProxy_iff (lib : Library F R A N) (allow : S → Str → F → Int → Bool × S)
    (order : KeyOrder) (limiter : S) (gs : Option (Geodb A)) (enabled : Bool)
    (maxBodySize : Int64) (locations : List (WAFLocation F)) (w : ResponseWriter) (r : Request)
    (target location : Str) :
    ((configured lib limiter gs enabled maxBodySize locations).beforeProxy lib allow order w r
        target location).r.content = r.content ↔
      enabled = false ∨
        (∀ l, governing locations target location = some l →
          ∀ c ∈ conditionsOf l.waf.rules, c.param ≠ str "body") ∨
        r.content = [] ∨ maxBodySize = Int64.maxValue := by
  set limit : Int64 := if maxBodySize = 0 then 1048576 else maxBodySize with hlimit
  have henabled : (configured lib limiter gs enabled maxBodySize locations).enabled = enabled := rfl
  have hgs : (configured lib limiter gs enabled maxBodySize locations).gs = gs := rfl
  have hrs : (configured lib limiter gs enabled maxBodySize locations).rs =
      (locations.map fun l => Value.map (l.toMap lib)).foldl (initLocation lib limit) ∅ := rfl
  have hmax : limit = Int64.maxValue ↔ maxBodySize = Int64.maxValue := by
    rw [hlimit]
    split
    · next hzero =>
      subst hzero
      decide
    · rfl
  rw [WAFPlugin.beforeProxy_r, henabled, hgs, hrs, lookup_initLocation]
  cases enabled with
  | false => simp
  | true =>
    cases governing locations target location with
    | none => simp
    | some l =>
      have hevaluate := content_evaluate_iff lib order (l.waf.named.ruleSet lib limit) r gs
      rw [body_mem_keys_iff, show (l.waf.named.ruleSet lib limit).maxBodySize = limit from rfl,
        hmax] at hevaluate
      simpa using hevaluate

/-- A policy that denies bodies with a certain word. -/
def wordLocation : WAFLocation Int where
  target := str "example.com"
  location := str "/"
  waf := ⟨true, [{
    id := str "no-select"
    name := []
    enabled := none
    action := ⟨str "deny", 0, [], 0, 0⟩
    conditions :=
      [[{ param := str "body", operator := str "contains", value := str "select" }]] }]⟩

def harmlessRequest : Request :=
  { adminRequest "POST" with body := some ⟨str "name=value", false⟩ }

/-- The request is let through, and its body is gone. -/
theorem harmlessRequest_loses_body :
    let h := (configured plainLibrary () none true 0 [wordLocation]).beforeProxy plainLibrary
      (fun s _ _ _ => (true, s)) .asListed .fresh harmlessRequest (str "example.com") (str "/")
    h.blocked = false ∧ harmlessRequest.content = str "name=value" ∧ h.r.content = [] := by
  decide

end Peretum.Waf
