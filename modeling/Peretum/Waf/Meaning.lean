import Peretum.Waf.Index

/-!
# Compilation and the meaning of a policy

The direct reading of a policy evaluates every condition on its own: a group asks
for all of its conditions, a rule for one of its groups, and the first rule that is
on, matches and has a deciding action decides. Compilation keeps this meaning except
for `equals` conditions that a later one with the same parameter and operand
shadows, and for groups without conditions. The main theorem says exactly for which
policies and requests the two agree.
-/

namespace Peretum.Waf

open Go

variable {F R A N : Type}

/-- The direct reading of a rule's conditions. -/
def WAFRule.holds (lib : Library F R A N) (observed : Str → Str × Bool) (r : WAFRule F) : Bool :=
  r.conditions.any fun group =>
    group.all fun c => c.satisfied lib (observed c.param).1 (observed c.param).2

/-- The direct reading of a rule. -/
def WAFRule.verdict (lib : Library F R A N) (observed : Str → Str × Bool) (r : WAFRule F) :
    Option RuleSetAction :=
  if r.enabled.getD true && r.holds lib observed then (Action.ofType lib r.action.type).verdict
  else none

/-- The direct reading of a list of rules; the numbers tell equal rules apart. -/
def readRules (lib : Library F R A N) (observed : Str → Str × Bool) :
    List (NumberedRule F) → RuleSetAction × Option (NumberedRule F)
  | [] => (.allow, none)
  | r :: rules =>
      match r.rule.verdict lib observed with
      | some action => (action, some r)
      | none => readRules lib observed rules

/-- The direct reading of a policy: the verdict and the rule that decides. -/
def WAFLocationConfig.reading (lib : Library F R A N) (p : WAFLocationConfig F)
    (observed : Str → Str × Bool) : RuleSetAction × Option (NumberedRule F) :=
  if p.enabled then readRules lib observed (numberRules 0 p.rules) else (.allow, none)

/-- The decision of the compiled policy; without a rule set the request passes. -/
def WAFLocationConfig.decision (lib : Library F R A N) (order : KeyOrder)
    (p : WAFLocationConfig F) (maxBodySize : Int64) (r : Request) (gs : Option (Geodb A)) :
    RuleSetAction × Option (CompiledRule F) :=
  match buildRuleSet lib (wafLocationToMap lib p) maxBodySize with
  | .ok (some rs) => (rs.evaluate lib order r gs).1
  | _ => (.allow, none)

/-- A rule is still seen to match after compilation: a group with conditions is
satisfied and none of its conditions is shadowed. -/
def NumberedRule.Survives (lib : Library F R A N) (conds : List WAFCondition)
    (observed : Str → Str × Bool) (r : NumberedRule F) : Prop :=
  ∃ group ∈ r.groups, group ≠ [] ∧ ∀ e ∈ group,
    e.1.satisfied lib (observed e.1.param).1 (observed e.1.param).2 = true ∧
      ¬ Shadowed lib conds e.1 e.2

instance (lib : Library F R A N) (conds : List WAFCondition) (observed : Str → Str × Bool)
    (r : NumberedRule F) : Decidable (r.Survives lib conds observed) :=
  inferInstanceAs (Decidable (∃ group ∈ r.groups, group ≠ [] ∧ ∀ e ∈ group, _ ∧ _))

theorem flatten_numberGroups {α : Type} (n : Nat) (groups : List (List α)) :
    (numberGroups n groups).flatten = groups.flatten.zipIdx n := by
  induction groups generalizing n with
  | nil => rfl
  | cons group groups ih =>
    rw [numberGroups, List.flatten_cons, List.flatten_cons, List.zipIdx_append, ih, Nat.add_comm]

theorem map_fst_numberGroups {α : Type} (n : Nat) (groups : List (List α)) :
    (numberGroups n groups).map (·.map Prod.fst) = groups := by
  induction groups generalizing n with
  | nil => rfl
  | cons group groups ih => rw [numberGroups, List.map_cons, ih, List.zipIdx_map_fst]

variable {n : Nat} {rules : List (WAFRule F)} {r : NumberedRule F} {lib : Library F R A N}
  {hits : List Bool} {action : RuleSetAction} {observed : Str → Str × Bool}
  {p : WAFLocationConfig F}

theorem groups_of_mem_numberRules (hr : r ∈ numberRules n rules) :
    r.groups.map (·.map Prod.fst) = r.rule.conditions := by
  induction rules generalizing n with
  | nil => simp [numberRules] at hr
  | cons rule rules ih =>
    rcases List.mem_cons.mp hr with rfl | hr
    · exact map_fst_numberGroups _ _
    · exact ih hr

theorem getElem?_of_mem_numberRules {rules : List (WAFRule F)} {r : NumberedRule F}
    (hr : r ∈ numberRules 0 rules) {group : List (WAFCondition × Nat)} (hgroup : group ∈ r.groups)
    {e : WAFCondition × Nat} (he : e ∈ group) : (conditionsOf rules)[e.2]? = some e.1 := by
  have hall : ∀ n, (numberRules n rules).flatMap (·.groups.flatten) =
      (conditionsOf rules).zipIdx n := by
    clear hr
    induction rules with
    | nil => intro n; rfl
    | cons rule rules ih =>
      intro n
      rw [numberRules, List.flatMap_cons, ih, flatten_numberGroups, conditionsOf_cons,
        List.zipIdx_append, Nat.add_comm]
  have hmem : e ∈ (conditionsOf rules).zipIdx := by
    rw [← hall 0]
    exact List.mem_flatMap.mpr ⟨r, hr, List.mem_flatten.mpr ⟨group, hgroup, he⟩⟩
  exact List.mem_zipIdx_iff_getElem?.mp hmem

theorem ruleMatches_compiled :
    ruleMatches (r.compiled lib) hits = true ↔
      ∃ group ∈ r.groups, group ≠ [] ∧ ∀ e ∈ group, Hit hits e.2 := by
  have hmark : ∀ n : Nat, hits[n]?.getD false = true ↔ Hit hits n := by
    intro n
    unfold Hit
    cases hits[n]? <;> simp
  simp [ruleMatches, NumberedRule.compiled, NumberedRule.filled, filledGroups, hmark]

theorem verdict_of_decideRules {rules : List (CompiledRule F)} {rule : CompiledRule F}
    (hdecides : decideRules rules hits = (action, some rule)) :
    rule.verdict hits = some action := by
  induction rules with
  | nil => simp [decideRules] at hdecides
  | cons first rules ih =>
    rw [decideRules] at hdecides
    cases hfirst : first.verdict hits with
    | none => exact ih (by simpa [hfirst] using hdecides)
    | some a =>
      simp only [hfirst, Prod.mk.injEq, Option.some.injEq] at hdecides
      obtain ⟨rfl, rfl⟩ := hdecides
      exact hfirst

theorem decideRules_filter (lib : Library F R A N) (rules : List (NumberedRule F))
    (hits : List Bool) :
    decideRules ((rules.filter (·.filled ≠ [])).map (·.compiled lib)) hits =
      decideRules (rules.map (·.compiled lib)) hits := by
  induction rules with
  | nil => rfl
  | cons r rules ih =>
    by_cases hfilled : r.filled = []
    · have hverdict : (r.compiled lib).verdict hits = none := by
        simp [CompiledRule.verdict, ruleMatches, NumberedRule.compiled, hfilled]
      rw [List.filter_cons_of_neg (by simpa using hfilled), ih, List.map_cons, decideRules,
        hverdict]
    · rw [List.filter_cons_of_pos (by simpa using hfilled), List.map_cons, List.map_cons,
        decideRules, decideRules, ih]

/-- If a compiled rule decides nothing but what its direct reading decides, then the
two readings of a list agree exactly if the first rule to decide directly also
decides when compiled. -/
theorem decideRules_eq_readRules_iff {rules : List (NumberedRule F)}
    (hsound : ∀ r ∈ rules, ∀ action, (r.compiled lib).verdict hits = some action →
      r.rule.verdict lib observed = some action) :
    decideRules (rules.map (·.compiled lib)) hits =
        ((readRules lib observed rules).1, (readRules lib observed rules).2.map (·.compiled lib)) ↔
      ∀ r, (readRules lib observed rules).2 = some r → (r.compiled lib).verdict hits ≠ none := by
  induction rules with
  | nil => simp [decideRules, readRules]
  | cons r rules ih =>
    have hrest := ih fun r hr => hsound r (List.mem_cons_of_mem _ hr)
    have hfirst := hsound r List.mem_cons_self
    rw [List.map_cons, decideRules, readRules]
    cases hdirect : r.rule.verdict lib observed with
    | none =>
      have hcompiled : (r.compiled lib).verdict hits = none := by
        by_contra hsome
        obtain ⟨action, haction⟩ := Option.ne_none_iff_exists'.mp hsome
        simp [hfirst action haction] at hdirect
      simpa only [hcompiled] using hrest
    | some action =>
      cases hcompiled : (r.compiled lib).verdict hits with
      | some action' =>
        have heq : some action = some action' := hdirect.symm.trans (hfirst action' hcompiled)
        simp [hcompiled, Option.some.inj heq]
      | none =>
        -- a later rule that decides is another rule than this one
        simp only [Option.map_some, Option.some.injEq, forall_eq', hcompiled, ne_eq,
          not_true_eq_false, iff_false]
        intro hdecides
        have hverdict := verdict_of_decideRules hdecides
        simp [hcompiled] at hverdict

/-- The conditions of a policy are on parameters that need no name. -/
def WAFLocationConfig.Plain (p : WAFLocationConfig F) : Prop :=
  ∀ c ∈ conditionsOf p.rules, c.Plain

theorem verdict_compiled (hfind : lib.FindsAll) (hplain : p.Plain) (order : KeyOrder)
    (maxBodySize : Int64) (ctx : RequestCtx A) (hr : r ∈ numberRules 0 p.rules) :
    (r.compiled lib).verdict ((p.ruleSet lib maxBodySize).inspectAll lib order ctx).2 =
      if r.rule.enabled.getD true = true ∧
          r.Survives lib (conditionsOf p.rules) (observe lib ctx) then
        (Action.ofType lib r.rule.action.type).verdict
      else none := by
  have hmatches : ruleMatches (r.compiled lib)
      ((p.ruleSet lib maxBodySize).inspectAll lib order ctx).2 = true ↔
        r.Survives lib (conditionsOf p.rules) (observe lib ctx) := by
    rw [ruleMatches_compiled]
    refine exists_congr fun group => and_congr_right fun hgroup => and_congr_right fun _ => ?_
    refine forall₂_congr fun e he => ?_
    exact hit_inspectAll hfind hplain order maxBodySize ctx
      (getElem?_of_mem_numberRules hr hgroup he)
  unfold CompiledRule.verdict
  simp only [Bool.and_eq_true, hmatches]
  rfl

theorem NumberedRule.Survives.holds {conds : List WAFCondition} (hr : r ∈ numberRules n rules)
    (hsurvives : r.Survives lib conds observed) : r.rule.holds lib observed = true := by
  obtain ⟨group, hgroup, -, hall⟩ := hsurvives
  unfold WAFRule.holds
  rw [← groups_of_mem_numberRules hr, List.any_map, List.any_eq_true]
  refine ⟨group, hgroup, ?_⟩
  simp only [Function.comp_apply, List.all_map, List.all_eq_true]
  exact fun e he => (hall e he).1

/-- A compiled rule decides nothing but what its direct reading decides. -/
theorem verdict_of_compiled (hfind : lib.FindsAll) (hplain : p.Plain) (order : KeyOrder)
    (maxBodySize : Int64) (ctx : RequestCtx A) (hr : r ∈ numberRules 0 p.rules)
    (haction : (r.compiled lib).verdict
      ((p.ruleSet lib maxBodySize).inspectAll lib order ctx).2 = some action) :
    r.rule.verdict lib (observe lib ctx) = some action := by
  rw [verdict_compiled hfind hplain order maxBodySize ctx hr] at haction
  split at haction
  · next hon => simpa [WAFRule.verdict, hon.1, hon.2.holds hr] using haction
  · cases haction

/-- A rule that decides by its direct reading also decides when compiled, exactly if it
survives compilation. -/
theorem verdict_compiled_ne_none_iff (hfind : lib.FindsAll) (hplain : p.Plain) (order : KeyOrder)
    (maxBodySize : Int64) (ctx : RequestCtx A) (hr : r ∈ numberRules 0 p.rules)
    (hverdict : r.rule.verdict lib (observe lib ctx) ≠ none) :
    (r.compiled lib).verdict ((p.ruleSet lib maxBodySize).inspectAll lib order ctx).2 ≠ none ↔
      r.Survives lib (conditionsOf p.rules) (observe lib ctx) := by
  rw [verdict_compiled hfind hplain order maxBodySize ctx hr]
  unfold WAFRule.verdict at hverdict
  split at hverdict
  · next hon =>
    simp only [Bool.and_eq_true] at hon
    simp [hon.1, hverdict]
  · exact absurd rfl hverdict

/-- The rule the direct reading decides by is one of the policy, is on, and has an
action that decides. -/
theorem of_readRules {rules : List (NumberedRule F)}
    (hdecides : (readRules lib observed rules).2 = some r) :
    r ∈ rules ∧ r.rule.verdict lib observed ≠ none := by
  induction rules with
  | nil => simp [readRules] at hdecides
  | cons first rules ih =>
    rw [readRules] at hdecides
    cases hfirst : first.rule.verdict lib observed with
    | none =>
      obtain ⟨hmem, hverdict⟩ := ih (by simpa [hfirst] using hdecides)
      exact ⟨List.mem_cons_of_mem _ hmem, hverdict⟩
    | some action =>
      obtain rfl : first = r := by simpa [hfirst] using hdecides
      exact ⟨List.mem_cons_self, by simp [hfirst]⟩

/-- The compiled policy decides as the policy reads, with the same rule, exactly if
the rule that decides by the direct reading survives compilation. -/
theorem decision_eq_reading_iff {lib : Library F R A N} (hfind : lib.FindsAll)
    {p : WAFLocationConfig F} (hplain : p.Plain) (order : KeyOrder) (maxBodySize : Int64)
    (r : Request) (gs : Option (Geodb A)) :
    p.decision lib order maxBodySize r gs =
        ((p.reading lib (observe lib (newRequestCtx lib r gs maxBodySize))).1,
          (p.reading lib (observe lib (newRequestCtx lib r gs maxBodySize))).2.map
            (·.compiled lib)) ↔
      ∀ rule, (p.reading lib (observe lib (newRequestCtx lib r gs maxBodySize))).2 = some rule →
        rule.Survives lib (conditionsOf p.rules)
          (observe lib (newRequestCtx lib r gs maxBodySize)) := by
  unfold WAFLocationConfig.decision WAFLocationConfig.reading
  rw [buildRuleSet_wafLocationToMap fun c hc => (hplain c hc).1]
  cases p.enabled with
  | false => simp
  | true =>
    simp only [if_true]
    set ctx := newRequestCtx lib r gs maxBodySize with hctx
    set hits := ((p.ruleSet lib maxBodySize).inspectAll lib order ctx).2 with hhits
    have hdecision : ((p.ruleSet lib maxBodySize).evaluate lib order r gs).1 =
        decideRules ((numberRules 0 p.rules).map (·.compiled lib)) hits := by
      rw [← decideRules_filter]
      rfl
    rw [hdecision, decideRules_eq_readRules_iff fun r hr action =>
      verdict_of_compiled hfind hplain order maxBodySize ctx hr]
    refine forall₂_congr fun rule hrule => ?_
    obtain ⟨hmem, hverdict⟩ := of_readRules hrule
    exact verdict_compiled_ne_none_iff hfind hplain order maxBodySize ctx hmem hverdict

/-- A library for examples: patterns are plain texts, addresses are written with digits
and dots, networks are single addresses, and no text is a number. -/
def plainLibrary : Library Int Str Str Str where
  ofInt n := n
  toInt n := n
  isZero n := n == 0
  lt m n := m < n
  parseFloat _ := none
  compile := some
  matchString re s := contains s re
  parseIP s := if s ≠ [] ∧ s.all (fun b => b = 0x2E ∨ (0x30 ≤ b ∧ b ≤ 0x39)) then some s else none
  to4 _ := true
  hostNet ip _ := ip
  parseCIDR _ := none
  contains n ip := n == ip
  unicode s := s
  splitHostPort s := some (s.takeWhile (· ≠ 0x3A))
  queryGet _ _ := []
  findAllOverlapping := searchAll

theorem findsAll_plainLibrary : plainLibrary.FindsAll :=
  fun _ text hpatterns m => mem_searchAll hpatterns text m

/-- A rule that denies one method on one path. -/
def denyRule (id method path : String) : WAFRule Int where
  id := str id
  name := []
  enabled := none
  action := ⟨str "deny", 0, [], 0, 0⟩
  conditions :=
    [[{ param := str "path", operator := str "equals", value := str path },
      { param := str "method", operator := str "equals", value := str method }]]

/-- Two rules about one path. -/
def adminPolicy : WAFLocationConfig Int :=
  ⟨true, [denyRule "no-post" "POST" "/admin", denyRule "no-put" "PUT" "/admin"]⟩

/-- A request for the path with a method. -/
def adminRequest (method : String) : Request where
  method := str method
  host := str "example.com"
  remoteAddr := str "192.0.2.1:4711"
  header := ∅
  requestURI := str "/admin"
  path := str "/admin"
  rawQuery := []
  body := none

/-- The conditions of the two rules are on parameters that need no name. -/
theorem plain_adminPolicy : adminPolicy.Plain := by
  unfold WAFLocationConfig.Plain WAFCondition.Plain
  decide

/-- The second rule is still applied after compilation. -/
theorem adminPolicy_put_decision :
    adminPolicy.decision plainLibrary .asListed 1048576 (adminRequest "PUT") none =
      (.block, (numberRules 0 adminPolicy.rules)[1]?.map (·.compiled plainLibrary)) := by
  have hreading : adminPolicy.reading plainLibrary
      (observe plainLibrary (newRequestCtx plainLibrary (adminRequest "PUT") none 1048576)) =
      (.block, (numberRules 0 adminPolicy.rules)[1]?) := by
    rfl
  have hiff := decision_eq_reading_iff findsAll_plainLibrary plain_adminPolicy .asListed 1048576
    (adminRequest "PUT") none
  rw [hreading] at hiff
  apply hiff.mpr
  intro rule hrule
  cases hrule
  decide

/-- The first rule is not: a request it denies by its text is let through, because
the path of the second rule has taken the place of its own. -/
theorem adminPolicy_post_passes :
    plainLibrary.FindsAll ∧ adminPolicy.Plain ∧
      adminPolicy.decision plainLibrary .asListed 1048576 (adminRequest "POST") none =
        (.allow, none) ∧
      adminPolicy.reading plainLibrary
          (observe plainLibrary (newRequestCtx plainLibrary (adminRequest "POST") none 1048576)) =
        (.block, (numberRules 0 adminPolicy.rules)[0]?) :=
  ⟨findsAll_plainLibrary, plain_adminPolicy, by decide, rfl⟩

end Peretum.Waf
