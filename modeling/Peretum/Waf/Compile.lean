import Peretum.Waf.Marks

/-!
# The rule set of a typed policy

For a policy that comes from the typed records, `buildRuleSet` files the conditions
in the order of the text and numbers them from zero. The rules it keeps are those
with a condition, each with the numbers of its conditions.
-/

namespace Peretum.Waf

open Go

variable {F R A N : Type}

/-- The parameters of conditions that a policy may use: `arg` and `header` need a
name besides. -/
def WAFCondition.Plain (c : WAFCondition) : Prop :=
  c.param ≠ [] ∧ c.param ≠ str "arg" ∧ c.param ≠ str "header"

/-- Spelling the operator `in` with a capital letter changes nothing. -/
theorem ParamIndex.file_capital (lib : Library F R A N) (idx : ParamIndex F R N)
    (param name op value : Str) (condID : Nat) :
    idx.file lib param name (if op = str "in" then str "In" else op) value condID =
      idx.file lib param name op value condID := by
  split
  · next hop => subst hop; rfl
  · rfl

/-- One condition filed under its parameter. -/
def fileOne (lib : Library F R A N) (params : Map Str (ParamIndex F R N)) (condID : Nat)
    (c : WAFCondition) : Map Str (ParamIndex F R N) :=
  params.insert c.param
    (((params.lookup c.param).getD .new).file lib c.param c.paramName c.operator c.value condID)

/-- Conditions filed one after the other, numbered from `condID` on. -/
def fileAll (lib : Library F R A N) (params : Map Str (ParamIndex F R N)) :
    Nat → List WAFCondition → Map Str (ParamIndex F R N)
  | _, [] => params
  | condID, c :: conds => fileAll lib (fileOne lib params condID c) (condID + 1) conds

theorem fileAll_append (lib : Library F R A N) (params : Map Str (ParamIndex F R N)) (condID : Nat)
    (conds more : List WAFCondition) :
    fileAll lib params condID (conds ++ more) =
      fileAll lib (fileAll lib params condID conds) (condID + conds.length) more := by
  induction conds generalizing params condID with
  | nil => rfl
  | cons c conds ih =>
    rw [List.cons_append, fileAll, fileAll, ih, List.length_cons, Nat.add_right_comm, Nat.add_assoc]

/-- The groups of a rule with the numbers of their conditions. -/
def numberGroups {α : Type} : Nat → List (List α) → List (List (α × Nat))
  | _, [] => []
  | n, group :: groups => group.zipIdx n :: numberGroups (n + group.length) groups

/-- The groups that have a condition. -/
def filledGroups {α : Type} (groups : List (List α)) : List (List α) := groups.filter (· ≠ [])

/-- A rule of a policy with its numbered conditions. -/
structure NumberedRule (F : Type) where
  rule : WAFRule F
  groups : List (List (WAFCondition × Nat))

/-- The rules of a policy with the numbers of their conditions. -/
def numberRules : Nat → List (WAFRule F) → List (NumberedRule F)
  | _, [] => []
  | n, rule :: rules =>
      ⟨rule, numberGroups n rule.conditions⟩ ::
        numberRules (n + rule.conditions.flatten.length) rules

/-- The groups of a rule that have a condition. -/
def NumberedRule.filled (r : NumberedRule F) : List (List (WAFCondition × Nat)) :=
  filledGroups r.groups

/-- The compiled form of a rule. -/
def NumberedRule.compiled (lib : Library F R A N) (r : NumberedRule F) : CompiledRule F where
  id := r.rule.id
  name := r.rule.name
  enabled := r.rule.enabled.getD true
  action := .ofType lib r.rule.action.type
  code := r.rule.action.code
  message := r.rule.action.message
  rps := if lib.isZero r.rule.action.rps then lib.ofInt 0 else r.rule.action.rps
  burst := r.rule.action.burst
  groups := r.filled.map (·.map Prod.snd)

/-- The conditions of a list of rules in the order of the text. -/
def conditionsOf (rules : List (WAFRule F)) : List WAFCondition :=
  rules.flatMap fun r => r.conditions.flatten

theorem conditionsOf_cons (r : WAFRule F) (rules : List (WAFRule F)) :
    conditionsOf (r :: rules) = r.conditions.flatten ++ conditionsOf rules := by
  simp [conditionsOf]

variable {lib : Library F R A N}

theorem addCondition_conditionToMap {c : WAFCondition} (hparam : c.param ≠ []) (rs : RuleSet F R N)
    (group : List Nat) :
    addCondition lib (rs, group) (.map (conditionToMap c)) =
      ({ rs with
          params := fileOne lib rs.params rs.condCount c, condCount := rs.condCount + 1 },
        group ++ [rs.condCount]) := by
  have hname : getString (conditionToMap c : Object F) (str "param_name") = c.paramName := by
    simp only [getString, conditionToMap, List.lookup_append, lookup_entry, lookup_entryIf, str_inj]
    by_cases hempty : c.paramName = [] <;> simp [hempty]
  have hp : getString (conditionToMap c : Object F) (str "param") = c.param := rfl
  have hop : getString (conditionToMap c : Object F) (str "operator") = c.operator := rfl
  have hvalue : getString (conditionToMap c : Object F) (str "value") = c.value := rfl
  simp only [addCondition, hp, hop, hvalue, hname, if_neg hparam, fileOne, ParamIndex.file_capital]
  rfl

theorem foldl_addCondition {group : List WAFCondition} (hparams : ∀ c ∈ group, c.param ≠ [])
    (rs : RuleSet F R N) (acc : List Nat) :
    (group.map fun c => Value.map (conditionToMap c)).foldl (addCondition lib) (rs, acc) =
      ({ rs with
          params := fileAll lib rs.params rs.condCount group
          condCount := rs.condCount + group.length },
        acc ++ (group.zipIdx rs.condCount).map Prod.snd) := by
  induction group generalizing rs acc with
  | nil => simp [fileAll]
  | cons c group ih =>
    rw [List.map_cons, List.foldl_cons, addCondition_conditionToMap (hparams c (by simp)),
      ih fun c hc => hparams c (by simp [hc])]
    simp [fileAll, Nat.add_assoc, Nat.add_comm 1]

theorem foldl_addGroup {groups : List (List WAFCondition)}
    (hparams : ∀ g ∈ groups, ∀ c ∈ g, c.param ≠ []) (rs : RuleSet F R N) (acc : List (List Nat)) :
    (groups.map fun g => Value.list (g.map fun c => Value.map (conditionToMap c))).foldl
        (addGroup lib) (rs, acc) =
      ({ rs with
          params := fileAll lib rs.params rs.condCount groups.flatten
          condCount := rs.condCount + groups.flatten.length },
        acc ++ (filledGroups (numberGroups rs.condCount groups)).map (·.map Prod.snd)) := by
  induction groups generalizing rs acc with
  | nil => simp [fileAll, numberGroups, filledGroups]
  | cons group groups ih =>
    rw [List.map_cons, List.foldl_cons, addGroup, foldl_addCondition (hparams group (by simp)),
      ih fun g hg => hparams g (by simp [hg])]
    simp only [List.flatten_cons, fileAll_append, List.length_append, Nat.add_assoc, numberGroups,
      List.nil_append]
    cases group with
    | nil | cons c group => simp [filledGroups]

/-- The getters read an action's record back from its map. -/
theorem actionToMap_get (lib : Library F R A N) (a : WAFRuleAction F) :
    getString (actionToMap lib a) (str "type") = a.type ∧
      getInt lib (actionToMap lib a) (str "code") = a.code ∧
      getString (actionToMap lib a) (str "message") = a.message ∧
      getFloat lib (actionToMap lib a) (str "rps") =
        (if lib.isZero a.rps then lib.ofInt 0 else a.rps) ∧
      getFloat lib (actionToMap lib a) (str "requests_per_second") = lib.ofInt 0 ∧
      getInt lib (actionToMap lib a) (str "burst") = a.burst := by
  simp only [getString, getInt, getFloat, actionToMap, List.lookup_append, lookup_entryIf, str_inj]
  refine ⟨?_, ?_, ?_, ?_, ?_, ?_⟩
  · by_cases hzero : a.type = [] <;> simp [hzero]
  · by_cases hzero : a.code = 0 <;> simp [hzero]
  · by_cases hzero : a.message = [] <;> simp [hzero]
  · cases hzero : lib.isZero a.rps <;> simp
  · simp
  · by_cases hzero : a.burst = 0 <;> simp [hzero]

/-- Compiling a rule reads back its record; an action that sets nothing denies. -/
theorem compileAction_ruleToMap (lib : Library F R A N) (r : WAFRule F)
    (groups : List (List (WAFCondition × Nat))) :
    { compileAction lib (ruleToMap lib r) with
      groups := (NumberedRule.filled ⟨r, groups⟩).map (·.map Prod.snd) } =
      NumberedRule.compiled lib ⟨r, groups⟩ := by
  have haction : (ruleToMap lib r).lookup (str "action") =
      if r.action.isSet lib then some (.map (actionToMap lib r.action)) else none := by
    simp [ruleToMap, List.lookup_append, lookup_entry, lookup_entryIf, str_inj]
  have henabled : (ruleToMap lib r).lookup (str "enabled") = r.enabled.map Value.bool := by
    cases henabled : r.enabled <;>
      simp [ruleToMap, List.lookup_append, lookup_entry, lookup_entryIf, str_inj, henabled]
  have hname : getString (ruleToMap lib r) (str "name") = r.name := by
    by_cases hempty : r.name = [] <;>
      simp [getString, ruleToMap, List.lookup_append, lookup_entry, lookup_entryIf, str_inj, hempty]
  have hid : getString (ruleToMap lib r) (str "id") = r.id := rfl
  obtain ⟨htype, hcode, hmessage, hrps, hper, hburst⟩ := actionToMap_get lib r.action
  unfold compileAction NumberedRule.compiled
  simp only [haction, henabled, hname, hid]
  cases hset : r.action.isSet lib with
  | true =>
    simp only [if_true, htype, hcode, hmessage, hrps, hper, hburst]
    cases r.enabled <;> cases hzero : lib.isZero r.action.rps <;> simp [hzero]
  | false =>
    have hnone : r.action.type = [] ∧ r.action.code = 0 ∧ r.action.message = [] ∧
        lib.isZero r.action.rps = true ∧ r.action.burst = 0 := by
      simpa [WAFRuleAction.isSet, and_assoc] using hset
    obtain ⟨htype, hcode, hmessage, hzero, hburst⟩ := hnone
    cases r.enabled <;> simp [htype, hcode, hmessage, hzero, hburst, Action.ofType]

theorem lookup_conditions (lib : Library F R A N) (r : WAFRule F) :
    (ruleToMap lib r).lookup (str "conditions") =
      some (.list (r.conditions.map fun g =>
        .list (g.map fun c => Value.map (conditionToMap c)))) := by
  simp [ruleToMap, List.lookup_append, lookup_entry, lookup_entryIf, str_inj]

theorem addRule_ruleToMap {r : WAFRule F} (hparams : ∀ c ∈ r.conditions.flatten, c.param ≠ [])
    (rs : RuleSet F R N) :
    addRule lib rs (.map (ruleToMap lib r)) =
      { rs with
        params := fileAll lib rs.params rs.condCount r.conditions.flatten
        rules := rs.rules ++
          (([⟨r, numberGroups rs.condCount r.conditions⟩] : List (NumberedRule F)).filter
            (·.filled ≠ [])).map (·.compiled lib)
        condCount := rs.condCount + r.conditions.flatten.length } := by
  have hgroups : ∀ g ∈ r.conditions, ∀ c ∈ g, c.param ≠ [] := fun g hg c hc =>
    hparams c (List.mem_flatten.mpr ⟨g, hg, hc⟩)
  have hcompiled := compileAction_ruleToMap lib r (numberGroups rs.condCount r.conditions)
  simp only [NumberedRule.filled] at hcompiled
  simp only [addRule, lookup_conditions, foldl_addGroup hgroups, List.nil_append, hcompiled]
  by_cases hfilled : filledGroups (numberGroups rs.condCount r.conditions) = []
  · simp [NumberedRule.filled, hfilled]
  · simp [NumberedRule.filled, hfilled]

theorem foldl_addRule {rules : List (WAFRule F)} (hparams : ∀ c ∈ conditionsOf rules, c.param ≠ [])
    (rs : RuleSet F R N) :
    (rules.map fun r => Value.map (ruleToMap lib r)).foldl (addRule lib) rs =
      { rs with
        params := fileAll lib rs.params rs.condCount (conditionsOf rules)
        rules := rs.rules ++
          ((numberRules rs.condCount rules).filter (·.filled ≠ [])).map (·.compiled lib)
        condCount := rs.condCount + (conditionsOf rules).length } := by
  induction rules generalizing rs with
  | nil => simp [fileAll, numberRules, conditionsOf]
  | cons r rules ih =>
    rw [conditionsOf_cons] at hparams ⊢
    rw [List.map_cons, List.foldl_cons,
      addRule_ruleToMap fun c hc => hparams c (List.mem_append_left _ hc),
      ih fun c hc => hparams c (List.mem_append_right _ hc)]
    simp only [fileAll_append, numberRules, List.length_append, Nat.add_assoc, List.append_assoc,
      ← List.map_append, ← List.filter_append, List.singleton_append]

/-- A rule without the conditions that name no parameter. -/
def WAFRule.named (r : WAFRule F) : WAFRule F :=
  { r with conditions := r.conditions.map (·.filter (·.param ≠ [])) }

/-- A policy without the conditions that name no parameter. -/
def WAFLocationConfig.named (p : WAFLocationConfig F) : WAFLocationConfig F :=
  { p with rules := p.rules.map WAFRule.named }

theorem mem_conditionsOf_named {p : WAFLocationConfig F} {c : WAFCondition} :
    c ∈ conditionsOf p.named.rules ↔ c ∈ conditionsOf p.rules ∧ c.param ≠ [] := by
  have hflatten : ∀ r : WAFRule F, r.named.conditions.flatten =
      r.conditions.flatten.filter (·.param ≠ []) := fun r => List.filter_flatten.symm
  simp only [conditionsOf, WAFLocationConfig.named, List.flatMap_map, hflatten, List.mem_flatMap,
    List.mem_filter, decide_eq_true_eq]
  constructor
  · rintro ⟨r, hr, hc, hparam⟩
    exact ⟨⟨r, hr, hc⟩, hparam⟩
  · rintro ⟨⟨r, hr, hc⟩, hparam⟩
    exact ⟨r, hr, hc, hparam⟩

theorem foldl_addCondition_named (lib : Library F R A N) (group : List WAFCondition)
    (acc : RuleSet F R N × List Nat) :
    ((group.filter (·.param ≠ [])).map fun c => Value.map (conditionToMap c)).foldl
        (addCondition lib) acc =
      (group.map fun c => Value.map (conditionToMap c)).foldl (addCondition lib) acc := by
  induction group generalizing acc with
  | nil => rfl
  | cons c group ih =>
    by_cases hparam : c.param = []
    · have hskip : addCondition lib acc (.map (conditionToMap c)) = acc := by
        have hp : getString (conditionToMap c : Object F) (str "param") = c.param := rfl
        simp only [addCondition, hp, hparam, if_true]
      rw [List.filter_cons_of_neg (by simpa using hparam), List.map_cons, List.foldl_cons, hskip,
        ih]
    · rw [List.filter_cons_of_pos (by simpa using hparam), List.map_cons, List.map_cons,
        List.foldl_cons, List.foldl_cons, ih]

/-- Compiling a rule skips the conditions that name no parameter. -/
theorem addRule_named (lib : Library F R A N) (rs : RuleSet F R N) (r : WAFRule F) :
    addRule lib rs (.map (ruleToMap lib r.named)) = addRule lib rs (.map (ruleToMap lib r)) := by
  have hlookup : ∀ key, key ≠ str "conditions" →
      (ruleToMap lib r.named).lookup key = (ruleToMap lib r).lookup key := by
    intro key hkey
    simp only [ruleToMap, WAFRule.named, List.lookup_append, lookup_entry, if_neg hkey]
    rfl
  have hcompile : compileAction lib (ruleToMap lib r.named) =
      compileAction lib (ruleToMap lib r) := by
    simp only [compileAction, getString, hlookup, ne_eq, str_inj, String.reduceEq,
      not_false_eq_true]
  have hgroup : ∀ (acc : RuleSet F R N × List (List Nat)) (g : List WAFCondition),
      addGroup lib acc (.list ((g.filter (·.param ≠ [])).map fun c => .map (conditionToMap c))) =
        addGroup lib acc (.list (g.map fun c => .map (conditionToMap c))) := by
    intro acc g
    simp only [addGroup, foldl_addCondition_named]
  simp only [addRule, lookup_conditions, hcompile]
  simp only [WAFRule.named, List.map_map, List.foldl_map, Function.comp_apply, hgroup]

/-- The rule set of a policy that is on. -/
def WAFLocationConfig.ruleSet (lib : Library F R A N) (p : WAFLocationConfig F)
    (maxBodySize : Int64) : RuleSet F R N :=
  finalizeIndexes
    { params := fileAll lib ∅ 0 (conditionsOf p.rules)
      rules := ((numberRules 0 p.rules).filter (·.filled ≠ [])).map (·.compiled lib)
      condCount := (conditionsOf p.rules).length
      maxBodySize := maxBodySize }

theorem lookup_rules (lib : Library F R A N) (p : WAFLocationConfig F) :
    (wafLocationToMap lib p).lookup (str "rules") =
      if p.rules = [] then none
      else some (.list (p.rules.map fun r => .map (ruleToMap lib r))) := by
  by_cases hempty : p.rules = [] <;>
    simp [wafLocationToMap, lookup_entry, lookup_entryIf, str_inj, hempty]

/-- Compiling a typed policy never fails. -/
theorem buildRuleSet_wafLocationToMap {p : WAFLocationConfig F}
    (hparams : ∀ c ∈ conditionsOf p.rules, c.param ≠ []) (maxBodySize : Int64) :
    buildRuleSet lib (wafLocationToMap lib p) maxBodySize =
      .ok (if p.enabled then some (p.ruleSet lib maxBodySize) else none) := by
  have henabled : getBool (wafLocationToMap lib p) (str "enabled") = p.enabled := rfl
  unfold buildRuleSet
  rw [henabled, lookup_rules]
  cases p.enabled with
  | false => rfl
  | true =>
    by_cases hempty : p.rules = []
    · simp only [hempty, if_true, WAFLocationConfig.ruleSet]
      rfl
    · simp only [hempty, if_true, if_false, foldl_addRule hparams, WAFLocationConfig.ruleSet,
        Nat.zero_add, List.nil_append]

/-- Compiling a policy skips the conditions that name no parameter. -/
theorem buildRuleSet_named (lib : Library F R A N) (p : WAFLocationConfig F)
    (maxBodySize : Int64) :
    buildRuleSet lib (wafLocationToMap lib p.named) maxBodySize =
      buildRuleSet lib (wafLocationToMap lib p) maxBodySize := by
  have henabled : ∀ p : WAFLocationConfig F,
      getBool (wafLocationToMap lib p) (str "enabled") = p.enabled := fun _ => rfl
  unfold buildRuleSet
  simp only [henabled, lookup_rules]
  by_cases hempty : p.rules = []
  · simp [WAFLocationConfig.named, hempty]
  · simp only [WAFLocationConfig.named, List.map_eq_nil_iff, hempty, if_false, List.map_map,
      List.foldl_map, Function.comp_apply, addRule_named]

end Peretum.Waf
