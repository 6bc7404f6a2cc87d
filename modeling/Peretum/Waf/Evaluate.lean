import Peretum.Waf.RuleSet

/-!
# Evaluating a compiled policy

For every indexed parameter `evaluate` fetches the value once and marks the numbers
of the conditions it satisfies; then it takes the first rule with a fully marked
group and an action that decides. The order in which it visits the parameters is
the order of a range loop over a map, so it is a parameter here.
-/

namespace Peretum.Waf

open Go

variable {F R A N : Type}

/-- The order in which range loops visit maps, by their keys. -/
structure KeyOrder where
  visit : List Str → List Str
  perm : ∀ keys, (visit keys).Perm keys

/-- The order of the keys themselves. -/
def KeyOrder.asListed : KeyOrder := ⟨fun keys => keys, fun _ => .refl _⟩

variable (lib : Library F R A N)

/-- `ahoMatcher.match`: the conditions of the patterns found, each pattern once. -/
def AhoMatcher.matchText (m : AhoMatcher) (text : Str) : List Nat :=
  if text = [] then []
  else
    ((lib.findAllOverlapping m.patterns text).foldl
      (fun (acc : List Nat × List Nat) found =>
        if found.patternID ∈ acc.1 then acc
        else (found.patternID :: acc.1, acc.2 ++ m.condMap.getD found.patternID []))
      ([], [])).2

/-- The loops of `applyIndex`: mark the conditions whose entries pass a test. -/
def markIf {α : Type} (test : α → Bool) (condID : α → Nat) (entries : List α)
    (hits : List Bool) : List Bool :=
  entries.foldl (fun hits e => if test e then hits.set (condID e) true else hits) hits

/-- Membership in a list operand, or its negation. -/
def Listed.passes {α : Type} (l : Listed α) (test : α → Bool) : Bool := l.items.any test != l.negate

def ParamIndex.applyIndex (idx : ParamIndex F R N) (hits : List Bool) (value : Str) (present : Bool)
    : List Bool :=
  let hits := markIf (fun _ => present) id idx.existing hits
  let hits := markIf (fun _ => !present) id idx.notExists hits
  if !present then hits
  else
    let hits := idx.aho.elim hits fun m =>
      markIf (fun _ => true) id (m.matchText lib (lib.toLower value)) hits
    let hits := (idx.equals.lookup value).elim hits fun cid => hits.set cid true
    let hits := markIf (fun c => hasPrefix value c.operand) Entry.condID idx.prefixes hits
    let hits := markIf (fun c => hasSuffix value c.operand) Entry.condID idx.suffixes hits
    let hits := markIf (fun c => lib.matchString c.operand value) Entry.condID idx.regexes hits
    let hits := markIf (fun c => c.operand.passes (· == value)) Entry.condID idx.ins hits
    let hits := (lib.parseIP (trimSpace value)).elim hits fun ip =>
      markIf (fun c => c.operand.passes (lib.contains · ip)) Entry.condID idx.ipNets hits
    (lib.parseFloat (trimSpace value)).elim hits fun num =>
      let hits := markIf (fun c => lib.lt c.operand num) Entry.condID idx.numGt hits
      markIf (fun c => lib.lt num c.operand) Entry.condID idx.numLt hits

def ruleMatches (rule : CompiledRule F) (hits : List Bool) : Bool :=
  rule.groups.any fun group => group.all fun cid => hits.getD cid false

inductive RuleSetAction where
  | allow
  | block
  deriving DecidableEq

/-- What an action that is not `log` decides. -/
def Action.verdict : Action → Option RuleSetAction
  | allow => some .allow
  | deny | rateLimit => some .block
  | log | other _ => none

/-- The verdict of a rule on a request it may match. -/
def CompiledRule.verdict (rule : CompiledRule F) (hits : List Bool) : Option RuleSetAction :=
  if rule.enabled && ruleMatches rule hits then rule.action.verdict else none

/-- The loop of `evaluate` over the rules. -/
def decideRules : List (CompiledRule F) → List Bool → RuleSetAction × Option (CompiledRule F)
  | [], _ => (.allow, none)
  | rule :: rules, hits =>
      match rule.verdict hits with
      | some action => (action, some rule)
      | none => decideRules rules hits

/-- One round of the loop of `evaluate` over the parameters. -/
def RuleSet.inspect (rs : RuleSet F R N) (acc : RequestCtx A × List Bool) (param : Str) :
    RequestCtx A × List Bool :=
  match rs.params.lookup param with
  | some idx =>
      let ((value, present), ctx) := acc.1.get lib param idx.name
      (ctx, idx.applyIndex lib acc.2 value present)
  | none => acc

/-- The parameters inspected one after the other. -/
def RuleSet.inspectAll (order : KeyOrder) (rs : RuleSet F R N) (ctx : RequestCtx A) :
    RequestCtx A × List Bool :=
  (order.visit rs.params.keys).foldl (rs.inspect lib) (ctx, List.replicate rs.condCount false)

/-- `ruleSet.evaluate`: the decision, the rule it comes from, and the request
afterwards. -/
def RuleSet.evaluate (order : KeyOrder) (rs : RuleSet F R N) (r : Request) (gs : Option (Geodb A)) :
    (RuleSetAction × Option (CompiledRule F)) × Request :=
  let (ctx, hits) := rs.inspectAll lib order (newRequestCtx lib r gs rs.maxBodySize)
  (decideRules rs.rules hits, ctx.r)

end Peretum.Waf
