import Peretum.Go.Header

/-!
# Firewall policies

A location's firewall policy is a list of rules, each with an action and a list of
groups of conditions. The configuration loader holds it in typed records, which
`wafLocationToMap` turns into the untyped map the plugin compiles. The packages the
plugin calls for numbers, patterns, addresses and signature search enter as one
record of functions.
-/

namespace Peretum.Waf

open Go

/-- A match reported by the signature search. -/
structure Match where
  patternID : Nat
  /-- The position where the occurrence starts. -/
  start : Nat
  deriving DecidableEq

/-- The functions of other packages the plugin calls, over their types of floating
point numbers, compiled patterns, addresses and networks. -/
structure Library (F R A N : Type) where
  /-- Conversion of an integer to `float64`. -/
  ofInt : Int → F
  /-- Conversion of a `float64` to an integer. -/
  toInt : F → Int
  /-- Comparison of a `float64` with zero. -/
  isZero : F → Bool
  /-- The order on `float64`. -/
  lt : F → F → Bool
  parseFloat : Str → Option F
  compile : Str → Option R
  matchString : R → Str → Bool
  parseIP : Str → Option A
  /-- The address has a four-byte form, `ip.To4() != nil`. -/
  to4 : A → Bool
  /-- The network of the addresses that agree with one on the leading bits. -/
  hostNet : A → Nat → N
  parseCIDR : Str → Option N
  contains : N → A → Bool
  /-- `strings.ToLower` of a string outside ASCII. -/
  unicode : Str → Str
  splitHostPort : Str → Option Str
  /-- `url.Values.Get` on the arguments of a raw query. -/
  queryGet : Str → Str → Str
  /-- `Automaton.FindAllOverlapping` for a list of patterns. -/
  findAllOverlapping : List Str → Str → List Match

/-- The pattern occurs in the text at a position. -/
def OccursAt (text pattern : Str) (start : Nat) : Prop := pattern <+: text.drop start

variable {F R A N : Type}

namespace Library

/-- `strings.ToLower`. -/
def toLower (lib : Library F R A N) (s : Str) : Str := Go.toLower lib.unicode s

/-- The search for non-empty patterns reports exactly their occurrences, and numbers
the patterns in the order they were added. -/
def FindsAll (lib : Library F R A N) : Prop :=
  ∀ patterns text, [] ∉ patterns → ∀ m : Match, m ∈ lib.findAllOverlapping patterns text ↔
    ∃ pattern, patterns[m.patternID]? = some pattern ∧ OccursAt text pattern m.start

end Library

/-- A value of an untyped configuration map, by its dynamic type. -/
inductive Value (F : Type) where
  /-- A `string`. -/
  | str (s : Str)
  | bool (b : Bool)
  | int (n : Int)
  | int64 (n : Int64)
  | uint32 (n : UInt32)
  /-- A `float64`. -/
  | float (x : F)
  /-- A `[]any`. -/
  | list (items : List (Value F))
  /-- A `map[string]any`. -/
  | map (entries : List (Str × Value F))

/-- A `map[string]any`. -/
abbrev Object (F : Type) := List (Str × Value F)

def getString (m : Object F) (key : Str) : Str :=
  match m.lookup key with
  | some (.str v) => v
  | _ => []

def getBool (m : Object F) (key : Str) : Bool :=
  match m.lookup key with
  | some (.bool v) => v
  | _ => false

variable (lib : Library F R A N)

def getInt (m : Object F) (key : Str) : Int :=
  match m.lookup key with
  | some (.int v) => v
  | some (.float v) => lib.toInt v
  | some (.uint32 v) => v.toNat
  | _ => 0

/-- `base.GetInt64`. -/
def getInt64 (m : Object F) (key : Str) : Int64 :=
  match m.lookup key with
  | some (.int64 v) => v
  | some (.float v) => .ofInt (lib.toInt v)
  | some (.int v) => .ofInt v
  | _ => 0

def getFloat (m : Object F) (key : Str) : F :=
  match m.lookup key with
  | some (.float v) => v
  | some (.int v) => lib.ofInt v
  | _ => lib.ofInt 0

/-- `config.WAFCondition`. -/
structure WAFCondition where
  /-- The parameter of the request the condition reads. -/
  param : Str
  paramName : Str := []
  operator : Str
  value : Str := []
  deriving DecidableEq

/-- `config.WAFRuleAction`. -/
structure WAFRuleAction (F : Type) where
  type : Str
  code : Int
  message : Str
  rps : F
  burst : Int
  deriving DecidableEq

/-- `config.WAFRule`. -/
structure WAFRule (F : Type) where
  id : Str
  name : Str
  /-- Whether the rule is on; rules are on by default. -/
  enabled : Option Bool
  /-- What happens to the requests the rule matches. -/
  action : WAFRuleAction F
  conditions : List (List WAFCondition)
  deriving DecidableEq

/-- `config.WAFLocationConfig`. -/
structure WAFLocationConfig (F : Type) where
  enabled : Bool
  rules : List (WAFRule F)
  deriving DecidableEq

/-- An entry that is only set under a condition. -/
def entryIf (p : Bool) (key : Str) (v : Value F) : Object F := if p then [(key, v)] else []

theorem lookup_entry (k key : Str) (v : Value F) (m : Object F) :
    List.lookup k ((key, v) :: m) = if k = key then some v else m.lookup k := by
  by_cases hk : k = key
  · simp [hk]
  · simp [hk, List.lookup_cons, beq_eq_false_iff_ne.mpr hk]

theorem lookup_entryIf (p : Bool) (k key : Str) (v : Value F) :
    (entryIf p key v).lookup k = if p = true ∧ k = key then some v else none := by
  cases p with
  | false => rfl
  | true => simp [entryIf, lookup_entry]

/-- The map of a condition. -/
def conditionToMap (c : WAFCondition) : Object F :=
  [(str "param", .str c.param), (str "operator", .str c.operator), (str "value", .str c.value)] ++
    entryIf (c.paramName ≠ []) (str "param_name") (.str c.paramName)

/-- The map of an action. -/
def actionToMap (a : WAFRuleAction F) : Object F :=
  entryIf (a.type ≠ []) (str "type") (.str a.type) ++
    entryIf (a.code ≠ 0) (str "code") (.int a.code) ++
    entryIf (a.message ≠ []) (str "message") (.str a.message) ++
    entryIf (!lib.isZero a.rps) (str "rps") (.float a.rps) ++
    entryIf (a.burst ≠ 0) (str "burst") (.int a.burst)

/-- The action sets anything. -/
def WAFRuleAction.isSet (a : WAFRuleAction F) : Bool :=
  a.type ≠ [] || a.code ≠ 0 || a.message ≠ [] || !lib.isZero a.rps || a.burst ≠ 0

/-- The map of a rule. -/
def ruleToMap (r : WAFRule F) : Object F :=
  [(str "id", .str r.id)] ++
    entryIf (r.name ≠ []) (str "name") (.str r.name) ++
    entryIf r.enabled.isSome (str "enabled") (.bool (r.enabled.getD true)) ++
    entryIf (r.action.isSet lib) (str "action") (.map (actionToMap lib r.action)) ++
    [(str "conditions", .list (r.conditions.map fun group =>
      .list (group.map fun c => .map (conditionToMap c))))]

def wafLocationToMap (v : WAFLocationConfig F) : Object F :=
  [(str "enabled", .bool v.enabled)] ++
    entryIf (!v.rules.isEmpty) (str "rules") (.list (v.rules.map fun r => .map (ruleToMap lib r)))

end Peretum.Waf
