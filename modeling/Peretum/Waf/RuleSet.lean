import Peretum.Waf.Request

/-!
# Compiling a policy

`buildRuleSet` numbers the conditions of a policy and files each one under its
parameter, so that a request field is inspected once for all conditions on it. A
rule keeps the numbers of its conditions. The patterns of a parameter's `contains`
conditions are merged into one automaton.
-/

namespace Peretum.Waf

open Go

variable {F R A N : Type}

/-- The operators of conditions. -/
inductive Operator where
  | contains | equals | startswith | endswith | matchesRe | inList | notIn | gt | lt | present
  | absent | inIp | notInIp
  deriving DecidableEq

namespace Operator

/-- An operator's name in lower case. -/
def spelling : Operator → Str
  | contains => str "contains"
  | equals => str "equals"
  | startswith => str "startswith"
  | endswith => str "endswith"
  | matchesRe => str "matches"
  | inList => str "in"
  | notIn => str "not_in"
  | gt => str "gt"
  | lt => str "lt"
  | present => str "exists"
  | absent => str "not_exists"
  | inIp => str "in_ip"
  | notInIp => str "not_in_ip"

def all : List Operator :=
  [contains, equals, startswith, endswith, matchesRe, inList, notIn, gt, lt, present, absent,
    inIp, notInIp]

/-- The operator with a name in any case. -/
def parse (lib : Library F R A N) (op : Str) : Option Operator :=
  ofSpelling all spelling (lib.toLower op)

end Operator

/-- What a rule does with a request, after normalization of the action's name. -/
inductive Action where
  | deny | allow | log | rateLimit
  /-- Any other name, which no case of `evaluate` handles. -/
  | other (name : Str)
  deriving DecidableEq

variable (lib : Library F R A N)

/-- The action with a name; hyphens are read as underscores, and no name means deny. -/
def Action.ofType (type : Str) : Action :=
  if type = [] then .deny
  else
    let name := lib.toLower (type.map fun b => if b = 0x2D then 0x5F else b)
    if name = str "deny" then .deny
    else if name = str "allow" then .allow
    else if name = str "log" then .log
    else if name = str "ratelimit" ∨ name = str "rate_limit" then .rateLimit
    else .other name

structure CompiledRule (F : Type) where
  id : Str
  name : Str
  enabled : Bool := true
  action : Action := .deny
  /-- The status of the block page, or zero. -/
  code : Int := 0
  /-- The text of the block page, or none. -/
  message : Str := []
  rps : F
  burst : Int := 0
  groups : List (List Nat) := []
  deriving DecidableEq

/-- An entry of an index: what to compare with and the number of the condition. -/
structure Entry (α : Type) where
  operand : α
  condID : Nat

/-- A list operand, for membership or its negation. -/
structure Listed (α : Type) where
  items : List α
  /-- Whether the condition asks for the absence from the list. -/
  negate : Bool

/-- `ahoMatcher`: the automaton is given by its patterns. -/
structure AhoMatcher where
  patterns : List Str
  /-- For each pattern the conditions it satisfies. -/
  condMap : List (List Nat)

structure ParamIndex (F R N : Type) where
  name : Str := []
  /-- The lower-case patterns of the `contains` conditions. -/
  containsPatterns : List Str := []
  /-- The numbers of these conditions. -/
  containsConds : List Nat := []
  paired : containsPatterns.length = containsConds.length := by rfl
  /-- The automaton, once it is built. -/
  aho : Option AhoMatcher := none
  equals : Map Str Nat := ∅
  /-- The `startswith` conditions. -/
  prefixes : List (Entry Str) := []
  /-- The `endswith` conditions. -/
  suffixes : List (Entry Str) := []
  /-- The `matches` conditions. -/
  regexes : List (Entry R) := []
  /-- The `in` and `not_in` conditions. -/
  ins : List (Entry (Listed Str)) := []
  numGt : List (Entry F) := []
  numLt : List (Entry F) := []
  ipNets : List (Entry (Listed N)) := []
  existing : List Nat := []
  notExists : List Nat := []

/-- The index a parameter starts with. -/
def ParamIndex.new : ParamIndex F R N := {}

structure RuleSet (F R N : Type) where
  params : Map Str (ParamIndex F R N)
  rules : List (CompiledRule F)
  condCount : Nat
  maxBodySize : Int64

/-- `parseCIDR` of the plugin: a plain address stands for the network of itself. -/
def parseCIDR (s : Str) : Option N :=
  let s := trimSpace s
  if 0x2F ∉ s then
    (lib.parseIP s).map fun ip => lib.hostNet ip (if lib.to4 ip then 32 else 128)
  else lib.parseCIDR s

def parseIPNets (value : Str) : List N :=
  (split 0x2C value).filterMap (parseCIDR lib)

/-- The items of a comma-separated list without blanks around them. -/
def listItems (value : Str) : List Str := ((split 0x2C value).map trimSpace).filter (· ≠ [])

def isIPOperator (op : Str) : Bool :=
  match Operator.parse lib op with
  | some .equals | some .inList | some .notIn | some .inIp | some .notInIp => true
  | _ => false

namespace ParamIndex

def addIPCond (lib : Library F R A N) (idx : ParamIndex F R N) (value : Str) (negate : Bool)
    (condID : Nat) : ParamIndex F R N :=
  let nets := parseIPNets lib value
  if nets = [] then idx
  else { idx with ipNets := idx.ipNets ++ [⟨⟨nets, negate⟩, condID⟩] }

def compileCondition (lib : Library F R A N) (idx : ParamIndex F R N) (op value : Str)
    (condID : Nat) : ParamIndex F R N :=
  match Operator.parse lib op with
  | some .contains =>
      { idx with
        containsPatterns := idx.containsPatterns ++ [lib.toLower value]
        containsConds := idx.containsConds ++ [condID]
        paired := by simp [idx.paired] }
  | some .equals => { idx with equals := idx.equals.insert value condID }
  | some .startswith => { idx with prefixes := idx.prefixes ++ [⟨value, condID⟩] }
  | some .endswith => { idx with suffixes := idx.suffixes ++ [⟨value, condID⟩] }
  | some .matchesRe =>
      match lib.compile value with
      | some re => { idx with regexes := idx.regexes ++ [⟨re, condID⟩] }
      | none => idx
  | some .inList => { idx with ins := idx.ins ++ [⟨⟨listItems value, false⟩, condID⟩] }
  | some .notIn => { idx with ins := idx.ins ++ [⟨⟨listItems value, true⟩, condID⟩] }
  | some .gt =>
      match lib.parseFloat (trimSpace value) with
      | some th => { idx with numGt := idx.numGt ++ [⟨th, condID⟩] }
      | none => idx
  | some .lt =>
      match lib.parseFloat (trimSpace value) with
      | some th => { idx with numLt := idx.numLt ++ [⟨th, condID⟩] }
      | none => idx
  | some .present => { idx with existing := idx.existing ++ [condID] }
  | some .absent => { idx with notExists := idx.notExists ++ [condID] }
  -- the two operators on networks have no case for other parameters
  | some .inIp | some .notInIp | none => idx

/-- A condition that gives an argument or header name sets it for the whole index. -/
def named (idx : ParamIndex F R N) (name : Str) : ParamIndex F R N :=
  if name ≠ [] then { idx with name := name } else idx

/-- What `buildRuleSet` does with the index of a condition's parameter. -/
def file (lib : Library F R A N) (idx : ParamIndex F R N) (param name op value : Str)
    (condID : Nat) : ParamIndex F R N :=
  if param = str "ip" ∧ isIPOperator lib op then
    (idx.named name).addIPCond lib value
      (Operator.parse lib op = some .notIn ∨ Operator.parse lib op = some .notInIp) condID
  else (idx.named name).compileCondition lib op value condID

end ParamIndex

/-- `buildAhoMatcher`: empty patterns are left out. -/
def buildAhoMatcher (patterns : List Str) (condMap : List (List Nat)) : Option AhoMatcher :=
  let nonEmpty := (patterns.zip condMap).filter fun e => e.1 ≠ []
  if nonEmpty = [] then none else some ⟨nonEmpty.map Prod.fst, nonEmpty.map Prod.snd⟩

/-- The state of the loop that merges equal patterns. -/
structure Merged where
  /-- The number of each pattern, `patternMap`. -/
  patternMap : Map Str Nat := ∅
  patterns : List Str := []
  condMap : List (List Nat) := []

/-- One round of the loop. -/
def Merged.add (m : Merged) (p : Str) (cond : Nat) : Merged :=
  match m.patternMap.lookup p with
  | some pid => { m with condMap := m.condMap.modify pid (· ++ [cond]) }
  | none =>
      { patternMap := m.patternMap.insert p m.patterns.length
        patterns := m.patterns ++ [p]
        condMap := m.condMap ++ [[cond]] }

/-- The body of the loop of `finalizeIndexes`. -/
def ParamIndex.finalize (idx : ParamIndex F R N) : ParamIndex F R N :=
  if idx.containsPatterns = [] then idx
  else
    let m := (idx.containsPatterns.zip idx.containsConds).foldl (fun m e => m.add e.1 e.2)
      ({} : Merged)
    { idx with aho := buildAhoMatcher m.patterns m.condMap }

def finalizeIndexes (rs : RuleSet F R N) : RuleSet F R N :=
  { rs with params := rs.params.entries.foldl (fun m e => m.insert e.1 e.2.finalize) ∅ }

variable (lib : Library F R A N)

/-- The innermost loop of `buildRuleSet`: one condition of a group. -/
def addCondition (acc : RuleSet F R N × List Nat) (raw : Value F) : RuleSet F R N × List Nat :=
  match raw with
  | .map cm =>
      let (rs, group) := acc
      let param := getString cm (str "param")
      if param = [] then (rs, group)
      else
        let op := getString cm (str "operator")
        let value := getString cm (str "value")
        let op := if op = str "in" then str "In" else op
        let name := getString cm (str "param_name")
        let idx := ((rs.params.lookup param).getD .new).file lib param name op value rs.condCount
        ({ rs with params := rs.params.insert param idx, condCount := rs.condCount + 1 },
          group ++ [rs.condCount])
  | _ => acc

/-- The middle loop of `buildRuleSet`: one group of a rule. -/
def addGroup (acc : RuleSet F R N × List (List Nat)) (raw : Value F) :
    RuleSet F R N × List (List Nat) :=
  match raw with
  | .list conds =>
      let (rs, group) := conds.foldl (addCondition lib) (acc.1, [])
      (rs, if group ≠ [] then acc.2 ++ [group] else acc.2)
  | _ => acc

/-- The fields of a compiled rule apart from its groups. -/
def compileAction (rm : Object F) : CompiledRule F :=
  let rule : CompiledRule F :=
    { id := getString rm (str "id")
      name := getString rm (str "name")
      enabled :=
        match rm.lookup (str "enabled") with
        | some (.bool e) => e
        | _ => true
      rps := lib.ofInt 0 }
  match rm.lookup (str "action") with
  | some (.map am) =>
      let rps := getFloat lib am (str "rps")
      { rule with
        action := .ofType lib (getString am (str "type"))
        code := getInt lib am (str "code")
        message := getString am (str "message")
        rps := if lib.isZero rps then getFloat lib am (str "requests_per_second") else rps
        burst := getInt lib am (str "burst") }
  | _ => rule

/-- The outer loop of `buildRuleSet`: one rule. -/
def addRule (rs : RuleSet F R N) (raw : Value F) : RuleSet F R N :=
  match raw with
  | .map rm =>
      let conds :=
        match rm.lookup (str "conditions") with
        | some (.list groups) => groups
        | _ => []
      let (rs, groups) := conds.foldl (addGroup lib) (rs, [])
      if groups ≠ [] then
        { rs with rules := rs.rules ++ [{ compileAction lib rm with groups := groups }] }
      else rs
  | _ => rs

/-- `buildRuleSet`: nothing for a policy that is off. -/
def buildRuleSet (cfg : Object F) (maxBodySize : Int64) : Except Str (Option (RuleSet F R N)) :=
  if getBool cfg (str "enabled") then
    let rs : RuleSet F R N := ⟨∅, [], 0, maxBodySize⟩
    match cfg.lookup (str "rules") with
    | some (.list rules) => .ok (some (finalizeIndexes (rules.foldl (addRule lib) rs)))
    | some _ => .error (str "waf: rules must be a list")
    | none => .ok (some rs)
  else .ok none

end Peretum.Waf
