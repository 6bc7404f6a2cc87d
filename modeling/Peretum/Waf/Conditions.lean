import Peretum.Waf.Compile

/-!
# The meaning of a condition

A condition is read on the value and the presence of its parameter. This file says
what each operator asks for, and shows that an index answers for every condition
filed in it, with one exception: of several `equals` conditions with one operand it
answers only for the last.
-/

namespace Peretum.Waf

open Go

variable {F R A N : Type}

variable (lib : Library F R A N)

/-- The address lies in one of the listed networks, or in none of them. Neither holds
if no entry of the list is a network or the value is not an address. -/
def inNetworks (operand value : Str) (negate : Bool) : Bool :=
  !(parseIPNets lib operand).isEmpty &&
    (lib.parseIP (trimSpace value)).any fun ip =>
      (parseIPNets lib operand).any (lib.contains · ip) != negate

/-- Two texts that are both numbers are in a relation. -/
def inOrder (rel : F → F → Bool) (operand value : Str) : Bool :=
  (lib.parseFloat (trimSpace operand)).any fun th =>
    (lib.parseFloat (trimSpace value)).any fun x => rel th x

/-- What an operator asks of the value of a parameter that is present. -/
def Operator.accepts (onIP : Bool) (operand value : Str) : Operator → Bool
  | contains => lib.toLower operand ≠ [] && Go.contains (lib.toLower value) (lib.toLower operand)
  | equals => if onIP then inNetworks lib operand value false else operand == value
  | startswith => hasPrefix value operand
  | endswith => hasSuffix value operand
  | matchesRe => (lib.compile operand).any (lib.matchString · value)
  | inList =>
      if onIP then inNetworks lib operand value false else (listItems operand).any (· == value)
  | notIn =>
      if onIP then inNetworks lib operand value true else !(listItems operand).any (· == value)
  | gt => inOrder lib (fun th x => lib.lt th x) operand value
  | lt => inOrder lib (fun th x => lib.lt x th) operand value
  | present => true
  | absent => false
  | inIp => onIP && inNetworks lib operand value false
  | notInIp => onIP && inNetworks lib operand value true

/-- The direct reading of an operator: an absent parameter satisfies only
`not_exists`, and an unknown operator nothing. -/
def satisfies (onIP : Bool) (op operand value : Str) (present : Bool) : Bool :=
  match Operator.parse lib op with
  | some .absent => !present
  | some op => present && op.accepts lib onIP operand value
  | none => false

/-- The direct reading of a condition. -/
def WAFCondition.satisfied (c : WAFCondition) (value : Str) (present : Bool) : Bool :=
  satisfies lib (c.param = str "ip") c.operator c.value value present

/-- The condition is filed in the map of `equals`. -/
def WAFCondition.keyed (c : WAFCondition) : Bool :=
  c.param ≠ str "ip" && Operator.parse lib c.operator = some .equals

namespace ParamIndex

variable (lib : Library F R A N) (idx : ParamIndex F R N)

/-- Filing a condition under an ordinary parameter lets a scan find it, unless it is
filed by its operand. -/
theorem scans_compileCondition (op operand : Str) (condID : Nat) (value : Str) (present : Bool)
    (n : Nat) : (idx.compileCondition lib op operand condID).Scans lib value present n ↔
      idx.Scans lib value present n ∨ (condID = n ∧ Operator.parse lib op ≠ some .equals ∧
        satisfies lib false op operand value present = true) := by
  unfold compileCondition satisfies
  cases hop : Operator.parse lib op with
  | none => simp
  | some op =>
    cases present with
    | false =>
      cases op with
      | matchesRe => cases lib.compile operand <;> simp [Scans]
      | gt | lt => cases lib.parseFloat (trimSpace operand) <;> simp [Scans]
      | _ => simp [Scans, eq_comm]
    | true =>
      -- every case adds one disjunct, in the place of the list the operator is filed in
      simp only [ne_eq, Option.some.injEq, Bool.true_and]
      cases op with
      | contains =>
        have hfiled : List.zipWith Entry.mk (idx.containsPatterns ++ [lib.toLower operand])
            (idx.containsConds ++ [condID]) = idx.signatures ++ [⟨lib.toLower operand, condID⟩] :=
          List.zipWith_append idx.paired
        simp only [Scans, signatures, hfiled, filed_concat, Operator.accepts, reduceCtorEq,
          not_false_eq_true, true_and]
        exact iff_of_eq (by ac_rfl)
      | equals | inIp | notInIp => simp [Scans, signatures, Operator.accepts]
      | startswith | endswith =>
        simp only [Scans, signatures, filed_concat, Operator.accepts, reduceCtorEq,
          not_false_eq_true, true_and]
        exact iff_of_eq (by ac_rfl)
      | inList | notIn =>
        simp only [Scans, signatures, filed_concat, Operator.accepts, Listed.passes, reduceCtorEq,
          not_false_eq_true, true_and, Bool.bne_false, Bool.bne_true, Bool.false_eq_true, if_false]
        exact iff_of_eq (by ac_rfl)
      | present =>
        simp only [Scans, signatures, List.mem_append, List.mem_singleton, Operator.accepts,
          reduceCtorEq, not_false_eq_true, and_true, eq_comm (a := n)]
        exact iff_of_eq (by ac_rfl)
      | absent => simp [Scans, signatures]
      | matchesRe =>
        cases hre : lib.compile operand with
        | none => simp [Operator.accepts, hre]
        | some re =>
          simp only [Scans, signatures, filed_concat, Operator.accepts, hre, Option.any_some,
            reduceCtorEq, not_false_eq_true, true_and]
          exact iff_of_eq (by ac_rfl)
      | gt | lt =>
        cases hth : lib.parseFloat (trimSpace operand) with
        | none => simp [Operator.accepts, inOrder, hth]
        | some th =>
          simp only [Scans, signatures, filed_concat, Operator.accepts, inOrder, hth,
            Option.any_some, reduceCtorEq, not_false_eq_true, true_and]
          exact iff_of_eq (by ac_rfl)

theorem scans_addIPCond (operand : Str) (negate : Bool) (condID : Nat) (value : Str)
    (present : Bool) (n : Nat) :
    (idx.addIPCond lib operand negate condID).Scans lib value present n ↔
      idx.Scans lib value present n ∨
        (condID = n ∧ (present && inNetworks lib operand value negate) = true) := by
  unfold addIPCond inNetworks
  by_cases hnets : parseIPNets lib operand = []
  · simp [hnets]
  · have hsome : (parseIPNets lib operand).isEmpty = false := by simpa using hnets
    cases present with
    | false => simp [Scans, hnets]
    | true =>
      simp only [Scans, signatures, hnets, hsome, filed_concat, Listed.passes, if_false,
        Bool.not_false, Bool.true_and]
      exact iff_of_eq (by ac_rfl)

/-- The operators that are not read as networks mean the same on `ip`. -/
theorem satisfies_ip {lib : Library F R A N} {op : Str} (hop : isIPOperator lib op = false)
    (operand value : Str) (present : Bool) :
    satisfies lib true op operand value present = satisfies lib false op operand value present := by
  unfold isIPOperator at hop
  unfold satisfies
  cases hparse : Operator.parse lib op with
  | none => rfl
  | some op => cases op <;> simp_all [Operator.accepts]

/-- On `ip` the other operators ask for networks. -/
theorem satisfies_networks {lib : Library F R A N} {op : Str} (hop : isIPOperator lib op = true)
    (operand value : Str) (present : Bool) :
    satisfies lib true op operand value present = (present && inNetworks lib operand value
      (Operator.parse lib op = some .notIn ∨ Operator.parse lib op = some .notInIp)) := by
  unfold isIPOperator at hop
  unfold satisfies
  cases hparse : Operator.parse lib op with
  | none => simp [hparse] at hop
  | some op => cases op <;> simp_all [Operator.accepts]

/-- Filing a condition lets a scan find it, unless it is filed by its operand. -/
theorem scans_file (c : WAFCondition) (condID : Nat) (value : Str) (present : Bool) (n : Nat) :
    (idx.file lib c.param c.paramName c.operator c.value condID).Scans lib value present n ↔
      idx.Scans lib value present n ∨ (condID = n ∧ c.keyed lib = false ∧
        c.satisfied lib value present = true) := by
  have hname : (idx.named c.paramName).Scans lib value present n ↔
      idx.Scans lib value present n := by
    unfold named
    split <;> cases present <;> rfl
  unfold file WAFCondition.keyed WAFCondition.satisfied
  by_cases hip : c.param = str "ip"
  · cases hop : isIPOperator lib c.operator with
    | true => simp [hip, scans_addIPCond, satisfies_networks hop, hname]
    | false =>
      have hequals : Operator.parse lib c.operator ≠ some .equals := by
        intro hparse
        simp [isIPOperator, hparse] at hop
      simp [hip, scans_compileCondition, satisfies_ip hop, hname, hequals]
  · simp [hip, scans_compileCondition, hname]

/-- Filing a condition builds no automaton, and changes the map of `equals` only for a
condition filed by its operand. -/
theorem aho_equals_file (c : WAFCondition) (condID : Nat) :
    (idx.file lib c.param c.paramName c.operator c.value condID).aho = idx.aho ∧
      (idx.file lib c.param c.paramName c.operator c.value condID).equals =
        if c.keyed lib then idx.equals.insert c.value condID else idx.equals := by
  have hname : (idx.named c.paramName).aho = idx.aho ∧
      (idx.named c.paramName).equals = idx.equals := by
    unfold named
    split <;> exact ⟨rfl, rfl⟩
  unfold file WAFCondition.keyed
  by_cases hip : c.param = str "ip" ∧ isIPOperator lib c.operator = true
  · by_cases hnets : parseIPNets lib c.value = [] <;> simp [addIPCond, hip, hnets, hname]
  · rw [if_neg hip]
    unfold compileCondition
    cases hop : Operator.parse lib c.operator with
    | none => simp [hname]
    | some op =>
      cases op with
      | equals =>
        have hne : c.param ≠ str "ip" := by
          intro h
          exact hip ⟨h, by simp [isIPOperator, hop]⟩
        simp [hne, hname]
      | matchesRe => cases lib.compile c.value <;> simp [hname]
      | gt | lt => cases lib.parseFloat (trimSpace c.value) <;> simp [hname]
      | _ => simp [hname]

end ParamIndex

end Peretum.Waf
