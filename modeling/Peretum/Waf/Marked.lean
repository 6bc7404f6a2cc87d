import Peretum.Waf.Meaning

/-!
# Which conditions a request marks

The conditions on one parameter share an index, and an index has room for one argument or
header name, the last that a condition gave. This file says when a condition is nevertheless
read under its own name, and that the signatures of a parameter do not disturb each other:
merging equal patterns and leaving out empty ones loses no condition and adds none.
-/

namespace Peretum.Waf

open Go

variable {F R A N : Type} {lib : Library F R A N}

/-- The last name that the conditions give for a parameter. -/
def lastName (conds : List WAFCondition) (param : Str) : Str :=
  (conds.filter fun c => c.param = param ∧ c.paramName ≠ []).getLast?.elim [] WAFCondition.paramName

theorem lastName_concat (conds : List WAFCondition) (c : WAFCondition) (param : Str) :
    lastName (conds ++ [c]) param =
      if c.param = param ∧ c.paramName ≠ [] then c.paramName else lastName conds param := by
  unfold lastName
  split
  · next hgives => simp [List.filter_append, hgives]
  · next hgives =>
    rw [List.filter_append, List.filter_cons_of_neg (by simpa using hgives), List.filter_nil,
      List.append_nil]

theorem ParamIndex.name_file (lib : Library F R A N) (idx : ParamIndex F R N) (c : WAFCondition)
    (condID : Nat) :
    (idx.file lib c.param c.paramName c.operator c.value condID).name =
      if c.paramName ≠ [] then c.paramName else idx.name := by
  have hnamed : (idx.named c.paramName).name =
      if c.paramName ≠ [] then c.paramName else idx.name := by
    unfold named
    split <;> rfl
  rw [← hnamed]
  unfold file
  split
  · unfold addIPCond
    dsimp only
    split <;> rfl
  · unfold compileCondition
    split <;> first | rfl | (split <;> rfl)

theorem name_fileAll (lib : Library F R A N) (conds : List WAFCondition) (param : Str) :
    (((fileAll lib ∅ 0 conds).lookup param).getD .new).name = lastName conds param := by
  induction conds using List.reverseRecOn with
  | nil => rfl
  | append_singleton conds c ih =>
    rw [fileAll_append, lastName_concat]
    simp only [fileAll, fileOne]
    by_cases hparam : c.param = param
    · subst hparam
      rw [AList.lookup_insert, Option.getD_some, ParamIndex.name_file, ih]
      simp
    · rw [AList.lookup_insert_ne (Ne.symm hparam), ih, if_neg fun h => hparam h.1]

/-- A condition holds for what the request has under a name. -/
def WAFCondition.holdsUnder (lib : Library F R A N) (ctx : RequestCtx A) (name : Str)
    (c : WAFCondition) : Bool :=
  c.satisfied lib (ctx.get lib c.param name).1.1 (ctx.get lib c.param name).1.2

/-- The parameters that need a name. -/
def WAFCondition.Named (c : WAFCondition) : Prop := c.param = str "arg" ∨ c.param = str "header"

/-- `evaluate` marks the conditions that hold under the last name of their parameter and are not
shadowed. -/
theorem hit_inspectAll_iff_lastName (hfind : lib.FindsAll) {p : WAFLocationConfig F}
    (order : KeyOrder) (maxBodySize : Int64) (ctx : RequestCtx A) {n : Nat} {c : WAFCondition}
    (hc : (conditionsOf p.rules)[n]? = some c) :
    Hit ((p.ruleSet lib maxBodySize).inspectAll lib order ctx).2 n ↔
      c.holdsUnder lib ctx (lastName (conditionsOf p.rules) c.param) = true ∧
        ¬ Shadowed lib (conditionsOf p.rules) c n := by
  have hreads : Reads lib (conditionsOf p.rules) ctx fun param =>
      (ctx.get lib param (lastName (conditionsOf p.rules) param)).1 := by
    intro param idx hlookup
    have hname := name_fileAll lib (conditionsOf p.rules) param
    rw [hlookup, Option.getD_some] at hname
    rw [hname]
  exact hit_inspectAll_of_reads hfind hreads order maxBodySize hc

/-- Every policy compiles, and for every request each condition on an argument or a header is
marked just when it holds under its own name, if and only if each of them that is not shadowed
holds under the last name given for its parameter just when it does under its own, and none
that is shadowed holds under its own. -/
theorem marked_by_own_name_iff (hfind : lib.FindsAll) (p : WAFLocationConfig F) (order : KeyOrder)
    (maxBodySize : Int64) (r : Request) (gs : Option (Geodb A)) :
    buildRuleSet lib (wafLocationToMap lib p) maxBodySize =
        .ok (if p.enabled then some (p.named.ruleSet lib maxBodySize) else none) ∧
      ((∀ n c, (conditionsOf p.named.rules)[n]? = some c → c.Named →
          (Hit ((p.named.ruleSet lib maxBodySize).inspectAll lib order
              (newRequestCtx lib r gs maxBodySize)).2 n ↔
            c.holdsUnder lib (newRequestCtx lib r gs maxBodySize) c.paramName = true)) ↔
        ∀ n c, (conditionsOf p.named.rules)[n]? = some c → c.Named →
          (¬ Shadowed lib (conditionsOf p.named.rules) c n →
            c.holdsUnder lib (newRequestCtx lib r gs maxBodySize)
                (lastName (conditionsOf p.named.rules) c.param) =
              c.holdsUnder lib (newRequestCtx lib r gs maxBodySize) c.paramName) ∧
          (Shadowed lib (conditionsOf p.named.rules) c n →
            c.holdsUnder lib (newRequestCtx lib r gs maxBodySize) c.paramName = false)) := by
  constructor
  · rw [← buildRuleSet_named,
      buildRuleSet_wafLocationToMap fun c hc => (mem_conditionsOf_named.mp hc).2]
    rfl
  · refine forall₂_congr fun n c => forall₂_congr fun hc _ => ?_
    rw [hit_inspectAll_iff_lastName hfind order maxBodySize _ hc]
    by_cases hshadowed : Shadowed lib (conditionsOf p.named.rules) c n
    · simp [hshadowed]
    · simp only [hshadowed, not_false_eq_true, and_true, forall_const, false_implies]
      exact Bool.eq_iff_iff.symm

/-- A rule that denies requests with a header. -/
def headerRule (id name value : String) : WAFRule Int where
  id := str id
  name := []
  enabled := none
  action := ⟨str "deny", 0, [], 0, 0⟩
  conditions :=
    [[{ param := str "header", paramName := str name, operator := str "equals"
        value := str value }]]

/-- A request with one header. -/
def headerRequest (name value : String) : Request :=
  { adminRequest "GET" with header := Header.set ∅ (str name) (str value) }

/-- Two conditions on one header. -/
def sameHeader : WAFLocationConfig Int :=
  ⟨true, [headerRule "a" "X-A" "1", headerRule "b" "X-A" "2"]⟩

/-- Both are read under their own name. -/
theorem sameHeader_marked :
    Hit ((sameHeader.named.ruleSet plainLibrary 1048576).inspectAll plainLibrary .asListed
      (newRequestCtx plainLibrary (headerRequest "X-A" "1") none 1048576)).2 0 ∧
    ¬ Hit ((sameHeader.named.ruleSet plainLibrary 1048576).inspectAll plainLibrary .asListed
      (newRequestCtx plainLibrary (headerRequest "X-A" "1") none 1048576)).2 1 := by
  have hown := (marked_by_own_name_iff findsAll_plainLibrary sameHeader .asListed 1048576
    (headerRequest "X-A" "1") none).2.mpr ?_
  · exact ⟨(hown 0 _ rfl (.inr rfl)).mpr (by decide),
      fun hhit => absurd ((hown 1 _ rfl (.inr rfl)).mp hhit) (by decide)⟩
  · intro n c hc _
    match n, hc with
    | 0, hc =>
      cases hc
      refine ⟨fun _ => by decide, ?_⟩
      rintro ⟨-, later, hlater, hkey⟩
      cases List.mem_singleton.mp hlater
      exact absurd hkey.2 (by decide)
    | 1, hc =>
      cases hc
      refine ⟨fun _ => by decide, ?_⟩
      rintro ⟨-, later, hlater, -⟩
      cases hlater
    | n + 2, hc => cases hc

def twoHeaders : WAFLocationConfig Int :=
  ⟨true, [headerRule "a" "X-A" "1", headerRule "b" "X-B" "2"]⟩

/-- The first condition holds under its own name and is not marked, and the request passes. -/
theorem twoHeaders_interfere :
    plainLibrary.FindsAll ∧
      (∃ c, (conditionsOf twoHeaders.named.rules)[0]? = some c ∧ c.Named ∧
        c.holdsUnder plainLibrary
          (newRequestCtx plainLibrary (headerRequest "X-A" "1") none 1048576) c.paramName = true) ∧
      ¬ Hit ((twoHeaders.named.ruleSet plainLibrary 1048576).inspectAll plainLibrary .asListed
        (newRequestCtx plainLibrary (headerRequest "X-A" "1") none 1048576)).2 0 ∧
      twoHeaders.decision plainLibrary .asListed 1048576 (headerRequest "X-A" "1") none =
        (.allow, none) := by
  refine ⟨findsAll_plainLibrary, ⟨_, rfl, .inr rfl, by decide⟩, ?_, by decide⟩
  unfold Hit
  decide

/-- Of the conditions with a signature, the index of a parameter marks, for every value, just
those on the parameter whose pattern in lower case is not empty and occurs in the value in lower
case. -/
theorem marked_contains_iff (hfind : lib.FindsAll) {p : WAFLocationConfig F} {maxBodySize : Int64}
    {param : Str} {idx : ParamIndex F R N}
    (hidx : (p.named.ruleSet lib maxBodySize).params.lookup param = some idx) (value : Str)
    {n : Nat} {c : WAFCondition} (hc : (conditionsOf p.named.rules)[n]? = some c)
    (hop : Operator.parse lib c.operator = some .contains) :
    Hit (idx.applyIndex lib (List.replicate (conditionsOf p.named.rules).length false) value
        true) n ↔
      c.param = param ∧ lib.toLower c.value ≠ [] ∧ lib.toLower c.value <:+: lib.toLower value := by
  set conds := conditionsOf p.named.rules with hconds
  rw [lookup_ruleSet, Option.map_eq_some_iff] at hidx
  obtain ⟨built, hlookup, rfl⟩ := hidx
  have hbuilt := indexOf_fileAll lib conds param
  rw [hlookup, Option.getD_some] at hbuilt
  have hn : n < (List.replicate conds.length false).length := by
    rw [List.length_replicate]
    exact (List.getElem?_eq_some_iff.mp hc).1
  have hclear : ¬ Hit (List.replicate conds.length false) n := by
    simp [Hit, List.getElem?_replicate]
  have hshadowed : ¬ Shadowed lib conds c n := by
    rintro ⟨hkeyed, -⟩
    simp [WAFCondition.keyed, hop] at hkeyed
  have hsatisfied : c.satisfied lib value true = true ↔
      lib.toLower c.value ≠ [] ∧ lib.toLower c.value <:+: lib.toLower value := by
    simp [WAFCondition.satisfied, satisfies, hop, Operator.accepts, contains]
  rw [(ParamIndex.adds_applyIndex hfind hbuilt.aho_eq _ value true).hit_iff n hn,
    hbuilt.finds_iff, or_iff_right hclear]
  constructor
  · rintro ⟨c', hc', hparam, hsat, -⟩
    obtain rfl : c = c' := Option.some.inj (hc.symm.trans hc')
    exact ⟨hparam, hsatisfied.mp hsat⟩
  · rintro ⟨hparam, hfound⟩
    exact ⟨c, hc, hparam, hsatisfied.mpr hfound, hshadowed⟩

/-- A rule with one signature on the path. -/
def signatureRule (id pattern : String) : WAFRule Int where
  id := str id
  name := []
  enabled := none
  action := ⟨str "deny", 0, [], 0, 0⟩
  conditions := [[{ param := str "path", operator := str "contains", value := str pattern }]]

/-- Signatures with an empty pattern and one pattern in two spellings. -/
def signaturePolicy : WAFLocationConfig Int :=
  ⟨true, [signatureRule "a" "", signatureRule "b" "admin", signatureRule "c" "ADMIN"]⟩

/-- The two spellings are marked, and the empty pattern is not. -/
theorem signaturePolicy_marked :
    ∃ idx,
      (signaturePolicy.named.ruleSet plainLibrary 1048576).params.lookup (str "path") = some idx ∧
      ¬ Hit (idx.applyIndex plainLibrary [false, false, false] (str "/Admin") true) 0 ∧
      Hit (idx.applyIndex plainLibrary [false, false, false] (str "/Admin") true) 1 ∧
      Hit (idx.applyIndex plainLibrary [false, false, false] (str "/Admin") true) 2 := by
  obtain ⟨idx, hidx⟩ : ∃ idx,
      (signaturePolicy.named.ruleSet plainLibrary 1048576).params.lookup (str "path") =
        some idx := by
    apply Option.isSome_iff_exists.mp
    decide
  have hmarked := fun n c hc hop => marked_contains_iff findsAll_plainLibrary hidx (str "/Admin")
    (n := n) (c := c) hc hop
  refine ⟨idx, hidx, ?_, ?_, ?_⟩
  · intro hhit
    exact absurd ((hmarked 0 _ rfl rfl).mp hhit) (by decide)
  · exact (hmarked 1 _ rfl rfl).mpr (by decide)
  · exact (hmarked 2 _ rfl rfl).mpr (by decide)

end Peretum.Waf
