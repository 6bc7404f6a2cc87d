import Peretum.Waf.Conditions

/-!
# What the indexes of a policy hold

The conditions of a policy are numbered by their position in the text. After
compilation the index of a parameter finds every condition on it but the `equals`
conditions, and its map of `equals` holds for each operand the last condition with
that operand. From this follows which conditions `evaluate` marks for a request.
-/

namespace Peretum.Waf

open Go

variable {F R A N : Type}

section LastAt

variable {α : Type} {P : α → Prop} {l : List α} {a : α} {n : Nat}

/-- The last element of a list with a property is at a position. -/
def LastAt (P : α → Prop) (l : List α) (n : Nat) : Prop :=
  (∃ x, l[n]? = some x ∧ P x) ∧ ∀ x ∈ l.drop (n + 1), ¬ P x

/-- An element with a property at a position of a list with one more element. -/
theorem exists_getElem?_concat :
    (∃ x, (l ++ [a])[n]? = some x ∧ P x) ↔
      (∃ x, l[n]? = some x ∧ P x) ∨ (l.length = n ∧ P a) := by
  rcases Nat.lt_trichotomy n l.length with hlt | rfl | hgt
  · rw [List.getElem?_append_left hlt]
    simp [hlt.ne']
  · simp
  · have hnone : l[n]? = none := List.getElem?_eq_none hgt.le
    have hconcat : (l ++ [a])[n]? = none := by
      simpa using Nat.succ_le_of_lt hgt
    simp [hnone, hconcat, hgt.ne]

theorem lastAt_concat_of_pos (ha : P a) : LastAt P (l ++ [a]) n ↔ l.length = n := by
  unfold LastAt
  rw [exists_getElem?_concat]
  constructor
  · rintro ⟨⟨x, hx, -⟩ | ⟨hn, -⟩, hlater⟩
    · have hlt : n < l.length := (List.getElem?_eq_some_iff.mp hx).1
      rw [List.drop_append_of_le_length hlt] at hlater
      exact absurd ha (hlater a (by simp))
    · exact hn
  · rintro rfl
    exact ⟨.inr ⟨rfl, ha⟩, by simp⟩

/-- One more element without the property leaves the last one. -/
theorem lastAt_concat_of_neg (ha : ¬ P a) : LastAt P (l ++ [a]) n ↔ LastAt P l n := by
  unfold LastAt
  rw [exists_getElem?_concat]
  simp only [ha, and_false, or_false]
  refine and_congr_right fun ⟨x, hx, _⟩ => ?_
  have hlt : n < l.length := (List.getElem?_eq_some_iff.mp hx).1
  rw [List.drop_append_of_le_length hlt]
  simp [or_imp, forall_and, ha]

end LastAt

/-- The condition is filed under an operand of a parameter. -/
def WAFCondition.HasKey (lib : Library F R A N) (param value : Str) (c : WAFCondition) : Prop :=
  c.keyed lib = true ∧ c.param = param ∧ c.value = value

instance (lib : Library F R A N) (param value : Str) (c : WAFCondition) :
    Decidable (c.HasKey lib param value) :=
  inferInstanceAs (Decidable (_ ∧ _))

/-- An index holds the conditions on a parameter. -/
structure ParamIndex.IndexOf (lib : Library F R A N) (conds : List WAFCondition) (param : Str)
    (idx : ParamIndex F R N) : Prop where
  /-- The automaton is not built yet. -/
  aho_eq : idx.aho = none
  /-- A scan finds the conditions that are not filed by their operand. -/
  scans_iff : ∀ value present n, idx.Scans lib value present n ↔
    ∃ c, conds[n]? = some c ∧ c.param = param ∧ c.keyed lib = false ∧
      c.satisfied lib value present = true
  /-- The map holds the last condition with an operand. -/
  equals_iff : ∀ value n, idx.equals.lookup value = some n ↔
    LastAt (WAFCondition.HasKey lib param value) conds n

theorem ParamIndex.indexOf_nil (lib : Library F R A N) (param : Str) :
    (ParamIndex.new : ParamIndex F R N).IndexOf lib [] param where
  aho_eq := rfl
  scans_iff value present n := by cases present <;> simp [new, Scans, signatures]
  equals_iff value n := by simp [new, LastAt]

variable {lib : Library F R A N} {conds : List WAFCondition} {idx : ParamIndex F R N}
  {c : WAFCondition} {ctx : RequestCtx A} {observed : Str → Str × Bool}

/-- A condition on another parameter needs no entry. -/
theorem ParamIndex.IndexOf.other {param : Str} (h : idx.IndexOf lib conds param)
    (hparam : c.param ≠ param) : idx.IndexOf lib (conds ++ [c]) param where
  aho_eq := h.aho_eq
  scans_iff value present n := by
    rw [h.scans_iff, exists_getElem?_concat]
    simp [hparam]
  equals_iff value n := by
    rw [h.equals_iff, lastAt_concat_of_neg]
    exact fun hkey => hparam hkey.2.1

/-- A condition on the parameter gets its entry. -/
theorem ParamIndex.IndexOf.file (h : idx.IndexOf lib conds c.param) :
    (idx.file lib c.param c.paramName c.operator c.value conds.length).IndexOf lib (conds ++ [c])
      c.param where
  aho_eq := by rw [(aho_equals_file lib idx c _).1, h.aho_eq]
  scans_iff value present n := by
    rw [scans_file, h.scans_iff, exists_getElem?_concat]
    simp
  equals_iff value n := by
    rw [(aho_equals_file lib idx c _).2]
    by_cases hkey : c.HasKey lib c.param value
    · obtain ⟨hkeyed, -, rfl⟩ := hkey
      rw [if_pos hkeyed, AList.lookup_insert, lastAt_concat_of_pos ⟨hkeyed, rfl, rfl⟩,
        Option.some.injEq]
    · rw [lastAt_concat_of_neg hkey, ← h.equals_iff]
      split
      · next hkeyed =>
        have hne : value ≠ c.value := fun heq => hkey ⟨hkeyed, rfl, heq.symm⟩
        rw [AList.lookup_insert_ne hne]
      · rfl

theorem indexOf_fileAll (lib : Library F R A N) (conds : List WAFCondition) (param : Str) :
    (((fileAll lib ∅ 0 conds).lookup param).getD .new).IndexOf lib conds param := by
  induction conds using List.reverseRecOn generalizing param with
  | nil => exact ParamIndex.indexOf_nil lib param
  | append_singleton conds c ih =>
    rw [fileAll_append, Nat.zero_add]
    simp only [fileAll, fileOne]
    by_cases hparam : param = c.param
    · subst hparam
      rw [AList.lookup_insert]
      exact (ih c.param).file
    · rw [AList.lookup_insert_ne hparam]
      exact (ih param).other fun heq => hparam heq.symm

theorem mem_fileAll (lib : Library F R A N) (conds : List WAFCondition) (param : Str) :
    param ∈ fileAll lib ∅ 0 conds ↔ ∃ c ∈ conds, c.param = param := by
  induction conds using List.reverseRecOn with
  | nil => simp [fileAll]
  | append_singleton conds c ih =>
    rw [fileAll_append]
    simp only [fileAll, fileOne, AList.mem_insert, ih, List.mem_append, List.mem_singleton,
      or_and_right, exists_or, exists_eq_left]
    rw [or_comm, eq_comm]

/-- A later condition takes the place of this one in the map of `equals`. -/
def Shadowed (lib : Library F R A N) (conds : List WAFCondition) (c : WAFCondition) (n : Nat) :
    Prop :=
  c.keyed lib = true ∧ ∃ c' ∈ conds.drop (n + 1), c'.HasKey lib c.param c.value

instance (lib : Library F R A N) (conds : List WAFCondition) (c : WAFCondition) (n : Nat) :
    Decidable (Shadowed lib conds c n) :=
  inferInstanceAs (Decidable (_ ∧ _))

theorem satisfied_of_keyed (hkeyed : c.keyed lib = true) (value : Str) (present : Bool) :
    c.satisfied lib value present = true ↔ present = true ∧ c.value = value := by
  simp only [WAFCondition.keyed, Bool.and_eq_true, decide_eq_true_eq] at hkeyed
  simp [WAFCondition.satisfied, satisfies, hkeyed, Operator.accepts]

/-- An index finds the conditions on its parameter that the value satisfies, except
those that are shadowed. -/
theorem ParamIndex.IndexOf.finds_iff {param : Str} (h : idx.IndexOf lib conds param) (value : Str)
    (present : Bool) (n : Nat) :
    idx.Scans lib value present n ∨ (present = true ∧ idx.equals.lookup value = some n) ↔
      ∃ c, conds[n]? = some c ∧ c.param = param ∧ c.satisfied lib value present = true ∧
        ¬ Shadowed lib conds c n := by
  rw [h.scans_iff, h.equals_iff]
  constructor
  · rintro (⟨c, hc, hparam, hscan, hsat⟩ | ⟨hpresent, ⟨c, hc, hkeyed, hparam, hvalue⟩, hlast⟩)
    · exact ⟨c, hc, hparam, hsat, fun hshadow => by simp [hshadow.1] at hscan⟩
    · refine ⟨c, hc, hparam, (satisfied_of_keyed hkeyed _ _).mpr ⟨hpresent, hvalue⟩, ?_⟩
      rintro ⟨-, c', hc', hkey⟩
      rw [hparam, hvalue] at hkey
      exact hlast c' hc' hkey
  · rintro ⟨c, hc, hparam, hsat, hshadow⟩
    cases hkeyed : c.keyed lib with
    | false => exact .inl ⟨c, hc, hparam, hkeyed, hsat⟩
    | true =>
      obtain ⟨hpresent, hvalue⟩ := (satisfied_of_keyed hkeyed _ _).mp hsat
      refine .inr ⟨hpresent, ⟨c, hc, hkeyed, hparam, hvalue⟩, fun c' hc' hkey => hshadow ?_⟩
      rw [← hparam, ← hvalue] at hkey
      exact ⟨hkeyed, c', hc', hkey⟩

/-- The value and the presence of a parameter that needs no name. -/
def observe (lib : Library F R A N) (ctx : RequestCtx A) (param : Str) : Str × Bool :=
  (ctx.get lib param []).1

/-- The condition with a number is satisfied by what is observed of its parameter and not shadowed.
-/
def Found (lib : Library F R A N) (conds : List WAFCondition) (observed : Str → Str × Bool)
    (n : Nat) (c : WAFCondition) : Prop :=
  conds[n]? = some c ∧
    c.satisfied lib (observed c.param).1 (observed c.param).2 = true ∧
    ¬ Shadowed lib conds c n

/-- What the indexes read of a request: each asks for its parameter under its own name. -/
def Reads (lib : Library F R A N) (conds : List WAFCondition) (ctx : RequestCtx A)
    (observed : Str → Str × Bool) : Prop :=
  ∀ param idx, (fileAll lib ∅ 0 conds).lookup param = some idx →
    (ctx.get lib param idx.name).1 = observed param

theorem exists_indexOf (lib : Library F R A N) (hc : c ∈ conds) :
    ∃ idx, (fileAll lib ∅ 0 conds).lookup c.param = some idx ∧ idx.IndexOf lib conds c.param := by
  have hin : c.param ∈ fileAll lib ∅ 0 conds := (mem_fileAll lib conds _).mpr ⟨c, hc, rfl⟩
  obtain ⟨idx, hlookup⟩ := Option.isSome_iff_exists.mp (AList.lookup_isSome.mpr hin)
  have hidx := indexOf_fileAll lib conds c.param
  rw [hlookup] at hidx
  exact ⟨idx, hlookup, hidx⟩

/-- Inspecting one parameter reads it from the request and marks what is found there. -/
theorem inspect_step (hfind : lib.FindsAll) {rs : RuleSet F R N}
    (hrs : ∀ param, rs.params.lookup param =
      ((fileAll lib ∅ 0 conds).lookup param).map ParamIndex.finalize) {start : RequestCtx A}
    (hreads : Reads lib conds start observed) (hctx : start.Agrees lib ctx) {c₀ : WAFCondition}
    (hc₀ : c₀ ∈ conds) (hbody : c₀.param = str "body" → start.SameBody ctx) (hits : List Bool) :
    ∃ name, (rs.inspect lib (ctx, hits) c₀.param).1 = (ctx.get lib c₀.param name).2 ∧
      Adds hits (rs.inspect lib (ctx, hits) c₀.param).2
        fun n => ∃ c, c.param = c₀.param ∧ Found lib conds observed n c := by
  obtain ⟨idx, hlookup, hidx⟩ := exists_indexOf lib hc₀
  have hname : idx.finalize.name = idx.name := by rw [ParamIndex.finalize_eq]
  have hvalue : (ctx.get lib c₀.param idx.name).1 = observed c₀.param :=
    (hctx.get_eq hbody _).trans (hreads c₀.param idx hlookup)
  have hstep : rs.inspect lib (ctx, hits) c₀.param =
      ((ctx.get lib c₀.param idx.name).2, idx.finalize.applyIndex lib hits
        (observed c₀.param).1 (observed c₀.param).2) := by
    simp only [RuleSet.inspect, hrs, hlookup, Option.map_some, hname, ← hvalue]
  rw [hstep]
  refine ⟨idx.name, rfl, ?_⟩
  refine (ParamIndex.adds_applyIndex hfind hidx.aho_eq hits _ _).congr fun n => ?_
  rw [hidx.finds_iff]
  refine exists_congr fun c => ?_
  constructor
  · rintro ⟨hc, hparam, hfound⟩
    exact ⟨hparam, hc, hparam ▸ hfound⟩
  · rintro ⟨hparam, hc, hfound⟩
    exact ⟨hc, hparam, hparam ▸ hfound⟩

/-- Inspecting parameters one after the other marks the conditions found on them. -/
theorem adds_inspect (hfind : lib.FindsAll) {rs : RuleSet F R N}
    (hrs : ∀ param, rs.params.lookup param =
      ((fileAll lib ∅ 0 conds).lookup param).map ParamIndex.finalize) {start : RequestCtx A}
    (hreads : Reads lib conds start observed) (hctx : start.Agrees lib ctx) {params : List Str}
    (hnodup : params.Nodup) (hmem : ∀ param ∈ params, ∃ c ∈ conds, c.param = param)
    (hbody : str "body" ∈ params → start.SameBody ctx) (hits : List Bool) :
    Adds hits (params.foldl (rs.inspect lib) (ctx, hits)).2
      fun n => ∃ c, c.param ∈ params ∧ Found lib conds observed n c := by
  induction params generalizing ctx hits with
  | nil => exact ⟨rfl, by simp⟩
  | cons param params ih =>
    obtain ⟨hnotMem, hrestNodup⟩ := List.nodup_cons.mp hnodup
    obtain ⟨c₀, hc₀, rfl⟩ := hmem param (by simp)
    obtain ⟨name, hnext, hadds⟩ := inspect_step hfind hrs hreads hctx hc₀
      (fun heq => hbody (by simp [heq])) hits
    rw [List.foldl_cons]
    generalize rs.inspect lib (ctx, hits) c₀.param = next at hnext hadds ⊢
    obtain ⟨ctx', hits'⟩ := next
    obtain rfl : ctx' = (ctx.get lib c₀.param name).2 := hnext
    -- no parameter comes twice, so the body is untouched as long as its turn is ahead
    have hbodyRest : str "body" ∈ params → start.SameBody (ctx.get lib c₀.param name).2 := by
      intro hlater
      have hne : c₀.param ≠ str "body" := fun heq => hnotMem (heq ▸ hlater)
      exact (hbody (by simp [hlater])).get hne _
    have hrest := ih (hctx.get c₀.param name) hrestNodup
      (fun param hparam => hmem param (by simp [hparam])) hbodyRest hits'
    refine (hadds.trans hrest).congr fun n => ?_
    simp only [List.mem_cons, or_and_right, exists_or]

theorem lookup_ruleSet (lib : Library F R A N) (p : WAFLocationConfig F) (maxBodySize : Int64)
    (param : Str) :
    (p.ruleSet lib maxBodySize).params.lookup param =
      ((fileAll lib ∅ 0 (conditionsOf p.rules)).lookup param).map ParamIndex.finalize := by
  have hlookup := Map.lookup_foldl_insert ParamIndex.finalize
    (fileAll lib ∅ 0 (conditionsOf p.rules)) ∅ param
  simpa [WAFLocationConfig.ruleSet, finalizeIndexes] using hlookup

theorem mem_keys_ruleSet (lib : Library F R A N) (p : WAFLocationConfig F) (maxBodySize : Int64)
    (param : Str) :
    param ∈ (p.ruleSet lib maxBodySize).params.keys ↔
      ∃ c ∈ conditionsOf p.rules, c.param = param := by
  rw [← AList.mem_keys, ← AList.lookup_isSome, lookup_ruleSet, Option.isSome_map,
    AList.lookup_isSome, mem_fileAll]

/-- `evaluate` marks the conditions that are satisfied by what the indexes read and that are not
shadowed. -/
theorem hit_inspectAll_of_reads (hfind : lib.FindsAll) {p : WAFLocationConfig F}
    (hreads : Reads lib (conditionsOf p.rules) ctx observed) (order : KeyOrder)
    (maxBodySize : Int64) {n : Nat} (hc : (conditionsOf p.rules)[n]? = some c) :
    Hit ((p.ruleSet lib maxBodySize).inspectAll lib order ctx).2 n ↔
      c.satisfied lib (observed c.param).1 (observed c.param).2 = true ∧
        ¬ Shadowed lib (conditionsOf p.rules) c n := by
  set rs := p.ruleSet lib maxBodySize with hrs
  have hperm := order.perm rs.params.keys
  have hadds := adds_inspect hfind (lookup_ruleSet lib p maxBodySize) hreads
    (RequestCtx.Agrees.refl lib ctx) (hperm.nodup_iff.mpr rs.params.nodupKeys)
    (fun param hparam => (mem_keys_ruleSet lib p maxBodySize param).mp (hperm.mem_iff.mp hparam))
    (fun _ => RequestCtx.SameBody.refl ctx) (List.replicate rs.condCount false)
  have hn : n < (List.replicate rs.condCount false).length := by
    rw [List.length_replicate]
    exact (List.getElem?_eq_some_iff.mp hc).1
  have hclear : ¬ Hit (List.replicate rs.condCount false) n := by
    simp [Hit, List.getElem?_replicate]
  rw [RuleSet.inspectAll, hadds.hit_iff n hn]
  constructor
  · rintro (hhit | ⟨c', -, hc', hfound⟩)
    · exact absurd hhit hclear
    · obtain rfl : c = c' := Option.some.inj (hc.symm.trans hc')
      exact hfound
  · intro hfound
    refine .inr ⟨c, hperm.mem_iff.mpr ?_, hc, hfound⟩
    exact (mem_keys_ruleSet lib p maxBodySize _).mpr ⟨c, List.mem_of_getElem? hc, rfl⟩

/-- `evaluate` marks the conditions the request satisfies and that are not shadowed. -/
theorem hit_inspectAll (hfind : lib.FindsAll) {p : WAFLocationConfig F}
    (hplain : ∀ c ∈ conditionsOf p.rules, c.Plain) (order : KeyOrder) (maxBodySize : Int64)
    (ctx : RequestCtx A) {n : Nat} (hc : (conditionsOf p.rules)[n]? = some c) :
    Hit ((p.ruleSet lib maxBodySize).inspectAll lib order ctx).2 n ↔
      c.satisfied lib (observe lib ctx c.param).1 (observe lib ctx c.param).2 = true ∧
        ¬ Shadowed lib (conditionsOf p.rules) c n := by
  -- The name that an index asks under does not matter for these parameters.
  have hreads : Reads lib (conditionsOf p.rules) ctx (observe lib ctx) := by
    intro param idx hlookup
    have hin := AList.lookup_isSome.mp (Option.isSome_of_mem hlookup)
    obtain ⟨c', hc', rfl⟩ := (mem_fileAll lib _ param).mp hin
    obtain ⟨-, harg, hheader⟩ := hplain c' hc'
    exact RequestCtx.get_name harg hheader ctx idx.name []
  exact hit_inspectAll_of_reads hfind hreads order maxBodySize hc

end Peretum.Waf
