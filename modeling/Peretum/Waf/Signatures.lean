import Peretum.Waf.Evaluate

/-!
# Signature matching

`finalizeIndexes` merges equal patterns of a parameter, drops the empty ones, and
hands the rest to the automaton. The conditions a scan reports are those whose
pattern is not empty and occurs in the text.
-/

namespace Peretum.Waf

open Go

variable {F R A N : Type}

theorem infix_iff_occursAt {text pattern : Str} :
    pattern <:+: text ↔ ∃ start, OccursAt text pattern start := by
  constructor
  · rintro ⟨before, after, rfl⟩
    refine ⟨before.length, after, ?_⟩
    simp [List.append_assoc]
  · rintro ⟨start, hstart⟩
    exact hstart.isInfix.trans (List.drop_suffix start text).isInfix

/-- A search that tries every pattern at every position. -/
def searchAll (patterns : List Str) (text : Str) : List Match :=
  patterns.zipIdx.flatMap fun e =>
    ((List.range (text.length + 1)).filter fun start => hasPrefix (text.drop start) e.1).map
      fun start => ⟨e.2, start⟩

/-- This search reports the occurrences of non-empty patterns. -/
theorem mem_searchAll {patterns : List Str} (hpatterns : [] ∉ patterns) (text : Str) (m : Match) :
    m ∈ searchAll patterns text ↔
      ∃ pattern, patterns[m.patternID]? = some pattern ∧ OccursAt text pattern m.start := by
  simp only [searchAll, List.mem_flatMap, List.mem_map, List.mem_filter, List.mem_range,
    hasPrefix_iff]
  constructor
  · rintro ⟨⟨pattern, pid⟩, hpid, start, ⟨-, hoccurs⟩, rfl⟩
    exact ⟨pattern, List.mem_zipIdx_iff_getElem?.mp hpid, hoccurs⟩
  · rintro ⟨pattern, hpattern, hoccurs⟩
    refine ⟨(pattern, m.patternID), List.mem_zipIdx_iff_getElem?.mpr hpattern, m.start,
      ⟨?_, hoccurs⟩, rfl⟩
    -- past the end of the text only the empty pattern occurs
    by_contra hpast
    have hdrop : text.drop m.start = [] := List.drop_eq_nil_of_le (by omega)
    rw [OccursAt, hdrop, List.prefix_nil] at hoccurs
    exact hpatterns (hoccurs ▸ List.mem_of_getElem? hpattern)

/-- The merged patterns carry exactly the conditions of the pairs merged so far. -/
structure Merged.Holds (m : Merged) (done : List (Str × Nat)) : Prop where
  length_eq : m.condMap.length = m.patterns.length
  numbered : ∀ p pid, m.patternMap.lookup p = some pid → m.patterns[pid]? = some p
  /-- A condition is listed for a pattern exactly if the pair was merged. -/
  conds : ∀ p n, (∃ (pid : Nat) (ids : List Nat),
    m.patterns[pid]? = some p ∧ m.condMap[pid]? = some ids ∧ n ∈ ids) ↔ (p, n) ∈ done

theorem Merged.holds_nil : ({} : Merged).Holds [] where
  length_eq := rfl
  numbered := by simp
  conds := by simp

variable {m : Merged} {done : List (Str × Nat)} {lib : Library F R A N}

/-- A further condition of a known pattern joins the pattern's list. -/
private theorem Merged.Holds.known (hm : m.Holds done) {p : Str} {cond pid : Nat}
    (hpid : m.patternMap.lookup p = some pid) :
    Merged.Holds { m with condMap := m.condMap.modify pid (· ++ [cond]) }
      (done ++ [(p, cond)]) where
  length_eq := by simpa using hm.length_eq
  numbered := hm.numbered
  conds := by
    have hp : m.patterns[pid]? = some p := hm.numbered p pid hpid
    intro q n
    rw [List.mem_append, ← hm.conds q n]
    constructor
    · rintro ⟨i, ids, hq, hids, hn⟩
      rw [List.getElem?_modify] at hids
      by_cases hi : pid = i
      · subst hi
        obtain rfl : q = p := Option.some.inj (hq.symm.trans hp)
        simp only [if_true, Option.map_eq_map, Option.map_eq_some_iff] at hids
        obtain ⟨old, hold, rfl⟩ := hids
        rcases List.mem_append.mp hn with hn | hn
        · exact .inl ⟨pid, old, hq, hold, hn⟩
        · exact .inr (by simp_all)
      · simp only [if_neg hi, Option.map_eq_map, Option.map_id_fun', id_eq] at hids
        exact .inl ⟨i, ids, hq, hids, hn⟩
    · rintro (⟨i, ids, hq, hids, hn⟩ | hnew)
      · refine ⟨i, if pid = i then ids ++ [cond] else ids, hq, ?_, ?_⟩
        · rw [List.getElem?_modify, hids]
          split <;> rfl
        · split <;> simp [hn]
      · obtain ⟨rfl, rfl⟩ : q = p ∧ n = cond := by simpa using hnew
        have hlt : pid < m.condMap.length := by
          rw [hm.length_eq]
          exact (List.getElem?_eq_some_iff.mp hp).1
        refine ⟨pid, m.condMap[pid] ++ [n], hp, ?_, by simp⟩
        simp [List.getElem?_eq_getElem hlt]

/-- The first condition of a new pattern starts a list. -/
private theorem Merged.Holds.fresh (hm : m.Holds done) (p : Str) (cond : Nat) :
    Merged.Holds
      { patternMap := m.patternMap.insert p m.patterns.length
        patterns := m.patterns ++ [p]
        condMap := m.condMap ++ [[cond]] } (done ++ [(p, cond)]) where
  length_eq := by simp [hm.length_eq]
  numbered := by
    intro q pid hq
    by_cases hqp : q = p
    · subst hqp
      rw [AList.lookup_insert] at hq
      cases hq
      simp
    · rw [AList.lookup_insert_ne hqp] at hq
      have hold := hm.numbered q pid hq
      rw [List.getElem?_append_left (List.getElem?_eq_some_iff.mp hold).1, hold]
  conds := by
    intro q n
    rw [List.mem_append, ← hm.conds q n]
    constructor
    · rintro ⟨i, ids, hq, hids, hn⟩
      by_cases hi : i < m.patterns.length
      · rw [List.getElem?_append_left hi] at hq
        rw [List.getElem?_append_left (by rw [hm.length_eq]; exact hi)] at hids
        exact .inl ⟨i, ids, hq, hids, hn⟩
      · obtain rfl : i = m.patterns.length := by
          have hlast := (List.getElem?_eq_some_iff.mp hq).1
          simp only [List.length_append, List.length_singleton] at hlast
          omega
        rw [List.getElem?_concat_length, Option.some.injEq] at hq
        rw [← hm.length_eq, List.getElem?_concat_length, Option.some.injEq] at hids
        subst hq hids
        exact .inr (by simpa using hn)
    · rintro (⟨i, ids, hq, hids, hn⟩ | hnew)
      · refine ⟨i, ids, ?_, ?_, hn⟩
        · rw [List.getElem?_append_left (List.getElem?_eq_some_iff.mp hq).1, hq]
        · rw [List.getElem?_append_left (List.getElem?_eq_some_iff.mp hids).1, hids]
      · obtain ⟨rfl, rfl⟩ : q = p ∧ n = cond := by simpa using hnew
        exact ⟨m.patterns.length, [n], by simp, by simp [← hm.length_eq], by simp⟩

theorem Merged.Holds.add (hm : m.Holds done) (p : Str) (cond : Nat) :
    (m.add p cond).Holds (done ++ [(p, cond)]) := by
  unfold Merged.add
  cases hpid : m.patternMap.lookup p with
  | some pid => exact hm.known hpid
  | none => exact hm.fresh p cond

theorem Merged.Holds.addAll (hm : m.Holds done) (pairs : List (Str × Nat)) :
    (pairs.foldl (fun m e => m.add e.1 e.2) m).Holds (done ++ pairs) := by
  induction pairs generalizing m done with
  | nil => simpa using hm
  | cons e pairs ih => simpa using ih (hm.add e.1 e.2)

/-- Skipping the matches of a pattern seen before loses no condition. -/
private theorem mem_foldl_match {condMap : List (List Nat)} (found : List Match)
    {acc : List Nat × List Nat}
    (hseen : ∀ pid ∈ acc.1, ∀ n ∈ condMap.getD pid [], n ∈ acc.2) (n : Nat) :
    n ∈ (found.foldl (fun (acc : List Nat × List Nat) m =>
        if m.patternID ∈ acc.1 then acc
        else (m.patternID :: acc.1, acc.2 ++ condMap.getD m.patternID [])) acc).2 ↔
      n ∈ acc.2 ∨ ∃ m ∈ found, n ∈ condMap.getD m.patternID [] := by
  induction found generalizing acc with
  | nil => simp
  | cons m found ih =>
    rw [List.foldl_cons, List.exists_mem_cons_iff, ← or_assoc]
    by_cases hm : m.patternID ∈ acc.1
    · rw [if_pos hm, ih hseen]
      have hold : n ∈ condMap.getD m.patternID [] → n ∈ acc.2 := hseen _ hm n
      rw [or_iff_left_of_imp hold]
    · rw [if_neg hm, ih, List.mem_append]
      intro pid hpid k hk
      rcases List.mem_cons.mp hpid with rfl | hpid
      · exact List.mem_append_right _ hk
      · exact List.mem_append_left _ (hseen pid hpid k hk)

/-- A matcher over non-empty patterns reports the conditions of the patterns that
occur in the text. -/
theorem mem_matchText (hfind : lib.FindsAll) {table : List (Str × List Nat)}
    (hnonEmpty : ∀ e ∈ table, e.1 ≠ []) (text : Str) (n : Nat) :
    n ∈ AhoMatcher.matchText lib ⟨table.map Prod.fst, table.map Prod.snd⟩ text ↔
      ∃ e ∈ table, e.1 <:+: text ∧ n ∈ e.2 := by
  unfold AhoMatcher.matchText
  split
  · next htext =>
    subst htext
    simp only [List.not_mem_nil, List.infix_nil, false_iff, not_exists, not_and]
    exact fun e he hempty => absurd hempty (hnonEmpty e he)
  · have hpatterns : [] ∉ table.map Prod.fst := by
      intro hmem
      obtain ⟨e, he, hempty⟩ := List.mem_map.mp hmem
      exact hnonEmpty e he hempty
    rw [mem_foldl_match _ (by simp)]
    simp only [List.not_mem_nil, false_or, hfind _ _ hpatterns]
    constructor
    · rintro ⟨m, ⟨pattern, hpattern, hoccurs⟩, hn⟩
      rw [List.getElem?_map, Option.map_eq_some_iff] at hpattern
      obtain ⟨e, he, rfl⟩ := hpattern
      refine ⟨e, List.mem_of_getElem? he, infix_iff_occursAt.mpr ⟨m.start, hoccurs⟩, ?_⟩
      simpa [he] using hn
    · rintro ⟨e, he, hinfix, hn⟩
      obtain ⟨pid, hpid⟩ := List.getElem?_of_mem he
      obtain ⟨start, hoccurs⟩ := infix_iff_occursAt.mp hinfix
      exact ⟨⟨pid, start⟩, ⟨e.1, by simp [hpid], hoccurs⟩, by simpa [hpid] using hn⟩

/-- The matcher reports the conditions of the non-empty patterns that occur in the
text; without such patterns there is no matcher. -/
theorem mem_buildAhoMatcher (hfind : lib.FindsAll) (patterns : List Str) (condMap : List (List Nat))
    (text : Str) (n : Nat) :
    (∃ a, buildAhoMatcher patterns condMap = some a ∧ n ∈ a.matchText lib text) ↔
      ∃ e ∈ patterns.zip condMap, e.1 ≠ [] ∧ e.1 <:+: text ∧ n ∈ e.2 := by
  set table := (patterns.zip condMap).filter fun e => e.1 ≠ [] with htable
  have hnonEmpty : ∀ e ∈ table, e.1 ≠ [] := by simp [htable]
  have hbuild : buildAhoMatcher patterns condMap =
      if table = [] then none else some ⟨table.map Prod.fst, table.map Prod.snd⟩ := rfl
  have hreports : (∃ a, buildAhoMatcher patterns condMap = some a ∧ n ∈ a.matchText lib text) ↔
      ∃ e ∈ table, e.1 <:+: text ∧ n ∈ e.2 := by
    rw [hbuild]
    split
    · next hnil => simp [hnil]
    · simp [mem_matchText hfind hnonEmpty]
  rw [hreports]
  simp only [htable, List.mem_filter, decide_eq_true_eq, and_assoc]

/-- The `contains` conditions of an index with their patterns. -/
def ParamIndex.signatures (idx : ParamIndex F R N) : List (Entry Str) :=
  List.zipWith Entry.mk idx.containsPatterns idx.containsConds

/-- The automaton of a finished index reports exactly the `contains` conditions whose
pattern is not empty and occurs in the text. -/
theorem ParamIndex.mem_matchText_finalize (hfind : lib.FindsAll) {idx : ParamIndex F R N}
    (hnew : idx.aho = none) (text : Str) (n : Nat) :
    (∃ m, idx.finalize.aho = some m ∧ n ∈ m.matchText lib text) ↔
      ∃ e ∈ idx.signatures, (e.operand ≠ [] ∧ e.operand <:+: text) ∧ e.condID = n := by
  have hpairs : ∀ pattern, (pattern, n) ∈ idx.containsPatterns.zip idx.containsConds ↔
      ⟨pattern, n⟩ ∈ idx.signatures := by
    simp [signatures, List.zip, List.mem_iff_getElem?, List.getElem?_zipWith_eq_some]
  have hmerged := Merged.holds_nil.addAll (idx.containsPatterns.zip idx.containsConds)
  unfold ParamIndex.finalize
  split
  · next hempty => simp [hnew, hempty, signatures]
  · refine (mem_buildAhoMatcher hfind _ _ _ n).trans ?_
    constructor
    · rintro ⟨⟨pattern, ids⟩, hzip, hpattern, hinfix, hn⟩
      obtain ⟨pid, hpid⟩ := List.getElem?_of_mem hzip
      obtain ⟨hp, hids⟩ := List.getElem?_zip_eq_some.mp hpid
      have hmem := (hmerged.conds pattern n).mp ⟨pid, ids, hp, hids, hn⟩
      exact ⟨⟨pattern, n⟩, (hpairs pattern).mp hmem, ⟨hpattern, hinfix⟩, rfl⟩
    · rintro ⟨⟨pattern, _⟩, hmem, ⟨hpattern, hinfix⟩, rfl⟩
      obtain ⟨pid, ids, hp, hids, hn⟩ := (hmerged.conds pattern _).mpr ((hpairs pattern).mpr hmem)
      refine ⟨(pattern, ids), List.mem_of_getElem? (i := pid) ?_, hpattern, hinfix, hn⟩
      exact List.getElem?_zip_eq_some.mpr ⟨hp, hids⟩

end Peretum.Waf
