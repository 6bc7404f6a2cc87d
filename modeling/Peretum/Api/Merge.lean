import Peretum.Api.Flat
import Peretum.Nested

/-!
# Merging nested maps

`mergeMaps` writes a nested map into another one, in place and in the order in which Go ranges
over the maps. This file has it with nil maps, to which nothing can be assigned, with any other
values, and with the executions for all orders. Every execution goes through unless a nil map is
to be written to, and then what the result holds at a path is determined by what the two maps
hold there. `PatchTarget` reads a nil map from an empty file.
-/

namespace Peretum.Api.Merge

open Go Nested

variable {V : Type}

/-- `mergeMaps` in the order in which the entries are listed. There is no result if a key of a
nil map is assigned. A map that is merged in place stays under its key. -/
def mergeMaps (dst : Dict Str V) : List (Str × Value Str V) → Option (Dict Str V)
  | [] => some dst
  | (k, v) :: src =>
      match dst.get k, v with
      | some (.map dstMap), .map srcMap =>
          (mergeMaps dstMap (Dict.entries srcMap)).bind fun merged =>
            (dst.set k (.map merged)).bind fun dst => mergeMaps dst src
      | _, v => (dst.set k v).bind fun dst => mergeMaps dst src
  termination_by src => sizeOf src
  decreasing_by
    · have hentries := Dict.sizeOf_entries_le srcMap
      simp only [List.cons.sizeOf_spec, Prod.mk.sizeOf_spec, Value.map.sizeOf_spec]
      omega
    · simp only [List.cons.sizeOf_spec]
      omega
    · simp only [List.cons.sizeOf_spec]
      omega

/-- The value under a key and the one to be merged in are maps both. -/
def BothMaps (old : Option (Value Str V)) (v : Value Str V) : Prop :=
  ∃ d s, old = some (.map d) ∧ v = .map s

/-- The executions of `mergeMaps`: a `range` takes any of the remaining entries next. The outcome
is `none` for a panic. -/
inductive Merges : Dict Str V → List (Str × Value Str V) → Option (Dict Str V) → Prop where
  | done (dst : Dict Str V) : Merges dst [] (some dst)
  /-- Two maps are merged. -/
  | nested {dst dst' d s m : Dict Str V} {src rest : List (Str × Value Str V)} {k : Str}
      {outcome : Option (Dict Str V)} (hperm : src.Perm ((k, .map s) :: rest))
      (hget : dst.get k = some (.map d)) (hmerge : Merges d s.entries (some m))
      (hset : dst.set k (.map m) = some dst') (hrest : Merges dst' rest outcome) :
      Merges dst src outcome
  /-- Merging two maps panics. -/
  | nestedPanic {dst d s : Dict Str V} {src rest : List (Str × Value Str V)} {k : Str}
      (hperm : src.Perm ((k, .map s) :: rest)) (hget : dst.get k = some (.map d))
      (hmerge : Merges d s.entries none) : Merges dst src none
  | write {dst dst' : Dict Str V} {src rest : List (Str × Value Str V)} {k : Str}
      {v : Value Str V} {outcome : Option (Dict Str V)} (hperm : src.Perm ((k, v) :: rest))
      (hboth : ¬ BothMaps (dst.get k) v) (hset : dst.set k v = some dst')
      (hrest : Merges dst' rest outcome) : Merges dst src outcome
  /-- Writing to a nil map panics. -/
  | writePanic {dst : Dict Str V} {src rest : List (Str × Value Str V)} {k : Str}
      {v : Value Str V} (hperm : src.Perm ((k, v) :: rest))
      (hboth : ¬ BothMaps (dst.get k) v) (hset : dst.set k v = none) : Merges dst src none

theorem merges_mergeMaps (dst : Dict Str V) (src : List (Str × Value Str V)) :
    Merges dst src (mergeMaps dst src) := by
  fun_induction mergeMaps dst src with
  | case1 dst => exact .done dst
  | case2 dst k src dstMap srcMap hget ihMap ihRest =>
    cases hmerge : mergeMaps dstMap (Dict.entries srcMap) with
    | none =>
      rw [hmerge] at ihMap
      exact .nestedPanic (.refl _) hget ihMap
    | some merged =>
      rw [hmerge] at ihMap
      obtain ⟨dst', hset⟩ : ∃ dst', dst.set k (.map merged) = some dst' :=
        Option.ne_none_iff_exists'.mp fun h =>
          Dict.ne_none_of_get hget (Dict.set_eq_none_iff.mp h)
      rw [Option.bind_some, hset, Option.bind_some]
      exact .nested (.refl _) hget ihMap hset (ihRest dst')
  | case3 dst k src v hcase ihRest =>
    have hboth : ¬ BothMaps (dst.get k) v := fun ⟨d, s, hget, hv⟩ => hcase d s hget hv
    cases hset : dst.set k v with
    | none => exact .writePanic (.refl _) hboth hset
    | some dst' => exact .write (.refl _) hboth hset (ihRest dst')

/-- An entry that is taken next, in a map whose keys are distinct. -/
structure Taken (src : List (Str × Value Str V)) (k : Str) (v : Value Str V)
    (rest : List (Str × Value Str V)) : Prop where
  lookup_self : src.lookup k = some v
  lookup_rest : rest.lookup k = none
  lookup_ne : ∀ j, j ≠ k → rest.lookup j = src.lookup j
  distinct : Distinct (.map (some rest))

variable {k : Str} {v : Value Str V} {src dst r : Dict Str V} {path : List Str}

theorem taken_of_perm {src rest : List (Str × Value Str V)} (hsrc : Distinct (.map (some src)))
    (hperm : src.Perm ((k, v) :: rest)) : Taken src k v rest := by
  have hnodup : (src.map Prod.fst).Nodup := hsrc.nodup
  have hlookup := lookup_perm hperm hnodup
  obtain ⟨hk, hrest⟩ := List.nodup_cons.mp ((hperm.map Prod.fst).nodup_iff.mp hnodup)
  have hne : ∀ j, j ≠ k → rest.lookup j = src.lookup j := by
    intro j hj
    rw [hlookup, lookup_cons_ne hj]
  refine ⟨?_, lookup_eq_none hk, hne, Distinct.of_get hrest fun j w hj => ?_⟩
  · rw [hlookup, List.lookup_cons_self]
  · have hj' : j ≠ k := by
      rintro rfl
      exact absurd ((lookup_eq_none hk).symm.trans hj) (by simp)
    exact hsrc.get ((hne j hj').symm.trans hj)

theorem distinct_entries {m : Dict Str V} (hm : Distinct (.map m)) :
    Distinct (.map (some m.entries)) :=
  Distinct.of_get hm.nodup fun _ _ hget => hm.get hget

/-- What a merge leaves under a key that held a value, or nothing, before. -/
inductive Merged : Option (Value Str V) → Option (Value Str V) → Option (Value Str V) → Prop where
  | kept (old : Option (Value Str V)) : Merged old none old
  | nested {d s m : Dict Str V} (hmerge : Merges d s.entries (some m)) :
      Merged (some (.map d)) (some (.map s)) (some (.map m))
  | written {old : Option (Value Str V)} {v : Value Str V} (hboth : ¬ BothMaps old v) :
      Merged old (some v) (some v)

theorem Merged.eq_of_none {old new : Option (Value Str V)} (h : Merged old none new) :
    new = old := by
  cases h
  rfl

namespace Merges

variable {src : List (Str × Value Str V)} {outcome : Option (Dict Str V)}

/-- What an execution leaves under each key. -/
theorem get (h : Merges dst src outcome) (hsrc : Distinct (.map (some src)))
    (houtcome : outcome = some r) (j : Str) : Merged (dst.get j) (src.lookup j) (r.get j) := by
  induction h with
  | done dst =>
    cases houtcome
    exact .kept _
  | @nested dst dst' d s m src rest k outcome hperm hget hmerge hset _ _ ih =>
    have htaken := taken_of_perm hsrc hperm
    have hstep := ih htaken.distinct houtcome
    by_cases hj : j = k
    · subst hj
      -- No later entry has the key.
      rw [htaken.lookup_rest, Dict.get_set_self hset] at hstep
      rw [hget, htaken.lookup_self, hstep.eq_of_none]
      exact .nested hmerge
    · rwa [htaken.lookup_ne j hj, Dict.get_set_ne hset hj] at hstep
  | nestedPanic => cases houtcome
  | @write dst dst' src rest k v outcome hperm hboth hset _ ih =>
    have htaken := taken_of_perm hsrc hperm
    have hstep := ih htaken.distinct houtcome
    by_cases hj : j = k
    · subst hj
      rw [htaken.lookup_rest, Dict.get_set_self hset] at hstep
      rw [htaken.lookup_self, hstep.eq_of_none]
      exact .written hboth
    · rwa [htaken.lookup_ne j hj, Dict.get_set_ne hset hj] at hstep
  | writePanic => cases houtcome

/-- An execution makes no map nil, and no nil map another one. -/
theorem eq_none_iff (h : Merges dst src outcome) (houtcome : outcome = some r) :
    r = none ↔ dst = none := by
  induction h with
  | done dst =>
    cases houtcome
    rfl
  | nested _ hget _ hset _ _ ih =>
    rw [ih houtcome]
    exact iff_of_false (Dict.ne_none_of_set hset) (Dict.ne_none_of_get hget)
  | nestedPanic => cases houtcome
  | write _ _ hset _ ih =>
    rw [ih houtcome]
    refine iff_of_false (Dict.ne_none_of_set hset) fun hnone => ?_
    rw [Dict.set_eq_none_iff.mpr hnone] at hset
    cases hset
  | writePanic => cases houtcome

theorem eq_nil_of_none (h : Merges none src (some r)) : src = [] := by
  cases h with
  | done => rfl
  | nested _ hget => cases hget
  | write _ _ hset => cases hset

/-- An execution keeps the keys of the map apart. -/
theorem nodup (h : Merges dst src outcome) (houtcome : outcome = some r)
    (hdst : (dst.entries.map Prod.fst).Nodup) : (r.entries.map Prod.fst).Nodup := by
  induction h with
  | done dst =>
    cases houtcome
    exact hdst
  | nested _ _ _ hset _ _ ih => exact ih houtcome (Dict.nodup_set hset hdst)
  | nestedPanic => cases houtcome
  | write _ _ hset _ ih => exact ih houtcome (Dict.nodup_set hset hdst)
  | writePanic => cases houtcome

end Merges

section

variable (hsrc : Distinct (.map src)) (h : Merges dst src.entries (some r))

include hsrc h

theorem get_of_none (hnone : src.get k = none) : r.get k = dst.get k := by
  have hmerged : Merged (dst.get k) (src.get k) (r.get k) := h.get (distinct_entries hsrc) rfl k
  rw [hnone] at hmerged
  exact hmerged.eq_of_none

theorem get_of_maps {d s : Dict Str V} (hd : dst.get k = some (.map d))
    (hs : src.get k = some (.map s)) :
    ∃ m, r.get k = some (.map m) ∧ Merges d s.entries (some m) := by
  have hmerged : Merged (dst.get k) (src.get k) (r.get k) := h.get (distinct_entries hsrc) rfl k
  rw [hd, hs] at hmerged
  generalize r.get k = new at hmerged
  cases hmerged with
  | nested hmerge => exact ⟨_, rfl, hmerge⟩
  | written hboth => exact absurd ⟨d, s, rfl, rfl⟩ hboth

theorem get_of_not_bothMaps {v : Value Str V} (hv : src.get k = some v)
    (hboth : ¬ BothMaps (dst.get k) v) : r.get k = some v := by
  have hmerged : Merged (dst.get k) (src.get k) (r.get k) := h.get (distinct_entries hsrc) rfl k
  rw [hv] at hmerged
  generalize dst.get k = old, r.get k = new at hmerged hboth
  cases hmerged with
  | nested => exact absurd ⟨_, _, rfl, rfl⟩ hboth
  | written => rfl

end

/-- No value other than a map stands at a path or above it. -/
def Unvalued (src : Dict Str V) (path : List Str) : Prop :=
  ∀ p v, p <+: path → (Value.map src).follow p ≠ some (.other v)

theorem unvalued_of_none (hnone : src.get k = none) : Unvalued src (k :: path) := by
  intro p v hp hfollow
  cases p with
  | nil => cases hfollow
  | cons j p =>
    obtain ⟨rfl, -⟩ := List.cons_prefix_cons.mp hp
    rw [follow_cons, hnone] at hfollow
    cases hfollow

theorem unvalued_cons_iff {s : Dict Str V} (hget : src.get k = some (.map s)) :
    Unvalued src (k :: path) ↔ Unvalued s path := by
  constructor
  · intro h p v hp
    rw [← follow_of_get hget]
    exact h (k :: p) v (List.cons_prefix_cons.mpr ⟨rfl, hp⟩)
  · intro h p v hp
    cases p with
    | nil => exact fun hfollow => by cases hfollow
    | cons j p =>
      obtain ⟨rfl, hrest⟩ := List.cons_prefix_cons.mp hp
      rw [follow_of_get hget]
      exact h p v hrest

/-- What an execution leaves at a path: two maps merged, what was there, or what is merged in. -/
inductive MergedAt (dst src r : Dict Str V) (path : List Str) : Prop where
  | nested {d s m : Dict Str V} (hdst : (Value.map dst).follow path = some (.map d))
      (hsrc : (Value.map src).follow path = some (.map s))
      (hr : (Value.map r).follow path = some (.map m)) (hmerge : Merges d s.entries (some m))
  | kept (hsrc : (Value.map src).follow path = none) (habove : Unvalued src path)
      (hr : (Value.map r).follow path = (Value.map dst).follow path)
  /-- There are not two maps, and nothing is lost that is not replaced by a value. -/
  | written (hr : (Value.map r).follow path = (Value.map src).follow path)
      (hmaps : ∀ d s, (Value.map dst).follow path = some (.map d) →
        (Value.map src).follow path ≠ some (.map s))
      (hlost : Unvalued src path → (Value.map src).follow path = none →
        (Value.map dst).follow path = none)

/-- A value is written under a key unless it and the one there before are maps. -/
theorem MergedAt.of_written (hv : src.get k = some v) (hr : r.get k = some v)
    (hboth : ¬ BothMaps (dst.get k) v) (path : List Str) : MergedAt dst src r (k :: path) := by
  refine .written (by rw [follow_of_get hr, follow_of_get hv]) ?_ ?_
  · intro d s hd hs
    obtain ⟨w, hw, hrest⟩ := Option.bind_eq_some_iff.mp hd
    rw [follow_of_get hv] at hs
    obtain ⟨d, rfl⟩ := exists_map_of_follow hrest
    obtain ⟨s, rfl⟩ := exists_map_of_follow hs
    exact hboth ⟨d, s, hw, rfl⟩
  · intro habove hnone
    rw [follow_of_get hv] at hnone
    -- What is merged in is a map, so what it replaces is none and has nothing at the path.
    obtain ⟨s, rfl⟩ : ∃ s, v = .map s := by
      cases v with
      | map s => exact ⟨s, rfl⟩
      | other v =>
        exact absurd (follow_of_get hv []) (habove [k] v (List.prefix_append [k] path))
    cases path with
    | nil => cases hnone
    | cons j path =>
      cases hold : dst.get k with
      | none => rw [follow_cons, hold, Option.bind_none]
      | some old =>
        cases old with
        | other v => exact follow_of_get hold _
        | map d => exact absurd ⟨d, s, hold, rfl⟩ hboth

theorem mergedAt (hsrc : Distinct (.map src)) (h : Merges dst src.entries (some r))
    (path : List Str) : MergedAt dst src r path := by
  induction path generalizing dst src r with
  | nil => exact .nested rfl rfl rfl h
  | cons k path ih =>
    cases hv : src.get k with
    | none =>
      refine .kept ?_ (unvalued_of_none hv) ?_
      · rw [follow_cons, hv, Option.bind_none]
      · rw [follow_cons, follow_cons, get_of_none hsrc h hv]
    | some v =>
      by_cases hboth : BothMaps (dst.get k) v
      · obtain ⟨d, s, hd, rfl⟩ := hboth
        obtain ⟨m, hm, hmerge⟩ := get_of_maps hsrc h hd hv
        have hfollow := follow_of_get hv path
        cases ih (hsrc.get hv) hmerge with
        | nested hd' hs' hm' hmerge' =>
          exact .nested ((follow_of_get hd path).trans hd') (hfollow.trans hs')
            ((follow_of_get hm path).trans hm') hmerge'
        | kept hs' habove hr =>
          refine .kept (hfollow.trans hs') ((unvalued_cons_iff hv).mpr habove) ?_
          rw [follow_of_get hm, hr, follow_of_get hd]
        | written hr hmaps hlost =>
          refine .written ?_ ?_ ?_
          · rw [follow_of_get hm, hr, hfollow]
          · rw [hfollow, follow_of_get hd]
            exact hmaps
          · rw [hfollow, follow_of_get hd, unvalued_cons_iff hv]
            exact hlost
      · exact .of_written hv (get_of_not_bothMaps hsrc h hv hboth) hboth path

/-- Some key of the second map is to be written to a nil map of the first one: at some path there
is a map with entries in the second and a nil map in the first. -/
def NilTarget (dst src : Dict Str V) : Prop :=
  ∃ path s, (Value.map src).follow path = some (.map s) ∧ Dict.entries s ≠ [] ∧
    (Value.map dst).follow path = some (.map none)

theorem NilTarget.of_entries (h : NilTarget dst (some src.entries)) : NilTarget dst src := by
  cases src with
  | some entries => exact h
  | none =>
    obtain ⟨path, s, hfollow, hs, -⟩ := h
    cases path with
    | nil =>
      obtain rfl := Value.map.inj (Option.some.inj hfollow)
      exact absurd rfl hs
    | cons k path => cases hfollow

/-- An execution that goes through leaves no nil map where it had something to write. -/
theorem not_nilTarget_again (hsrc : Distinct (.map src)) (h : Merges dst src.entries (some r)) :
    ¬ NilTarget r src := by
  rintro ⟨path, s, hs, hentries, hnil⟩
  cases mergedAt hsrc h path with
  | nested _ hs' hr hmerge =>
    cases hs'.symm.trans hs
    cases hr.symm.trans hnil
    obtain rfl := (hmerge.eq_none_iff rfl).mp rfl
    exact hentries hmerge.eq_nil_of_none
  | kept hs' => cases hs'.symm.trans hs
  | written hr =>
    cases (hr.symm.trans hnil).symm.trans hs
    exact hentries rfl

/-- An execution that goes through has nothing to write to a nil map. -/
theorem not_nilTarget (hsrc : Distinct (.map src)) (h : Merges dst src.entries (some r)) :
    ¬ NilTarget dst src := by
  rintro ⟨path, s, hs, hentries, hnil⟩
  cases mergedAt hsrc h path with
  | nested hd hs' _ hmerge =>
    cases hs'.symm.trans hs
    cases hd.symm.trans hnil
    exact hentries hmerge.eq_nil_of_none
  | kept hs' => cases hs'.symm.trans hs
  | written _ hmaps => exact hmaps none s hnil hs

/-- What the remaining entries have to write to a nil map, all entries have. -/
theorem nilTarget_of_rest {dst' : Dict Str V} {src rest : List (Str × Value Str V)}
    {w : Value Str V} (htaken : Taken src k v rest) (hset : dst.set k w = some dst')
    (hrest : NilTarget dst' (some rest)) : NilTarget dst (some src) := by
  obtain ⟨path, s, hfollow, hs, hnone⟩ := hrest
  cases path with
  | nil => exact absurd (Value.map.inj (Option.some.inj hnone)) (Dict.ne_none_of_set hset)
  | cons j path =>
    have hj : j ≠ k := by
      rintro rfl
      have hget : Dict.get (some rest) j = none := htaken.lookup_rest
      rw [follow_cons, hget] at hfollow
      cases hfollow
    refine ⟨j :: path, s, ?_, hs, ?_⟩
    · rw [← hfollow, follow_cons, follow_cons]
      exact congrArg (·.bind fun v => v.follow path) (htaken.lookup_ne j hj).symm
    · rw [← hnone, follow_cons, follow_cons, Dict.get_set_ne hset hj]

theorem nilTarget_of_panic {src : List (Str × Value Str V)} {outcome : Option (Dict Str V)}
    (h : Merges dst src outcome) (hsrc : Distinct (.map (some src))) (houtcome : outcome = none) :
    NilTarget dst (some src) := by
  induction h with
  | done => cases houtcome
  | @nested dst dst' d s m src rest k outcome hperm hget hmerge hset _ _ ih =>
    have htaken := taken_of_perm hsrc hperm
    exact nilTarget_of_rest htaken hset (ih htaken.distinct houtcome)
  | @nestedPanic dst d s src rest k hperm hget _ ih =>
    have htaken := taken_of_perm hsrc hperm
    have hs : Distinct (.map s) := hsrc.get htaken.lookup_self
    obtain ⟨path, m, hfollow, hm, hnone⟩ := (ih (distinct_entries hs) rfl).of_entries
    refine ⟨k :: path, m, ?_, hm, ?_⟩
    · have hk : Dict.get (some src) k = some (.map s) := htaken.lookup_self
      rw [follow_cons, hk, Option.bind_some, hfollow]
    · rw [follow_cons, hget, Option.bind_some, hnone]
  | @write dst dst' src rest k v outcome hperm hboth hset _ ih =>
    have htaken := taken_of_perm hsrc hperm
    exact nilTarget_of_rest htaken hset (ih htaken.distinct houtcome)
  | @writePanic dst src rest k v hperm hboth hset =>
    refine ⟨[], some src, rfl, ?_, ?_⟩
    · rintro rfl
      exact absurd hperm.length_eq (by simp)
    · rw [Dict.set_eq_none_iff.mp hset]
      rfl

/-- An execution keeps the keys of all maps apart. -/
theorem distinct_of_merges (hsrc : Distinct (.map src)) (hdst : Distinct (.map dst))
    (h : Merges dst src.entries (some r)) : Distinct (.map r) := by
  intro path entries hfollow
  cases mergedAt hsrc h path with
  | @nested d _ _ hd _ hm hmerge =>
    cases hm.symm.trans hfollow
    refine hmerge.nodup rfl ?_
    cases d with
    | none => exact List.nodup_nil
    | some old => exact hdst path old hd
  | kept _ _ hr => exact hdst path entries (hr.symm.trans hfollow)
  | written hr => exact hsrc path entries (hr.symm.trans hfollow)

theorem sameAt_nil {a b : Dict Str V} (hnil : a = none ↔ b = none) :
    SameAt [] (.map a) (.map b) := by
  cases a with
  | none =>
    obtain rfl := hnil.mp rfl
    rfl
  | some entries =>
    cases b with
    | none => cases hnil.mpr rfl
    | some entries' => rfl

/-- Two executions leave the same. -/
theorem same_of_merges (hsrc : Distinct (.map src)) {r' : Dict Str V}
    (h : Merges dst src.entries (some r)) (h' : Merges dst src.entries (some r')) :
    Same (.map r) (.map r') := by
  intro path
  cases mergedAt hsrc h path with
  | nested hd hs hm hmerge =>
    cases mergedAt hsrc h' path with
    | nested hd' _ hm' hmerge' =>
      cases hd.symm.trans hd'
      rw [SameAt, hm, hm']
      exact sameAt_nil ((hmerge.eq_none_iff rfl).trans (hmerge'.eq_none_iff rfl).symm)
    | kept hs' => cases hs.symm.trans hs'
    | written _ hmaps => exact absurd hs (hmaps _ _ hd)
  | kept hs habove hr =>
    cases mergedAt hsrc h' path with
    | nested _ hs' => cases hs.symm.trans hs'
    | kept _ _ hr' => rw [SameAt, hr, hr']
    | written hr' _ hlost => rw [SameAt, hr, hr', hs, hlost habove hs]
  | written hr hmaps hlost =>
    cases mergedAt hsrc h' path with
    | nested hd hs => exact absurd hs (hmaps _ _ hd)
    | kept hs habove hr' => rw [SameAt, hr, hr', hs, hlost habove hs]
    | written hr' => rw [SameAt, hr, hr']

/-- A second execution changes nothing. -/
theorem same_of_merges_again (hsrc : Distinct (.map src)) {r' : Dict Str V}
    (h : Merges dst src.entries (some r)) (h' : Merges r src.entries (some r')) :
    Same (.map r') (.map r) := by
  intro path
  cases mergedAt hsrc h' path with
  | nested hr _ hr' hmerge =>
    rw [SameAt, hr, hr']
    exact sameAt_nil (hmerge.eq_none_iff rfl)
  | kept _ _ hr => rw [SameAt, hr]
  | written hr' hmaps hlost =>
    cases mergedAt hsrc h path with
    | nested _ hs hr => exact absurd hs (hmaps _ _ hr)
    | kept hs habove _ => rw [SameAt, hr', hs, hlost habove hs]
    | written hr => rw [SameAt, hr', hr]

/-- The laws of a merge for the result of one execution. -/
structure Lawful (dst src r : NestedMap Str V) : Prop where
  value : ∀ path v, src.follow path = some (.other v) → r.follow path = some (.other v)
  /-- A path keeps what it holds if neither it nor a value above it is merged in. -/
  kept : ∀ path, src.follow path = none →
    (∀ p v, p <+: path → src.follow p ≠ some (.other v)) → r.follow path = dst.follow path
  map : ∀ path s, src.follow path = some (.map s) → (∀ d, dst.follow path ≠ some (.map d)) →
    r.follow path = some (.map s)
  /-- No execution of a second merge panics or changes anything. -/
  again : ∀ outcome, Merges r.root src.root.entries outcome →
    ∃ r', outcome = some r' ∧ Same (.map r') (.map r.root)
  order : ∀ outcome, Merges dst.root src.root.entries outcome →
    ∃ r', outcome = some r' ∧ Same (.map r') (.map r.root)

/-- Executions go through if there is nothing to write to a nil map. -/
theorem exists_result (hsrc : Distinct (.map src)) (hnil : ¬ NilTarget dst src)
    {outcome : Option (Dict Str V)} (h : Merges dst src.entries outcome) : ∃ r, outcome = some r :=
  Option.ne_none_iff_exists'.mp fun hnone =>
    hnil (nilTarget_of_panic h (distinct_entries hsrc) hnone).of_entries

theorem lawful_of_merges {dst src r : NestedMap Str V}
    (h : Merges dst.root src.root.entries (some r.root)) : Lawful dst src r where
  value path v hfollow := by
    cases mergedAt src.distinct h path with
    | nested _ hs => cases hs.symm.trans hfollow
    | kept hs => cases hs.symm.trans hfollow
    | written hr => exact hr.trans hfollow
  kept path hfollow habove := by
    cases mergedAt src.distinct h path with
    | nested _ hs => cases hs.symm.trans hfollow
    | kept _ _ hr => exact hr
    | written hr _ hlost => exact (hr.trans hfollow).trans (hlost habove hfollow).symm
  map path s hfollow hdst := by
    cases mergedAt src.distinct h path with
    | nested hd => exact absurd hd (hdst _)
    | kept hs => cases hs.symm.trans hfollow
    | written hr => exact hr.trans hfollow
  again outcome hagain := by
    obtain ⟨r', rfl⟩ := exists_result src.distinct (not_nilTarget_again src.distinct h) hagain
    exact ⟨r', rfl, same_of_merges_again src.distinct h hagain⟩
  order outcome hother := by
    obtain ⟨r', rfl⟩ := exists_result src.distinct (not_nilTarget src.distinct h) hother
    exact ⟨r', rfl, same_of_merges src.distinct hother h⟩

/-- `mergeMaps` has a result and all its executions are lawful exactly if it has nothing to write
to a nil map. -/
theorem mergeMaps_lawful_iff (dst src : NestedMap Str V) :
    ((∃ r, mergeMaps dst.root src.root.entries = some r) ∧
      ∀ outcome, Merges dst.root src.root.entries outcome →
        ∃ r : NestedMap Str V, outcome = some r.root ∧ Lawful dst src r) ↔
      ¬ NilTarget dst.root src.root := by
  have hlisted := merges_mergeMaps dst.root src.root.entries
  constructor
  · rintro ⟨⟨r, hr⟩, -⟩
    rw [hr] at hlisted
    exact not_nilTarget src.distinct hlisted
  · intro hnil
    refine ⟨exists_result src.distinct hnil hlisted, fun outcome h => ?_⟩
    obtain ⟨r, rfl⟩ := exists_result src.distinct hnil h
    exact ⟨⟨r, distinct_of_merges src.distinct dst.distinct h⟩, rfl, lawful_of_merges h⟩

/-- What `PatchTarget` reads from an empty file: a nil map. -/
def emptyFile : NestedMap Str Yaml where
  root := none
  distinct := Distinct.of_get List.nodup_nil fun _ _ hget => by cases hget

def oneField : NestedMap Str Yaml where
  root := some [(str "server_name", .other (.scalar (str "a.com")))]
  distinct := by
    refine Distinct.of_get (List.nodup_singleton _) fun k v hget => ?_
    simp only [Dict.get, Dict.entries, Option.getD_some, List.lookup_cons, List.lookup_nil] at hget
    split at hget
    · cases hget
      exact distinct_other _
    · cases hget

/-- A patch of an empty file panics, in `mergeMaps` and so in `PatchTarget`. -/
theorem emptyFile_panics :
    (∀ outcome, Merges emptyFile.root oneField.root.entries outcome → outcome = none) ∧
      mergeMaps emptyFile.root oneField.root.entries = none ∧
      flatDocs.unmarshal [] = some none ∧
      patchTarget flatDocs (str "a.com") (some []) (str "server_name: a.com\n") =
        .error .nilMap := by
  have hnil : NilTarget emptyFile.root oneField.root := ⟨[], _, rfl, by decide, rfl⟩
  refine ⟨fun outcome h => ?_, mergeMaps.eq_def .., rfl, by decide⟩
  cases outcome with
  | none => rfl
  | some r => exact absurd hnil (not_nilTarget oneField.distinct h)

/-! ## The documents of targets -/

mutual

/-- A decoded value, which has no nil maps in it. -/
def ofYaml : Yaml → Value Str Yaml
  | .scalar text => .other (.scalar text)
  | .list items => .other (.list items)
  | .map entries => .map (some (ofEntries entries))

/-- The entries of a decoded map. -/
def ofEntries : Object → List (Str × Value Str Yaml)
  | [] => []
  | (k, v) :: m => (k, ofYaml v) :: ofEntries m

end

end Peretum.Api.Merge
