import Mathlib.Data.List.Nodup
import Mathlib.Logic.Function.Basic

/-!
# Recency lists

A recency list holds the keys of an index, the one used last in front. Every key has
an element of its own in the list, which the index remembers, so that it can be moved
or taken out without a search. This file says when such a list belongs to an index and
to the last uses of its keys, and that pushing, moving and taking out keep it so. The
back of the list is then the key whose last use is the oldest.
-/

namespace Recency

open Function

variable {Element Key : Type*}

/-- A list holds the keys of an index with their elements, the last used key first. -/
structure Ordered (last : Key → Nat) (place : Key → Option Element) (l : List (Element × Key)) :
    Prop where
  /-- The list holds what the index remembers. -/
  mem_iff : ∀ x, x ∈ l ↔ place x.2 = some x.1
  nodup : (l.map Prod.fst).Nodup
  /-- A key in front of another one was used later. -/
  sorted : l.Pairwise fun x y => last y.2 < last x.2

theorem ordered_nil {last : Key → Nat} {place : Key → Option Element}
    (hplace : ∀ key, place key = none) : Ordered last place [] :=
  ⟨fun x => by simp [hplace], List.nodup_nil, .nil⟩

namespace Ordered

variable {last last' : Key → Nat} {place place' : Key → Option Element}
  {l : List (Element × Key)} {key : Key} {e : Element}

theorem congr (hl : Ordered last place l) (hplace : ∀ k, place' k = place k)
    (hlast : ∀ k e, place k = some e → last' k = last k) : Ordered last' place' l := by
  refine ⟨fun x => by rw [hplace]; exact hl.mem_iff x, hl.nodup, ?_⟩
  refine hl.sorted.imp_of_mem fun {x y} hx hy hlt => ?_
  rw [hlast _ _ ((hl.mem_iff x).mp hx), hlast _ _ ((hl.mem_iff y).mp hy)]
  exact hlt

theorem key_eq (hl : Ordered last place l) (hkey : place key = some e) {x : Element × Key}
    (hx : x ∈ l) (he : x.1 = e) : x = (e, key) := by
  have hmem : (e, key) ∈ l := (hl.mem_iff (e, key)).mpr hkey
  exact List.inj_on_of_nodup_map hl.nodup hx hmem he

theorem filter_eq [DecidableEq Element] [DecidableEq Key] (hl : Ordered last place l)
    (hkey : place key = some e) :
    l.filter (fun x => x.1 ≠ e) = l.filter (fun x => x.2 ≠ key) := by
  refine List.filter_congr fun x hx => ?_
  have hiff : x.1 = e ↔ x.2 = key := by
    constructor
    · intro he
      rw [hl.key_eq hkey hx he]
    · intro hk
      have hplace := (hl.mem_iff x).mp hx
      rw [hk, hkey] at hplace
      exact (Option.some.inj hplace).symm
  simp only [ne_eq, hiff]

theorem filter_self [DecidableEq Element] [DecidableEq Key] (hl : Ordered last place l)
    (hkey : place key = some e) : l.filter (fun x => x.1 = e) = [(e, key)] := by
  have hcongr : l.filter (fun x => x.1 = e) = l.filter (fun x => x = (e, key)) := by
    refine List.filter_congr fun x hx => ?_
    rw [decide_eq_decide]
    exact ⟨hl.key_eq hkey hx, fun heq => by rw [heq]⟩
  have hcount : l.count (e, key) = 1 :=
    List.count_eq_one_of_mem hl.nodup.of_map ((hl.mem_iff (e, key)).mpr hkey)
  rw [hcongr, List.filter_eq, hcount, List.replicate_one]

theorem nodup_keys (hl : Ordered last place l) : (l.map Prod.snd).Nodup := by
  refine List.pairwise_map.mpr (hl.sorted.imp fun {x y} hlt heq => ?_)
  rw [heq] at hlt
  exact Nat.lt_irrefl _ hlt

theorem erase [DecidableEq Element] (hl : Ordered last place l) (hkey : place key = some e)
    (hself : place' key = none) (hother : ∀ k, k ≠ key → place' k = place k) :
    Ordered last place' (l.filter fun x => x.1 ≠ e) := by
  have hsub : (l.filter fun x => x.1 ≠ e).Sublist l := List.filter_sublist
  refine ⟨fun x => ?_, hl.nodup.sublist (hsub.map _), hl.sorted.sublist hsub⟩
  rw [List.mem_filter, decide_eq_true_iff]
  by_cases hk : x.2 = key
  · rw [hk, hself, hl.mem_iff, hk, hkey]
    constructor
    · rintro ⟨he, hne⟩
      exact absurd (Option.some.inj he).symm hne
    · simp
  · rw [hother _ hk, ← hl.mem_iff]
    refine and_iff_left_of_imp fun hx he => hk ?_
    rw [hl.key_eq hkey hx he]

theorem push [DecidableEq Key] (hl : Ordered last place l) (hnew : place key = none)
    (hfresh : ∀ x ∈ l, x.1 ≠ e) {time : Nat} (htime : ∀ k, last k < time)
    (hself : place' key = some e) (hother : ∀ k, k ≠ key → place' k = place k) :
    Ordered (update last key time) place' ((e, key) :: l) := by
  have hne : ∀ x ∈ l, x.2 ≠ key := by
    intro x hx hk
    have hplace := (hl.mem_iff x).mp hx
    rw [hk, hnew] at hplace
    cases hplace
  refine ⟨fun x => ?_, ?_, ?_⟩
  · obtain ⟨e', k⟩ := x
    by_cases hk : k = key
    · subst hk
      have hnot : (e', k) ∉ l := fun hx => hne _ hx rfl
      simp [hnot, hself, eq_comm]
    · rw [List.mem_cons, hl.mem_iff, hother k hk]
      simp [hk]
  · rw [List.map_cons, List.nodup_cons]
    refine ⟨fun hmem => ?_, hl.nodup⟩
    obtain ⟨x, hx, he⟩ := List.mem_map.mp hmem
    exact hfresh x hx he
  · rw [List.pairwise_cons]
    constructor
    · intro x hx
      rw [update_of_ne (hne x hx), update_self]
      exact htime x.2
    · refine hl.sorted.imp_of_mem fun {x y} hx hy hlt => ?_
      rwa [update_of_ne (hne x hx), update_of_ne (hne y hy)]

theorem moveToFront [DecidableEq Element] [DecidableEq Key] (hl : Ordered last place l)
    (hkey : place key = some e) {time : Nat} (htime : ∀ k, last k < time) :
    Ordered (update last key time) place
      (l.filter (fun x => x.1 = e) ++ l.filter (fun x => x.1 ≠ e)) := by
  have hrest : Ordered last (update place key none) (l.filter fun x => x.1 ≠ e) :=
    hl.erase hkey (update_self ..) fun k hk => update_of_ne hk ..
  rw [hl.filter_self hkey, List.singleton_append]
  refine hrest.push (update_self ..) ?_ htime hkey ?_
  · intro x hx
    simpa using (List.mem_filter.mp hx).2
  · exact fun k hk => (update_of_ne hk ..).symm

/-- The back of the list is a key whose last use is the oldest. -/
theorem oldest (hl : Ordered last place l) {x : Element × Key} (hback : l.getLast? = some x)
    {k : Key} {e' : Element} (hk : place k = some e') : last x.2 ≤ last k := by
  obtain ⟨front, hfront⟩ := List.getLast?_eq_some_iff.mp hback
  have hmem : (e', k) ∈ front ++ [x] := hfront ▸ (hl.mem_iff (e', k)).mpr hk
  have hsorted := hl.sorted
  rw [hfront, List.pairwise_append] at hsorted
  rcases List.mem_append.mp hmem with hin | hlast
  · exact Nat.le_of_lt (hsorted.2.2 _ hin x List.mem_cons_self)
  · obtain rfl := List.mem_singleton.mp hlast
    exact Nat.le_refl _

end Ordered

end Recency
