import Mathlib.Data.List.Perm.Basic

/-!
# Chains of responsibility

A chain passes a state from link to link until one of them answers. When no link changes
what the others would answer, the chain's answer is the first of the answers the links give
to the initial state. It is then the same in every order exactly if all links that answer
give the same answer.
-/

namespace Chains

variable {Link State Answer : Type*} (act : Link → State → Answer ⊕ State)

/-- The answer of a chain of links, each of which answers or passes a state on. -/
def run : List Link → State → Option Answer
  | [], _ => none
  | link :: links, s =>
      match act link s with
      | .inl a => some a
      | .inr t => run links t

/-- What a link answers, if it does. -/
def answer (link : Link) (s : State) : Option Answer := (act link s).getLeft?

/-- Where the invariant holds, the first link passes on no state in which the second would
answer otherwise. -/
def Unaffected (inv : State → Prop) (first second : Link) : Prop :=
  ∀ s t, inv s → act first s = .inr t → answer act second t = answer act second s

/-- A link keeps the invariant. -/
def Keeps (inv : State → Prop) (link : Link) : Prop :=
  ∀ s t, inv s → act link s = .inr t → inv t

/-- All links that answer give the same answer. -/
def Unanimous (links : List Link) (s : State) : Prop :=
  ∀ l ∈ links, ∀ m ∈ links, (answer act l s).isSome → (answer act m s).isSome →
    answer act l s = answer act m s

variable {act} {inv : State → Prop} {links : List Link}

/-- The answer of a chain whose links are described by other data. -/
theorem run_map {Data : Type*} (f : Data → Link) (data : List Data) (s : State) :
    run act (data.map f) s = run (fun d => act (f d)) data s := by
  induction data generalizing s with
  | nil => rfl
  | cons d data ih =>
    rw [List.map_cons, run, run]
    cases act (f d) s with
    | inl a => rfl
    | inr t => exact ih t

theorem run_eq_findSome? (hkeeps : ∀ link ∈ links, Keeps act inv link)
    (hunaffected : links.Pairwise (Unaffected act inv)) {s : State} (hs : inv s) :
    run act links s = links.findSome? (answer act · s) := by
  induction links generalizing s with
  | nil => rfl
  | cons link links ih =>
    obtain ⟨hfirst, hrest⟩ := List.pairwise_cons.mp hunaffected
    rw [run, List.findSome?_cons, answer]
    cases hlink : act link s with
    | inl a => rfl
    | inr t =>
      have ht := hkeeps link List.mem_cons_self s t hs hlink
      have hsame : ∀ later ∈ links, answer act later t = answer act later s :=
        fun later hlater => hfirst later hlater s t hs hlink
      simp only [Sum.getLeft?_inr]
      rw [ih (fun l hl => hkeeps l (List.mem_cons_of_mem _ hl)) hrest ht]
      rw [← List.head?_filterMap, ← List.head?_filterMap, List.filterMap_congr hsame]

theorem findSome?_of_unanimous {s : State} (hsame : Unanimous act links s) {l : Link}
    (hl : l ∈ links) {a : Answer} (ha : answer act l s = some a) :
    links.findSome? (answer act · s) = some a := by
  cases hfind : links.findSome? (answer act · s) with
  | none =>
    rw [List.findSome?_eq_none_iff.mp hfind l hl] at ha
    cases ha
  | some b =>
    obtain ⟨m, hm, hb⟩ := List.exists_of_findSome?_eq_some hfind
    rw [← hb, ← ha]
    exact hsame m hm l hl (by rw [hb, Option.isSome_some]) (by rw [ha, Option.isSome_some])

/-- When no link affects another, the answer is the same in every order exactly if the links
are unanimous. -/
theorem run_perm_iff (hkeeps : ∀ link ∈ links, Keeps act inv link)
    (hunaffected : links.Pairwise fun l m => Unaffected act inv l m ∧ Unaffected act inv m l)
    {s : State} (hs : inv s) :
    (∀ links', links'.Perm links → run act links' s = run act links s) ↔
      Unanimous act links s := by
  -- In every order the chain's answer is the first one.
  have hrun : ∀ links', links'.Perm links →
      run act links' s = links'.findSome? (answer act · s) := by
    intro links' hperm
    refine run_eq_findSome? (fun l hl => hkeeps l (hperm.mem_iff.mp hl)) ?_ hs
    have hboth := (hperm.pairwise_iff fun h => ⟨h.2, h.1⟩).mpr hunaffected
    exact hboth.imp And.left
  constructor
  · intro horder l hl m hm hanswers hanswers'
    obtain ⟨a, ha⟩ := Option.isSome_iff_exists.mp hanswers
    obtain ⟨b, hb⟩ := Option.isSome_iff_exists.mp hanswers'
    -- Each of the two links can be the first.
    have hfront : ∀ l ∈ links, ∀ a, answer act l s = some a → run act links s = some a := by
      intro l hl a ha
      obtain ⟨before, after, rfl⟩ := List.append_of_mem hl
      have hperm : (l :: (before ++ after)).Perm (before ++ l :: after) := List.perm_middle.symm
      rw [← horder _ hperm, hrun _ hperm, List.findSome?_cons, ha]
    rw [ha, hb, ← hfront l hl a ha, ← hfront m hm b hb]
  · intro hsame links' hperm
    rw [hrun links' hperm, hrun links (.refl _)]
    have hsame' : Unanimous act links' s := fun l hl m hm =>
      hsame l (hperm.mem_iff.mp hl) m (hperm.mem_iff.mp hm)
    cases hfind : links.findSome? (answer act · s) with
    | none =>
      refine List.findSome?_eq_none_iff.mpr fun l hl => ?_
      exact List.findSome?_eq_none_iff.mp hfind l (hperm.mem_iff.mp hl)
    | some a =>
      obtain ⟨l, hl, ha⟩ := List.exists_of_findSome?_eq_some hfind
      exact findSome?_of_unanimous hsame' (hperm.mem_iff.mpr hl) ha

end Chains
