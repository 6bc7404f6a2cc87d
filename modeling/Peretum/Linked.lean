import Mathlib.Data.List.Chain
import Mathlib.Data.List.Nodup
import Mathlib.Logic.Function.Basic

/-!
# Doubly linked lists

The nodes of a doubly linked list are seen as a list in which neighbours are linked both ways.
Taking a node out and putting one behind another are edits of a few links, and in this view they
remove and insert one element. Links may be nil, and an edit that follows such a link fails.
-/

namespace Linked

open Function

variable {Node : Type*}

/-- The links of nodes. -/
structure Links (Node : Type*) where
  next : Node → Option Node
  prev : Node → Option Node

namespace Links

/-- Neighbours in the list are linked both ways. -/
def Chained (L : Links Node) (l : List Node) : Prop :=
  l.IsChain fun x y => L.next x = some y ∧ L.prev y = some x

variable {L L' : Links Node}

theorem Chained.congr {l : List Node} (hl : L.Chained l)
    (hnext : ∀ x ∈ l.dropLast, L'.next x = L.next x)
    (hprev : ∀ x ∈ l.tail, L'.prev x = L.prev x) : L'.Chained l := by
  induction l with
  | nil => exact .nil
  | cons x l ih =>
    cases l with
    | nil => exact .singleton x
    | cons y l =>
      obtain ⟨⟨hxy, hyx⟩, hrest⟩ := List.isChain_cons_cons.mp hl
      refine List.isChain_cons_cons.mpr ⟨⟨?_, ?_⟩, ih hrest ?_ ?_⟩
      · rw [hnext x List.mem_cons_self, hxy]
      · rw [hprev y List.mem_cons_self, hyx]
      · exact fun z hz => hnext z (List.mem_cons_of_mem x hz)
      · exact fun z hz => hprev z (List.mem_cons_of_mem y hz)

theorem Chained.prev_last {x y : Node} {l : List Node} (hl : L.Chained (l ++ [x, y])) :
    L.prev y = some x := (List.isChain_append_cons_cons.mp hl).2.1.2

variable [DecidableEq Node]

/-- Set a link forward. -/
def setNext (L : Links Node) (x : Node) (y : Option Node) : Links Node :=
  { L with next := update L.next x y }

/-- Set a link backward. -/
def setPrev (L : Links Node) (x : Node) (y : Option Node) : Links Node :=
  { L with prev := update L.prev x y }

/-- Link the neighbours of a node to one another. -/
def unlink (L : Links Node) (x : Node) : Option (Links Node) :=
  (L.prev x).bind fun before =>
    let L := L.setNext before (L.next x)
    (L.next x).map fun after => L.setPrev after (L.prev x)

/-- Put a node behind another one. -/
def linkAfter (L : Links Node) (x y : Node) : Option (Links Node) :=
  let L := L.setNext y (L.next x)
  let L := L.setPrev y (some x)
  (L.next x).map fun after =>
    let L := L.setPrev after (some y)
    L.setNext x (some y)

theorem Chained.unlink {before after : List Node} {x : Node} (hbefore : before ≠ [])
    (hafter : after ≠ []) (hl : L.Chained (before ++ x :: after))
    (hnodup : (before ++ x :: after).Nodup) :
    ∃ L', L.unlink x = some L' ∧ L'.Chained (before ++ after) := by
  obtain ⟨before, a, rfl⟩ : ∃ l a, before = l ++ [a] :=
    ⟨_, _, (List.dropLast_append_getLast hbefore).symm⟩
  obtain ⟨b, after, rfl⟩ := List.exists_cons_of_ne_nil hafter
  rw [List.append_assoc, List.singleton_append] at hl hnodup ⊢
  obtain ⟨hfront, ⟨hax, hxa⟩, hrest⟩ := List.isChain_append_cons_cons.mp hl
  obtain ⟨⟨hxb, hbx⟩, hback⟩ := List.isChain_cons_cons.mp hrest
  obtain ⟨-, hnodup, hdisjoint⟩ := List.nodup_append.mp hnodup
  simp only [List.nodup_cons, List.mem_cons, not_or] at hnodup
  obtain ⟨⟨hne, hab, ha⟩, -, hb, -⟩ := hnodup
  refine ⟨(L.setNext a (some b)).setPrev b (some a), ?_, ?_⟩
  · have hnext : (L.setNext a (some b)).next x = some b := by
      simp [setNext, update_of_ne (Ne.symm hne), hxb]
    have hprev : (L.setNext a (some b)).prev x = some a := hxa
    rw [Links.unlink, hxa, Option.bind_some, hxb]
    simp only [hnext, hprev, Option.map_some]
  · refine List.isChain_append_cons_cons.mpr ⟨?_, ⟨?_, ?_⟩, ?_⟩
    · refine Chained.congr hfront (fun y hy => ?_) fun y hy => ?_
      · rw [List.dropLast_concat] at hy
        exact update_of_ne (hdisjoint y hy a (by simp)) _ _
      · rcases List.mem_append.mp (List.mem_of_mem_tail hy) with hy | hy
        · exact update_of_ne (hdisjoint y hy b (by simp)) _ _
        · obtain rfl := List.mem_singleton.mp hy
          exact update_of_ne hab _ _
    · exact update_self ..
    · exact update_self ..
    · refine Chained.congr hback (fun y hy => ?_) fun y hy => ?_
      · refine update_of_ne ?_ _ _
        rintro rfl
        rcases List.mem_cons.mp (List.dropLast_subset _ hy) with rfl | hy
        · exact hab rfl
        · exact ha hy
      · refine update_of_ne ?_ _ _
        rintro rfl
        exact hb hy

theorem Chained.linkAfter {x y : Node} {after : List Node} (hafter : after ≠ [])
    (hl : L.Chained (x :: after)) (hnodup : (x :: after).Nodup) (hy : y ∉ x :: after) :
    ∃ L', L.linkAfter x y = some L' ∧ L'.Chained (x :: y :: after) := by
  obtain ⟨b, after, rfl⟩ := List.exists_cons_of_ne_nil hafter
  obtain ⟨⟨hxb, hbx⟩, hback⟩ := List.isChain_cons_cons.mp hl
  simp only [List.nodup_cons, List.mem_cons, not_or] at hnodup hy
  obtain ⟨⟨hxb', hx⟩, hb, -⟩ := hnodup
  obtain ⟨hyx, hyb, hynot⟩ := hy
  refine ⟨(((L.setNext y (some b)).setPrev y (some x)).setPrev b (some y)).setNext x (some y),
    ?_, ?_⟩
  · have hnext : ((L.setNext y (some b)).setPrev y (some x)).next x = some b := by
      simp [setNext, setPrev, update_of_ne (Ne.symm hyx), hxb]
    rw [Links.linkAfter, hxb]
    simp only [hnext, Option.map_some]
  · refine List.isChain_cons_cons.mpr ⟨⟨?_, ?_⟩, List.isChain_cons_cons.mpr ⟨⟨?_, ?_⟩, ?_⟩⟩
    · simp [setNext, setPrev]
    · simp [setNext, setPrev, update_of_ne hyb]
    · simp [setNext, setPrev, update_of_ne hyx]
    · simp [setNext, setPrev]
    · refine Chained.congr hback (fun z hz => ?_) fun z hz => ?_
      · have hz' := List.dropLast_subset _ hz
        have hzx : z ≠ x := by
          rintro rfl
          rcases List.mem_cons.mp hz' with rfl | hz'
          · exact hxb' rfl
          · exact hx hz'
        have hzy : z ≠ y := by
          rintro rfl
          rcases List.mem_cons.mp hz' with rfl | hz'
          · exact hyb rfl
          · exact hynot hz'
        simp [setNext, setPrev, update_of_ne hzx, update_of_ne hzy]
      · have hzb : z ≠ b := by
          rintro rfl
          exact hb hz
        have hzy : z ≠ y := by
          rintro rfl
          exact hynot hz
        simp [setNext, setPrev, update_of_ne hzb, update_of_ne hzy]

end Links

end Linked
