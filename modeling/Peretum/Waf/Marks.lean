import Peretum.Waf.Signatures

/-!
# What an index marks

`applyIndex` marks the conditions of one parameter that a value satisfies. Here
this is said as a property of the lists an index is made of, with the conditions
found by the map of `equals` apart from those found by a scan: a scan reports every
condition that was ever filed, the map only the last one for each value.
-/

namespace Peretum.Waf

open Go

variable {F R A N : Type}

/-- The condition is marked. -/
def Hit (hits : List Bool) (n : Nat) : Prop := hits[n]? = some true

/-- Some marks become others by setting those of the given conditions. -/
structure Adds (hits hits' : List Bool) (P : Nat → Prop) : Prop where
  /-- The number of conditions stays. -/
  length_eq : hits'.length = hits.length
  hit_iff : ∀ n, n < hits.length → (Hit hits' n ↔ Hit hits n ∨ P n)

theorem Adds.trans {a b c : List Bool} {P Q : Nat → Prop} (hab : Adds a b P) (hbc : Adds b c Q) :
    Adds a c fun n => P n ∨ Q n where
  length_eq := hbc.length_eq.trans hab.length_eq
  hit_iff n hn := by
    rw [hbc.hit_iff n (by rw [hab.length_eq]; exact hn), hab.hit_iff n hn, or_assoc]

theorem Adds.congr {a b : List Bool} {P Q : Nat → Prop} (hab : Adds a b P)
    (hiff : ∀ n, P n ↔ Q n) : Adds a b Q where
  length_eq := hab.length_eq
  hit_iff n hn := by rw [hab.hit_iff n hn, hiff]

theorem adds_set (hits : List Bool) (cid : Nat) : Adds hits (hits.set cid true) (cid = ·) where
  length_eq := List.length_set
  hit_iff n hn := by
    unfold Hit
    rw [List.getElem?_set]
    by_cases hcid : cid = n
    · simp [hcid, hn]
    · simp [hcid]

theorem adds_markIf {α : Type} (test : α → Bool) (condID : α → Nat) (entries : List α)
    (hits : List Bool) :
    Adds hits (markIf test condID entries hits)
      fun n => ∃ e ∈ entries, test e = true ∧ condID e = n := by
  induction entries generalizing hits with
  | nil => exact ⟨rfl, by simp [markIf]⟩
  | cons e entries ih =>
    by_cases hpass : test e = true
    · have hfirst := (adds_set hits (condID e)).trans (ih _)
      simpa [markIf, hpass] using hfirst
    · have hrest := ih hits
      simpa [markIf, hpass] using hrest

theorem adds_elim {β : Type} {hits : List Bool} {f : β → List Bool} {P : β → Nat → Prop}
    (hf : ∀ b, Adds hits (f b) (P b)) (o : Option β) :
    Adds hits (o.elim hits f) fun n => ∃ b, o = some b ∧ P b n := by
  cases o with
  | none => exact ⟨rfl, by simp⟩
  | some b => simpa using hf b

/-- An entry with the number of the condition passes the test. -/
def Filed {α : Type} (entries : List (Entry α)) (test : α → Bool) (n : Nat) : Prop :=
  ∃ e ∈ entries, test e.operand = true ∧ e.condID = n

theorem adds_filed {α : Type} (test : α → Bool) (entries : List (Entry α)) (hits : List Bool) :
    Adds hits (markIf (fun e => test e.operand) Entry.condID entries hits) (Filed entries test) :=
  adds_markIf _ _ _ _

theorem filed_any {α β : Type} {entries : List (Entry α)} {o : Option β} {test : β → α → Bool}
    {n : Nat} :
    (∃ b, o = some b ∧ Filed entries (test b) n) ↔
      Filed entries (fun x => o.any fun b => test b x) n := by
  cases o <;> simp [Filed]

@[simp] theorem filed_nil {α : Type} {test : α → Bool} {n : Nat} :
    ¬ Filed ([] : List (Entry α)) test n := by
  simp [Filed]

@[simp] theorem filed_concat {α : Type} {entries : List (Entry α)} {operand : α} {condID : Nat}
    {test : α → Bool} {n : Nat} :
    Filed (entries ++ [⟨operand, condID⟩]) test n ↔
      Filed entries test n ∨ (condID = n ∧ test operand = true) := by
  unfold Filed
  simp only [List.mem_append, List.mem_singleton, or_and_right, exists_or, exists_eq_left,
    and_comm (a := condID = n)]

namespace ParamIndex

/-- The condition `n` is found by looking through the lists of the index. -/
def Scans (lib : Library F R A N) (idx : ParamIndex F R N) (value : Str) : Bool → Nat → Prop
  | false, n => n ∈ idx.notExists
  | true, n => n ∈ idx.existing ∨
      Filed idx.signatures (fun p => p ≠ [] && contains (lib.toLower value) p) n ∨
      Filed idx.prefixes (hasPrefix value) n ∨ Filed idx.suffixes (hasSuffix value) n ∨
      Filed idx.regexes (lib.matchString · value) n ∨
      Filed idx.ins (·.passes (· == value)) n ∨
      Filed idx.ipNets
        (fun l => (lib.parseIP (trimSpace value)).any fun ip => l.passes (lib.contains · ip)) n ∨
      Filed idx.numGt (fun th => (lib.parseFloat (trimSpace value)).any fun x => lib.lt th x) n ∨
      Filed idx.numLt (fun th => (lib.parseFloat (trimSpace value)).any fun x => lib.lt x th) n

theorem finalize_eq (idx : ParamIndex F R N) :
    idx.finalize = { idx with aho := idx.finalize.aho } := by
  unfold finalize
  split <;> rfl

/-- An index marks the conditions it finds, and the one its map holds for the value. -/
theorem adds_applyIndex {lib : Library F R A N} (hfind : lib.FindsAll)
    {idx : ParamIndex F R N} (hnew : idx.aho = none) (hits : List Bool) (value : Str)
    (present : Bool) :
    Adds hits (idx.finalize.applyIndex lib hits value present) fun n =>
      idx.Scans lib value present n ∨ (present = true ∧ idx.equals.lookup value = some n) := by
  rw [finalize_eq]
  have hpresence := (adds_markIf (fun _ => present) id idx.existing hits).trans
    (adds_markIf (fun _ => !present) id idx.notExists _)
  cases present with
  | false => simpa [applyIndex, Scans] using hpresence
  | true =>
    have hsigns := hpresence.trans (adds_elim (fun m => adds_markIf (fun _ => true) id
      (m.matchText lib (lib.toLower value)) _) idx.finalize.aho)
    have hequals := hsigns.trans (adds_elim (adds_set _) (idx.equals.lookup value))
    have hprefixes := hequals.trans (adds_filed (hasPrefix value) idx.prefixes _)
    have hsuffixes := hprefixes.trans (adds_filed (hasSuffix value) idx.suffixes _)
    have hregexes := hsuffixes.trans (adds_filed (lib.matchString · value) idx.regexes _)
    have hins := hregexes.trans (adds_filed (·.passes (· == value)) idx.ins _)
    have hipNets := hins.trans (adds_elim
      (fun ip => adds_filed (·.passes (lib.contains · ip)) idx.ipNets _)
      (lib.parseIP (trimSpace value)))
    have hall := hipNets.trans (adds_elim
      (fun num => (adds_filed (lib.lt · num) idx.numGt _).trans
        (adds_filed (lib.lt num ·) idx.numLt _))
      (lib.parseFloat (trimSpace value)))
    refine hall.congr fun n => ?_
    have hautomaton : (∃ m, idx.finalize.aho = some m ∧ n ∈ m.matchText lib (lib.toLower value)) ↔
        Filed idx.signatures (fun p => p ≠ [] && contains (lib.toLower value) p) n := by
      simpa [Filed] using mem_matchText_finalize hfind hnew (lib.toLower value) n
    simp only [Scans, ← hautomaton, and_or_left, exists_or, filed_any, id_eq, true_and,
      Bool.not_true, Bool.false_eq_true, false_and, and_false, exists_false, or_false,
      exists_eq_right]
    -- the same disjunction, with the map of `equals` in its place among the lists
    exact iff_of_eq (by ac_rfl)

end ParamIndex

end Peretum.Waf
