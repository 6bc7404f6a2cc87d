import Mathlib.Data.List.TakeWhile
import Peretum.Go.Decimal

/-!
# Addresses with a port

`net.SplitHostPort` takes an address apart at its last colon. The host is in brackets if it has
colons, and brackets occur nowhere else.
-/

namespace Go

/-- What is before and after the last occurrence of a byte. -/
def cutLast (sep : UInt8) : Str → Option (Str × Str)
  | [] => none
  | b :: t =>
      match cutLast sep t with
      | some (before, after) => some (b :: before, after)
      | none => if b = sep then some ([], t) else none

/-- `net.SplitHostPort`, without its errors. -/
def splitHostPort (hostport : Str) : Option (Str × Str) :=
  match cutLast 0x3A hostport with
  | none => none
  | some (before, port) =>
      if hasPrefix hostport (str "[") then
        -- the first closing bracket is expected just before the last colon
        let host := hostport.takeWhile (· ≠ 0x5D)
        if before = host ++ [0x5D] ∧ 0x5B ∉ hostport.drop 1 ∧ 0x5D ∉ port then
          some (host.drop 1, port)
        else none
      else if 0x3A ∈ before ∨ 0x5B ∈ hostport ∨ 0x5D ∈ hostport then none
      else some (before, port)

theorem cutLast_eq_none_iff {sep : UInt8} {s : Str} : cutLast sep s = none ↔ sep ∉ s := by
  induction s with
  | nil => simp [cutLast]
  | cons b t ih =>
    rw [cutLast]
    cases hcut : cutLast sep t with
    | some parts =>
      have hmem : sep ∈ t := not_not.mp fun h => by simp [ih.mpr h] at hcut
      simp [hmem]
    | none => simp [ih.mp hcut, eq_comm]

theorem cutLast_append {sep : UInt8} (before : Str) {after : Str} (hafter : sep ∉ after) :
    cutLast sep (before ++ sep :: after) = some (before, after) := by
  induction before with
  | nil =>
    rw [List.nil_append, cutLast, cutLast_eq_none_iff.mpr hafter]
    exact if_pos rfl
  | cons b before ih => rw [List.cons_append, cutLast, ih]

/-- The parts are around an occurrence, and there is none in the second. -/
theorem cutLast_eq_some_iff {sep : UInt8} {s before after : Str} :
    cutLast sep s = some (before, after) ↔ s = before ++ sep :: after ∧ sep ∉ after := by
  constructor
  · intro hcut
    induction s generalizing before after with
    | nil => cases hcut
    | cons b t ih =>
      rw [cutLast] at hcut
      split at hcut
      · next u v hrest =>
        cases hcut
        obtain ⟨rfl, hnotMem⟩ := ih hrest
        exact ⟨rfl, hnotMem⟩
      · next hrest =>
        split at hcut
        · next hb =>
          cases hcut
          exact ⟨by rw [hb, List.nil_append], cutLast_eq_none_iff.mp hrest⟩
        · cases hcut
  · rintro ⟨rfl, hafter⟩
    exact cutLast_append before hafter

/-- Neither bracket occurs. -/
def NoBrackets (s : Str) : Prop := 0x5B ∉ s ∧ 0x5D ∉ s

instance (s : Str) : Decidable (NoBrackets s) :=
  decidable_of_iff ((!s.contains 0x5B && !s.contains 0x5D) = true) (by simp [NoBrackets])

theorem noBrackets_append {s t : Str} : NoBrackets (s ++ t) ↔ NoBrackets s ∧ NoBrackets t := by
  simp only [NoBrackets, List.mem_append, not_or]
  tauto

theorem Digits.noBrackets {s : Str} (hs : Digits s) : NoBrackets s :=
  ⟨hs.notMem (by decide), hs.notMem (by decide)⟩

theorem takeWhile_bracket {host rest : Str} (hhost : 0x5D ∉ host) :
    (0x5B :: host ++ 0x5D :: rest).takeWhile (· ≠ 0x5D) = 0x5B :: host := by
  rw [List.takeWhile_append_of_pos, List.takeWhile_cons_of_neg (by decide), List.append_nil]
  intro b hb
  rcases List.mem_cons.mp hb with rfl | hb
  · decide
  · exact decide_eq_true fun h => hhost (h ▸ hb)

section Split

variable {s host port : Str}

theorem splitHostPort_plain (hhost : NoBrackets host) (hport : NoBrackets port)
    (hplain : 0x3A ∉ host) (hcolon : 0x3A ∉ port) :
    splitHostPort (host ++ 0x3A :: port) = some (host, port) := by
  have hbrackets : NoBrackets (host ++ 0x3A :: port) :=
    noBrackets_append.mpr ⟨hhost, by simpa [NoBrackets] using hport⟩
  have hstart : ¬ hasPrefix (host ++ 0x3A :: port) (str "[") = true := fun h => by
    obtain ⟨t, ht⟩ := (hasPrefix_singleton (b := 0x5B)).mp h
    exact hbrackets.1 (ht ▸ List.mem_cons_self)
  rw [splitHostPort, cutLast_append _ hcolon]
  dsimp only
  rw [if_neg hstart, if_neg]
  simp [hplain, hbrackets.1, hbrackets.2]

theorem splitHostPort_bracketed (hhost : NoBrackets host) (hport : NoBrackets port)
    (hcolon : 0x3A ∉ port) :
    splitHostPort ((0x5B :: host ++ [0x5D]) ++ 0x3A :: port) = some (host, port) := by
  have hstart : hasPrefix ((0x5B :: host ++ [0x5D]) ++ 0x3A :: port) (str "[") = true :=
    (hasPrefix_singleton (b := 0x5B)).mpr ⟨_, rfl⟩
  rw [splitHostPort, cutLast_append _ hcolon]
  dsimp only
  rw [if_pos hstart, List.append_assoc, List.singleton_append, takeWhile_bracket hhost.2, if_pos]
  · rfl
  · refine ⟨rfl, ?_, hport.2⟩
    simp [hhost.1, hport.1]

/-- An address is split at its last colon, with brackets around the host or without. -/
theorem of_splitHostPort (hsplit : splitHostPort s = some (host, port)) :
    NoBrackets host ∧ NoBrackets port ∧ 0x3A ∉ port ∧
      (0x3A ∉ host ∧ s = host ++ 0x3A :: port ∨
        s = (0x5B :: host ++ [0x5D]) ++ 0x3A :: port) := by
  rw [splitHostPort] at hsplit
  split at hsplit
  · cases hsplit
  · next before after hcut =>
    obtain ⟨hs, hcolon⟩ := cutLast_eq_some_iff.mp hcut
    split at hsplit
    · next hstart =>
      obtain ⟨t, rfl⟩ := (hasPrefix_singleton (b := 0x5B)).mp hstart
      dsimp only at hsplit
      split at hsplit
      · next hexpected =>
        obtain ⟨hbefore, hopen, hclose⟩ := hexpected
        cases hsplit
        have hrest : t = (t.takeWhile (· ≠ 0x5D) ++ [0x5D]) ++ 0x3A :: port := by
          rw [hbefore] at hs
          exact (List.cons.inj hs).2
        refine ⟨⟨fun h => hopen (List.takeWhile_subset _ h), fun h => ?_⟩,
          ⟨fun h => hopen ?_, hclose⟩, hcolon, .inr (hbefore ▸ hs)⟩
        · exact absurd (List.mem_takeWhile_imp h) (by decide)
        · rw [List.drop_succ_cons, List.drop_zero, hrest]
          exact List.mem_append_right _ (List.mem_cons_of_mem _ h)
      · cases hsplit
    · split at hsplit
      · cases hsplit
      · next hnone =>
        cases hsplit
        simp only [not_or] at hnone
        obtain ⟨hplain, hopen, hclose⟩ := hnone
        have hbrackets : NoBrackets (host ++ [0x3A] ++ port) := by
          rw [List.append_assoc, List.singleton_append, ← hs]
          exact ⟨hopen, hclose⟩
        obtain ⟨hhost, hport⟩ := noBrackets_append.mp hbrackets
        exact ⟨(noBrackets_append.mp hhost).1, hport, hcolon, .inl ⟨hplain, hs⟩⟩

end Split

example : splitHostPort (str "[::1]:80") = some (str "::1", str "80") := by decide

end Go
