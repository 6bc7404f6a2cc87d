import Mathlib.Data.List.Basic

/-!
# Readers and the texts they accept

A reader takes a value off the front of its input, or fails. It is specified by a
relation between texts and values: the reader succeeds exactly on the inputs that
begin with a text of a value, returns this value and consumes this text. Readers
specified so compose, and their texts are prefix-free: no reader accepts a text
that was cut short.
-/

namespace Formats

variable {σ ε α β : Type*}

/-- A reader returns a value and the input it has not consumed. -/
abbrev Reader (σ ε α : Type*) := List σ → Except ε (α × List σ)

/-- The reader accepts exactly the inputs that begin with a text of the value it returns,
and consumes this text. -/
def Reads (p : Reader σ ε α) (Text : List σ → α → Prop) : Prop :=
  ∀ input a rest, p input = .ok (a, rest) ↔ ∃ text, Text text a ∧ input = text ++ rest

/-- Read a value and pass it to the reader of the rest. -/
def andThen (first : Reader σ ε α) (next : α → Reader σ ε β) : Reader σ ε β := fun input =>
  match first input with
  | .error e => .error e
  | .ok (a, rest) => next a rest

/-- Fail if a condition holds, and read otherwise. -/
def refuse (c : Prop) [Decidable c] (e : ε) (p : Reader σ ε α) : Reader σ ε α := fun input =>
  if c then .error e else p input

/-- Return a value without consuming anything. -/
def done (a : α) : Reader σ ε α := fun input => .ok (a, input)

theorem andThen_eq_ok {first : Reader σ ε α} {next : α → Reader σ ε β} {input : List σ}
    {r : β × List σ} :
    andThen first next input = .ok r ↔
      ∃ a rest, first input = .ok (a, rest) ∧ next a rest = .ok r := by
  unfold andThen
  cases hfirst : first input with
  | error e => simp
  | ok p =>
    obtain ⟨a, rest⟩ := p
    simp

namespace Reads

variable {p : Reader σ ε α} {Text : List σ → α → Prop} {a : α}

theorem ok (hp : Reads p Text) {text : List σ} (htext : Text text a) (rest : List σ) :
    p (text ++ rest) = .ok (a, rest) :=
  (hp _ a rest).mpr ⟨text, htext, rfl⟩

theorem congr {Text' : List σ → α → Prop} (hp : Reads p Text)
    (hsame : ∀ text a, Text text a ↔ Text' text a) : Reads p Text' := by
  intro input a rest
  simp only [hp input a rest, hsame]

theorem done (a : α) :
    Reads (Formats.done a : Reader σ ε α) (fun text b => text = [] ∧ b = a) := by
  intro input b rest
  simp only [Formats.done, Except.ok.injEq, Prod.mk.injEq]
  constructor
  · rintro ⟨rfl, rfl⟩
    exact ⟨[], ⟨rfl, rfl⟩, rfl⟩
  · rintro ⟨text, ⟨rfl, rfl⟩, rfl⟩
    exact ⟨rfl, rfl⟩

theorem andThen {first : Reader σ ε α} {next : α → Reader σ ε β} {Text' : α → List σ → β → Prop}
    (hfirst : Reads first Text) (hnext : ∀ a, Reads (next a) (Text' a)) :
    Reads (Formats.andThen first next)
      (fun text b => ∃ a front back, Text front a ∧ Text' a back b ∧ text = front ++ back) := by
  intro input b rest
  rw [andThen_eq_ok]
  constructor
  · rintro ⟨a, middle, hread, hread'⟩
    obtain ⟨front, hfront, rfl⟩ := (hfirst input a middle).mp hread
    obtain ⟨back, hback, rfl⟩ := (hnext a middle b rest).mp hread'
    exact ⟨front ++ back, ⟨a, front, back, hfront, hback, rfl⟩, by rw [List.append_assoc]⟩
  · rintro ⟨text, ⟨a, front, back, hfront, hback, rfl⟩, rfl⟩
    refine ⟨a, back ++ rest, ?_, (hnext a).ok hback rest⟩
    rw [List.append_assoc]
    exact hfirst.ok hfront (back ++ rest)

/-- A check that may fail cuts the texts down to those of inputs that pass it. -/
theorem refuse (hp : Reads p Text) (c : Prop) [Decidable c] (e : ε) :
    Reads (Formats.refuse c e p) (fun text a => ¬ c ∧ Text text a) := by
  intro input a rest
  unfold Formats.refuse
  by_cases hc : c
  · simp [hc]
  · simp [hc, hp input a rest]

/-- No text begins with another one: two texts at the front of one input are the same and
have the same value. -/
theorem unique (hp : Reads p Text) {text text' rest rest' : List σ} {a' : α} (htext : Text text a)
    (htext' : Text text' a') (heq : text ++ rest = text' ++ rest') : a = a' ∧ text = text' := by
  have hread := hp.ok htext rest
  rw [heq, hp.ok htext' rest'] at hread
  obtain ⟨rfl, rfl⟩ := Prod.mk.inj (Except.ok.inj hread)
  exact ⟨rfl, List.append_cancel_right heq⟩

theorem error_of_truncated (hp : Reads p Text) {input lost : List σ}
    (htext : Text (input ++ lost) a) (hlost : lost ≠ []) : ∃ e, p input = .error e := by
  cases hread : p input with
  | error e => exact ⟨e, rfl⟩
  | ok r =>
    obtain ⟨b, rest⟩ := r
    obtain ⟨text, htext', rfl⟩ := (hp input b rest).mp hread
    -- The shorter text would be at the front of the whole one.
    have hfront : text ++ (rest ++ lost) = text ++ rest ++ lost ++ [] := by simp
    have hsame := (hp.unique htext' htext hfront).2
    have hlength := congrArg List.length hsame
    simp only [List.length_append] at hlength
    have hpos := List.length_pos_of_ne_nil hlost
    omega

end Reads

end Formats
