import Mathlib.Data.List.Basic

/-!
# Wrappers

A wrapper stands between a caller and what it wraps. It answers every call by calls of its own,
none or several, and makes some more when the caller is done. Wrappers can be stacked, and what
the stack makes of the calls is what the outer one makes of the calls of the inner one.
-/

namespace Wrapping

/-- A wrapper with a state. -/
structure Wrapper (State Call : Type*) where
  step : State → Call → State × List Call
  finish : State → List Call

namespace Wrapper

variable {State State' Call : Type*}

/-- The state after some calls. -/
def after (W : Wrapper State Call) : State → List Call → State
  | s, [] => s
  | s, c :: cs => W.after (W.step s c).1 cs

/-- The calls that are made for some calls. -/
def sends (W : Wrapper State Call) : State → List Call → List Call
  | _, [] => []
  | s, c :: cs => (W.step s c).2 ++ W.sends (W.step s c).1 cs

/-- All calls that are made for those of a caller. -/
def forwarded (W : Wrapper State Call) (s : State) (cs : List Call) : List Call :=
  W.sends s cs ++ W.finish (W.after s cs)

variable {W : Wrapper State Call}

variable (s : State) (t : State') (cs : List Call)

theorem after_append (cs ds : List Call) : W.after s (cs ++ ds) = W.after (W.after s cs) ds := by
  induction cs generalizing s with
  | nil => rfl
  | cons c cs ih => exact ih _

theorem sends_append (cs ds : List Call) :
    W.sends s (cs ++ ds) = W.sends s cs ++ W.sends (W.after s cs) ds := by
  induction cs generalizing s with
  | nil => rfl
  | cons c cs ih => rw [List.cons_append, sends, ih, sends, after, List.append_assoc]

theorem forwarded_cons (c : Call) (cs : List Call) :
    W.forwarded s (c :: cs) = (W.step s c).2 ++ W.forwarded (W.step s c).1 cs := by
  rw [forwarded, sends, after, List.append_assoc, forwarded]

theorem forwarded_ignored {s : State} {cs : List Call} (hignored : ∀ c ∈ cs, W.step s c = (s, []))
    (ds : List Call) : W.forwarded s (cs ++ ds) = W.forwarded s ds := by
  induction cs with
  | nil => rfl
  | cons c cs ih =>
    obtain ⟨hc, hrest⟩ := List.forall_mem_cons.mp hignored
    rw [List.cons_append, forwarded_cons, hc, List.nil_append]
    exact ih hrest

/-- The calls of the inner wrapper go to the outer one. -/
def stack (inner : Wrapper State Call) (outer : Wrapper State' Call) :
    Wrapper (State × State') Call where
  step s c :=
    let sent := (inner.step s.1 c).2
    (((inner.step s.1 c).1, outer.after s.2 sent), outer.sends s.2 sent)
  finish s := outer.forwarded s.2 (inner.finish s.1)

variable {inner : Wrapper State Call} {outer : Wrapper State' Call}

theorem after_stack :
    (inner.stack outer).after (s, t) cs = (inner.after s cs, outer.after t (inner.sends s cs)) := by
  induction cs generalizing s t with
  | nil => rfl
  | cons c cs ih =>
    rw [after, stack, after, sends, after_append]
    exact ih _ _

theorem sends_stack : (inner.stack outer).sends (s, t) cs = outer.sends t (inner.sends s cs) := by
  induction cs generalizing s t with
  | nil => rfl
  | cons c cs ih =>
    rw [sends, sends, sends_append]
    exact congrArg _ (ih _ _)

theorem forwarded_stack :
    (inner.stack outer).forwarded (s, t) cs = outer.forwarded t (inner.forwarded s cs) := by
  rw [forwarded, after_stack, sends_stack, forwarded, forwarded, sends_append, after_append,
    List.append_assoc]
  rfl

end Wrapper

end Wrapping
