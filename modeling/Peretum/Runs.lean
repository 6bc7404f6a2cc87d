import Mathlib.Logic.Relation

/-!
# Runs of a step function

A concurrent component is given by a partial step function on its states: an
action names the party that moves and what it observes, and the result is
`none` when that party cannot take the step. A guard restricts which steps a
run may take, so that a property can be proved for every run that avoids some
schedule. An invariant is checked once for each step and then holds throughout.
-/

namespace Runs

variable {State Action : Type*}

/-- One step whose action the guard admits in the state it is taken from. -/
def Steps (step : State → Action → Option State) (guard : State → Action → Prop)
    (s t : State) : Prop :=
  ∃ a, guard s a ∧ step s a = some t

/-- The second state is reached from the first by a run of admitted steps. -/
def Reaches (step : State → Action → Option State) (guard : State → Action → Prop) :
    State → State → Prop :=
  Relation.ReflTransGen (Steps step guard)

/-- The guard that admits every step. -/
def Unrestricted (_ : State) (_ : Action) : Prop := True

variable {step : State → Action → Option State} {guard : State → Action → Prop}

theorem Reaches.invariant {inv : State → Prop}
    (hstep : ∀ s a t, inv s → guard s a → step s a = some t → inv t)
    {s t : State} (hreach : Reaches step guard s t) (hinit : inv s) : inv t := by
  induction hreach with
  | refl => exact hinit
  | tail _ hlast ih =>
    obtain ⟨a, hguard, hnext⟩ := hlast
    exact hstep _ a _ ih hguard hnext

theorem Reaches.mono {guard' : State → Action → Prop} (hguard : ∀ s a, guard s a → guard' s a)
    {s t : State} (hreach : Reaches step guard s t) : Reaches step guard' s t := by
  refine Relation.ReflTransGen.mono ?_ s t hreach
  rintro u v ⟨a, ha, hstep⟩
  exact ⟨a, hguard u a ha, hstep⟩

/-- Execute a schedule from a state; the result is `none` when some action of
the schedule cannot be taken. -/
def exec (step : State → Action → Option State) : State → List Action → Option State
  | s, [] => some s
  | s, a :: schedule => (step s a).bind (fun t => exec step t schedule)

theorem exec_append (step : State → Action → Option State) (s : State)
    (first second : List Action) :
    exec step s (first ++ second) = (exec step s first).bind (fun t => exec step t second) := by
  induction first generalizing s with
  | nil => rfl
  | cons a first ih =>
    rw [List.cons_append, exec, exec, Option.bind_assoc]
    simp only [ih]

/-- Every action of a schedule is admitted in the state it is taken from. -/
def Admitted (step : State → Action → Option State) (guard : State → Action → Prop) :
    State → List Action → Prop
  | _, [] => True
  | s, a :: schedule => guard s a ∧ ∀ t ∈ step s a, Admitted step guard t schedule

instance decidableAdmitted (step : State → Action → Option State)
    (guard : State → Action → Prop) [∀ s a, Decidable (guard s a)] :
    ∀ s schedule, Decidable (Admitted step guard s schedule)
  | _, [] => isTrue trivial
  | s, a :: schedule =>
      match hstep : step s a with
      | none => decidable_of_iff (guard s a) (by simp [Admitted, hstep])
      | some t =>
          have := decidableAdmitted step guard t schedule
          decidable_of_iff (guard s a ∧ Admitted step guard t schedule) (by
            simp [Admitted, hstep])

variable {s t : State} {a : Action} {schedule : List Action}

theorem Admitted.cons (hguard : guard s a) (hstep : step s a = some t)
    (hrest : Admitted step guard t schedule) : Admitted step guard s (a :: schedule) := by
  refine ⟨hguard, fun u hu => ?_⟩
  obtain rfl : t = u := by simpa [hstep] using hu
  exact hrest

theorem reaches_of_exec (hexec : exec step s schedule = some t)
    (hallowed : Admitted step guard s schedule) : Reaches step guard s t := by
  induction schedule generalizing s with
  | nil =>
    obtain rfl : s = t := by simpa [exec] using hexec
    exact .refl
  | cons a schedule ih =>
    obtain ⟨hguard, hrest⟩ := hallowed
    obtain ⟨u, hu, hexec⟩ := Option.bind_eq_some_iff.mp hexec
    exact .head ⟨a, hguard, hu⟩ (ih hexec (hrest u hu))

/-- The state an admitted schedule leads to is reached. -/
theorem reaches_get (hallowed : Admitted step guard s schedule)
    {hsome : (exec step s schedule).isSome} :
    Reaches step guard s ((exec step s schedule).get hsome) :=
  reaches_of_exec (Option.some_get _).symm hallowed

theorem admitted_of_forall (step : State → Action → Option State) (s : State)
    (hguard : ∀ a ∈ schedule, ∀ s, guard s a) : Admitted step guard s schedule := by
  induction schedule generalizing s with
  | nil => trivial
  | cons a schedule ih =>
    exact ⟨hguard a List.mem_cons_self s,
      fun t _ => ih t fun b hb => hguard b (List.mem_cons_of_mem a hb)⟩

theorem admitted_unrestricted (step : State → Action → Option State) (s : State)
    (schedule : List Action) : Admitted step Unrestricted s schedule :=
  admitted_of_forall step s fun _ _ _ => trivial

/-- Without a guard, the state any schedule leads to is reached. -/
theorem reaches_exec (hsome : (exec step s schedule).isSome) :
    Reaches step Unrestricted s ((exec step s schedule).get hsome) :=
  reaches_get (admitted_unrestricted _ _ _)

/-- Where every step can be taken, a schedule leads where it leads step by step. -/
theorem reaches_foldl {next : State → Action → State}
    (hallowed : Admitted (fun s a => some (next s a)) guard s schedule) :
    Reaches (fun s a => some (next s a)) guard s (schedule.foldl next s) := by
  induction schedule generalizing s with
  | nil => exact .refl
  | cons a schedule ih =>
    exact .head ⟨a, hallowed.1, rfl⟩ (ih (hallowed.2 _ (Option.mem_some_self _)))

/-- A schedule in which the parties of a list take their numbers of steps in turn. -/
def inTurn {Party : Type*} (act : Party → Action) (turns : List (Party × Nat)) : List Action :=
  turns.flatMap fun turn => List.replicate turn.2 (act turn.1)

theorem Reaches.of_step (hguard : guard s a) (hstep : step s a = some t) : Reaches step guard s t :=
  .single ⟨a, hguard, hstep⟩

end Runs
