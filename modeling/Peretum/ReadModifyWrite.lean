import Mathlib.Data.List.Nodup
import Mathlib.Logic.Function.Basic
import Peretum.Runs

/-!
# Updates that read first and write later

Several calls share a value. Each looks at it once, works out a new value or refuses, and
writes the new value in a later step. A write is undisturbed if the value is still the one
its call looked at. In a run of undisturbed writes the calls that succeed might as well
have been made one after the other, in the order of their writes.
-/

namespace ReadModifyWrite

open Function

variable {Value : Type*}

/-- Where a call is. -/
inductive Phase (Value : Type*) where
  | idle
  | ready (seen new : Value)
  | failed
  | succeeded

/-- The shared value and the calls. -/
structure State (Value : Type*) where
  value : Value
  phase : Nat → Phase Value

/-- What becomes of a write. -/
inductive Outcome (Value : Type*) where
  | done
  | refused
  /-- The write fails and leaves something else. -/
  | spoilt (value : Value)

/-- The steps of a call. -/
inductive Action (Value : Type*) where
  | look (call : Nat)
  | write (call : Nat) (outcome : Outcome Value)

/-- No call has started. -/
def State.init (value : Value) : State Value := ⟨value, fun _ => .idle⟩

/-- A call goes on, with the value as it is then. -/
def State.goOn (s : State Value) (call : Nat) (value : Value) (phase : Phase Value) :
    State Value :=
  ⟨value, update s.phase call phase⟩

variable (update : Nat → Value → Option Value)

/-- One step; `update` is the new value a call works out from the one it looks at. -/
def step (s : State Value) : Action Value → Option (State Value)
  | .look call =>
      match s.phase call with
      | .idle =>
          match update call s.value with
          | none => some (s.goOn call s.value .failed)
          | some new => some (s.goOn call s.value (.ready s.value new))
      | _ => none
  | .write call outcome =>
      match s.phase call, outcome with
      | .ready _ new, .done => some (s.goOn call new .succeeded)
      | .ready _ _, .refused => some (s.goOn call s.value .failed)
      | .ready _ _, .spoilt value => some (s.goOn call value .failed)
      | _, _ => none

/-- A write finds the value its call looked at, and does not leave something else. -/
def Undisturbed (s : State Value) : Action Value → Prop
  | .look _ => True
  | .write call .done => ∀ seen new, s.phase call = .ready seen new → s.value = seen
  | .write _ .refused => True
  | .write _ (.spoilt _) => False

/-- The calls made one after the other. -/
def inTurn (value : Value) (order : List Nat) : Option Value :=
  order.foldlM (fun v call => update call v) value

variable {update} {value w new : Value} {order : List Nat} {call : Nat} {s : State Value}

theorem inTurn_concat {v : Value} (horder : inTurn update value order = some v)
    (hcall : update call v = some w) : inTurn update value (order ++ [call]) = some w := by
  rw [inTurn, List.foldlM_append, ← inTurn, horder]
  simp [hcall]

theorem inTurn_cons (horder : inTurn update value (call :: order) = some w) :
    ∃ v, update call value = some v ∧ inTurn update v order = some w := by
  exact Option.bind_eq_some_iff.mp horder

/-- The calls that have succeeded might have been made in turn, and those that are going to
write have worked out their value. -/
structure Serial (update : Nat → Value → Option Value) (value : Value)
    (s : State Value) : Prop where
  ready : ∀ call seen new, s.phase call = .ready seen new → update call seen = some new
  order : ∃ order : List Nat, order.Nodup ∧ (∀ call, call ∈ order ↔ s.phase call = .succeeded) ∧
    inTurn update value order = some s.value

theorem Serial.init (value : Value) : Serial update value (.init value) := by
  refine ⟨?_, [], List.nodup_nil, ?_, rfl⟩
  · intro call seen new h
    cases h
  · intro call
    simp [State.init]

theorem Serial.goOn (hs : Serial update value s) (hcall : s.phase call ≠ .succeeded)
    {phase : Phase Value} (hphase : phase ≠ .succeeded)
    (hready : ∀ seen new, phase = .ready seen new → update call seen = some new) :
    Serial update value (s.goOn call s.value phase) := by
  obtain ⟨order, hnodup, hmem, hturn⟩ := hs.order
  refine ⟨?_, order, hnodup, ?_, hturn⟩
  · intro other seen new h
    by_cases heq : other = call
    · subst heq
      exact hready seen new (by simpa [State.goOn] using h)
    · exact hs.ready other seen new (by simpa [State.goOn, heq] using h)
  · intro other
    rw [hmem]
    by_cases heq : other = call
    · subst heq
      simp [State.goOn, hcall, hphase]
    · simp [State.goOn, heq]

theorem Serial.write (hs : Serial update value s) (hcall : s.phase call = .ready s.value new) :
    Serial update value (s.goOn call new .succeeded) := by
  obtain ⟨order, hnodup, hmem, hturn⟩ := hs.order
  have hfresh : call ∉ order := by
    rw [hmem, hcall]
    simp
  refine ⟨?_, order ++ [call], ?_, ?_, inTurn_concat hturn (hs.ready call _ _ hcall)⟩
  · intro other seen new' h
    by_cases heq : other = call
    · subst heq
      simp [State.goOn] at h
    · exact hs.ready other seen new' (by simpa [State.goOn, heq] using h)
  · exact List.nodup_append.mpr ⟨hnodup, List.nodup_singleton call, by
      rintro a ha b hb rfl
      exact hfresh (List.mem_singleton.mp hb ▸ ha)⟩
  · intro other
    by_cases heq : other = call
    · simp [State.goOn, heq]
    · simp [State.goOn, heq, hmem]

theorem Serial.step {t : State Value} {a : Action Value} (hs : Serial update value s)
    (hguard : Undisturbed s a) (hstep : ReadModifyWrite.step update s a = some t) :
    Serial update value t := by
  cases a with
  | look call =>
    simp only [ReadModifyWrite.step] at hstep
    split at hstep
    · next hidle =>
      have hcall : s.phase call ≠ .succeeded := by simp [hidle]
      split at hstep <;> cases hstep
      · exact hs.goOn hcall (by simp) (by simp)
      · next new hnew =>
        refine hs.goOn hcall (by simp) ?_
        rintro seen new' h
        obtain ⟨rfl, rfl⟩ := Phase.ready.inj h
        exact hnew
    · cases hstep
  | write call outcome =>
    simp only [ReadModifyWrite.step] at hstep
    split at hstep
    · next seen new hready =>
      cases hstep
      obtain rfl := hguard seen new hready
      exact hs.write hready
    · next hready =>
      cases hstep
      exact hs.goOn (by simp [hready]) (by simp) (by simp)
    · exact hguard.elim
    · cases hstep

/-- In a run of undisturbed writes, the calls that have succeeded might have been made in
turn. -/
theorem serial_of_reaches (hreach : Runs.Reaches (step update) Undisturbed (.init value) s) :
    Serial update value s :=
  hreach.invariant (fun _ _ _ hs hguard hstep => hs.step hguard hstep) (.init value)

section

variable {P : Value → Prop} {order : List Nat} {value w : Value} {call : Nat}

theorem inTurn_invariant (hkeep : ∀ call ∈ order, ∀ v w, P v → update call v = some w → P w)
    (hvalue : P value) (horder : inTurn update value order = some w) : P w := by
  induction order generalizing value with
  | nil =>
    cases horder
    exact hvalue
  | cons call order ih =>
    obtain ⟨v, hv, hrest⟩ := inTurn_cons horder
    exact ih (fun c hc => hkeep c (List.mem_cons_of_mem _ hc))
      (hkeep call List.mem_cons_self value v hvalue hv) hrest

/-- What one call brings about and the others keep holds at the end. -/
theorem inTurn_of_mem (hnodup : order.Nodup) (hcall : call ∈ order)
    (hself : ∀ v w, update call v = some w → P w)
    (hothers : ∀ other ∈ order, other ≠ call → ∀ v w, P v → update other v = some w → P w)
    (horder : inTurn update value order = some w) : P w := by
  induction order generalizing value with
  | nil => cases hcall
  | cons first order ih =>
    obtain ⟨v, hv, hrest⟩ := inTurn_cons horder
    obtain ⟨hfresh, hnodup⟩ := List.nodup_cons.mp hnodup
    rcases List.mem_cons.mp hcall with rfl | hlater
    · refine inTurn_invariant (fun c hc => hothers c (List.mem_cons_of_mem _ hc) ?_)
        (hself value v hv) hrest
      rintro rfl
      exact hfresh hc
    · exact ih hnodup hlater (fun c hc => hothers c (List.mem_cons_of_mem _ hc)) hrest

/-- What one successful call brings about and the other successful calls keep holds of the
value. -/
theorem holds_of_succeeded {s : State Value}
    (hreach : Runs.Reaches (step update) Undisturbed (.init value) s)
    (hcall : s.phase call = .succeeded) (hself : ∀ v w, update call v = some w → P w)
    (hothers : ∀ other, s.phase other = .succeeded → other ≠ call →
      ∀ v w, P v → update other v = some w → P w) : P s.value := by
  obtain ⟨order, hnodup, hmem, hturn⟩ := (serial_of_reaches hreach).order
  exact inTurn_of_mem hnodup ((hmem call).mpr hcall) hself
    (fun other hother => hothers other ((hmem other).mp hother)) hturn

/-- Of calls in turn that bring something about and refuse where it holds already, there is
one at most, if no call undoes it. -/
theorem eq_of_mem_inTurn {call' : Nat}
    (hself : ∀ c, c = call ∨ c = call' → ∀ v w, update c v = some w → ¬ P v ∧ P w)
    (hkeep : ∀ c v w, P v → update c v = some w → P w) (hin : call ∈ order) (hin' : call' ∈ order)
    (hturn : inTurn update value order = some w) : call = call' := by
  by_contra hne
  induction order generalizing value with
  | nil => cases hin
  | cons first order ih =>
    obtain ⟨v, hv, hrest⟩ := inTurn_cons hturn
    -- Once one of the two is made, what it has brought about stays, and the other refuses.
    have hstuck : ∀ c, c = call ∨ c = call' → c ∈ order → ¬ P v := by
      intro c hc hlater hP
      obtain ⟨before, after, rfl⟩ := List.append_of_mem hlater
      rw [inTurn, List.foldlM_append] at hrest
      obtain ⟨u, hbefore, hafter⟩ := Option.bind_eq_some_iff.mp hrest
      obtain ⟨u', hu', -⟩ := inTurn_cons hafter
      exact (hself c hc u u' hu').1 (inTurn_invariant (fun c _ => hkeep c) hP hbefore)
    rcases List.mem_cons.mp hin with rfl | hlater
    · exact hstuck call' (.inr rfl) ((List.mem_cons.mp hin').resolve_left (Ne.symm hne))
        (hself _ (.inl rfl) value v hv).2
    · rcases List.mem_cons.mp hin' with rfl | hlater'
      · exact hstuck call (.inl rfl) hlater (hself _ (.inr rfl) value v hv).2
      · exact ih hlater hlater' hrest

theorem eq_of_succeeded {s : State Value}
    (hreach : Runs.Reaches (step update) Undisturbed (.init value) s) {call' : Nat}
    (hcall : s.phase call = .succeeded) (hcall' : s.phase call' = .succeeded)
    (hself : ∀ c, c = call ∨ c = call' → ∀ v w, update c v = some w → ¬ P v ∧ P w)
    (hkeep : ∀ c v w, P v → update c v = some w → P w) : call = call' := by
  obtain ⟨order, -, hmem, hturn⟩ := (serial_of_reaches hreach).order
  exact eq_of_mem_inTurn hself hkeep ((hmem call).mpr hcall) ((hmem call').mpr hcall') hturn

end

theorem reaches_alone (hidle : s.phase call = .idle) (hnew : update call s.value = some new) :
    Runs.Reaches (step update) Undisturbed s (s.goOn call new .succeeded) := by
  have hlook : step update s (.look call) = some (s.goOn call s.value (.ready s.value new)) := by
    simp [step, hidle, hnew]
  have hwrite : step update (s.goOn call s.value (.ready s.value new)) (.write call .done) =
      some (s.goOn call new .succeeded) := by
    simp [step, State.goOn]
  refine (Runs.Reaches.of_step trivial hlook).tail ⟨.write call .done, ?_, hwrite⟩
  intro seen new' hready
  simp only [State.goOn, update_self, Phase.ready.injEq] at hready
  exact hready.1

theorem reaches_inTurn (hnodup : order.Nodup) (hidle : ∀ call ∈ order, s.phase call = .idle)
    (hturn : inTurn update s.value order = some w) :
    ∃ t, Runs.Reaches (step update) Undisturbed s t ∧ t.value = w ∧
      (∀ call ∈ order, t.phase call = .succeeded) ∧
      ∀ call, call ∉ order → t.phase call = s.phase call := by
  induction order generalizing s with
  | nil =>
    cases hturn
    exact ⟨s, .refl, rfl, by simp, fun _ _ => rfl⟩
  | cons first order ih =>
    obtain ⟨v, hv, hrest⟩ := inTurn_cons hturn
    obtain ⟨hfresh, hnodup⟩ := List.nodup_cons.mp hnodup
    have hfirst := reaches_alone (hidle first List.mem_cons_self) hv
    have hothers : ∀ call, call ≠ first → (s.goOn first v .succeeded).phase call = s.phase call :=
      fun call hne => update_of_ne hne _ _
    obtain ⟨t, hreach, hvalue, hdone, hleft⟩ := ih hnodup (s := s.goOn first v .succeeded)
      (fun call hcall => by
        rw [hothers call (fun h => hfresh (h ▸ hcall))]
        exact hidle call (List.mem_cons_of_mem _ hcall)) hrest
    refine ⟨t, hfirst.trans hreach, hvalue, ?_, ?_⟩
    · intro call hcall
      rcases List.mem_cons.mp hcall with rfl | hlater
      · rw [hleft _ hfresh]
        exact update_self _ _ _
      · exact hdone call hlater
    · intro call hcall
      rw [List.mem_cons, not_or] at hcall
      rw [hleft call hcall.2, hothers call hcall.1]

/-- Two calls that look at the same value can both succeed, and the value is then the one that
was written last. -/
theorem reaches_overlapping {call' : Nat} (hne : call ≠ call') {new' : Value}
    (hnew : update call value = some new) (hnew' : update call' value = some new') :
    ∃ s, Runs.Reaches (step update) Runs.Unrestricted (.init value) s ∧ s.value = new' ∧
      s.phase call = .succeeded ∧ s.phase call' = .succeeded := by
  have hexec : ∃ s, Runs.exec (step update) (.init value)
      [.look call, .look call', .write call .done, .write call' .done] = some s ∧
      s.value = new' ∧ s.phase call = .succeeded ∧ s.phase call' = .succeeded := by
    simp [Runs.exec, step, State.init, State.goOn, hnew, hnew', hne, Ne.symm hne]
  obtain ⟨s, hs, hdone⟩ := hexec
  exact ⟨s, Runs.reaches_of_exec hs (Runs.admitted_unrestricted _ _ _), hdone⟩

end ReadModifyWrite
