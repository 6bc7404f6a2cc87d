import Peretum.LoadBalancer.Selection

/-!
# Concurrent calls of round robin

The calls of `Next` share one counter, and each looks at one upstream for each of its own
increments. Between two of them other calls may move the counter on, so a call may see
one unhealthy upstream again and again and miss all healthy ones. Then it returns the
upstream whose last check is the oldest, whatever its health is. This file lets any number
of calls take their increments in any order and says when each of them still returns a
healthy upstream.
-/

namespace Peretum.LoadBalancer

open Go Function

/-- The upstream at an index has the oldest check, and those before it have newer ones. -/
def FirstOldest (upstreams : List Upstream) (i : Nat) (u : Upstream) : Prop :=
  upstreams[i]? = some u ∧ (∀ v ∈ upstreams, u.lastCheck ≤ v.lastCheck) ∧
    ∀ j < i, ∀ v, upstreams[j]? = some v → u.lastCheck < v.lastCheck

theorem FirstOldest.unique {upstreams : List Upstream} {i j : Nat} {u v : Upstream}
    (hu : FirstOldest upstreams i u) (hv : FirstOldest upstreams j v) : u = v := by
  obtain ⟨hui, humin, hufirst⟩ := hu
  obtain ⟨hvj, hvmin, hvfirst⟩ := hv
  have huv := humin v (List.mem_of_getElem? hvj)
  have hvu := hvmin u (List.mem_of_getElem? hui)
  rcases Nat.lt_trichotomy i j with hlt | rfl | hgt
  · have hnewer := hvfirst i hlt u hui
    omega
  · exact Option.some.inj (hui.symm.trans hvj)
  · have hnewer := hufirst j hgt v hvj
    omega

/-- The candidate of the loop of `probeCandidate` is the first with the oldest check among the
upstreams seen so far. -/
theorem firstOldest_probeFrom {seen upstreams : List Upstream} {best : Nat} {u : Upstream}
    (hseen : FirstOldest seen best u) :
    ∃ i v, probeFrom seen.length (some (best, u.lastCheck)) upstreams = some (i, v.lastCheck) ∧
      FirstOldest (seen ++ upstreams) i v := by
  induction upstreams generalizing seen best u with
  | nil => exact ⟨best, u, rfl, by simpa using hseen⟩
  | cons w upstreams ih =>
    have hassoc : seen ++ w :: upstreams = seen ++ [w] ++ upstreams := by simp
    have hlength : seen.length + 1 = (seen ++ [w]).length := by simp
    obtain ⟨hbest, hmin, hfirst⟩ := hseen
    have hlt : best < seen.length := (List.getElem?_eq_some_iff.mp hbest).1
    rw [hassoc, probeFrom, hlength]
    split
    · next hnewest =>
      apply ih
      refine ⟨by simp, fun v hv => ?_, fun j hj v hv => ?_⟩
      · rcases List.mem_append.mp hv with hv | hv
        · have hle := hmin v hv
          omega
        · obtain rfl := List.mem_singleton.mp hv
          exact Int.le_refl _
      · rw [List.getElem?_append_left hj] at hv
        have hle := hmin v (List.mem_of_getElem? hv)
        omega
    · next hnot =>
      apply ih
      refine ⟨?_, fun v hv => ?_, fun j hj v hv => ?_⟩
      · rw [List.getElem?_append_left hlt]
        exact hbest
      · rcases List.mem_append.mp hv with hv | hv
        · exact hmin v hv
        · obtain rfl := List.mem_singleton.mp hv
          omega
      · rw [List.getElem?_append_left (by omega)] at hv
        exact hfirst j hj v hv

/-- `probeCandidate` returns the first upstream with the oldest check. -/
theorem firstOldest_probeCandidate {upstreams : List Upstream} (hne : upstreams ≠ []) :
    ∃ i u, probeCandidate upstreams = some i ∧ FirstOldest upstreams i u := by
  cases upstreams with
  | nil => exact absurd rfl hne
  | cons u upstreams =>
    have hstart : FirstOldest [u] 0 u := by
      refine ⟨rfl, fun v hv => ?_, fun j hj => by omega⟩
      obtain rfl := List.mem_singleton.mp hv
      exact Int.le_refl _
    obtain ⟨i, v, hprobe, hfirst⟩ := @firstOldest_probeFrom [u] upstreams 0 u hstart
    refine ⟨i, v, ?_, hfirst⟩
    have hcons : probeFrom 0 none (u :: upstreams) =
        probeFrom [u].length (some (0, u.lastCheck)) upstreams := rfl
    rw [probeCandidate, hcons, hprobe, Option.map_some]

namespace RoundRobin

/-- Where a call of `Next` is. -/
inductive Call where
  | idle
  /-- It is in its loop, with this many turns left. -/
  | scanning (turns : Nat)
  | returned (result : Option Nat)
  deriving DecidableEq

/-- The counter and the calls that share it. -/
structure Contended where
  idx : UInt64
  calls : Nat → Call

/-- The steps of a call: it begins, or it takes the next turn of its loop, which increments
the counter, or falls back after the last turn. -/
def contendedStep (upstreams : List Upstream) (s : Contended) (c : Nat) : Option Contended :=
  match s.calls c with
  | .idle =>
      some { s with
        calls := update s.calls c
          (if upstreams = [] then .returned none else .scanning upstreams.length) }
  | .scanning (turns + 1) =>
      some
        { idx := s.idx + 1
          calls := update s.calls c
            (if healthyAt upstreams (s.idx.toNat % upstreams.length) then
              .returned (some (s.idx.toNat % upstreams.length))
            else .scanning turns) }
  | .scanning 0 =>
      some { s with calls := update s.calls c (.returned (probeCandidate upstreams)) }
  | .returned _ => none

/-- No call has begun. -/
def Contended.init (idx : UInt64) : Contended := ⟨idx, fun _ => .idle⟩

/-- In every run, every call that has returned has returned a healthy upstream. -/
def ReturnsHealthy (upstreams : List Upstream) (idx : UInt64) : Prop :=
  ∀ s, Runs.Reaches (contendedStep upstreams) Runs.Unrestricted (.init idx) s →
    ∀ c result, s.calls c = .returned result → ∃ i, result = some i ∧ healthyAt upstreams i = true

/-- What a call keeps while a healthy upstream can be had: if it scans, it has not looked
yet or can fall back to a healthy one, and if it has returned, then a healthy one. -/
def Call.Fine (upstreams : List Upstream) : Call → Prop
  | .idle => True
  | .scanning turns =>
      turns = upstreams.length ∨ ∃ i u, FirstOldest upstreams i u ∧ u.healthy = true
  | .returned result => ∃ i, result = some i ∧ healthyAt upstreams i = true

variable {upstreams : List Upstream} {s : Contended} {turns unused : Nat}

theorem fine_update {calls : Nat → Call} (hcalls : ∀ c, (calls c).Fine upstreams) {c : Nat}
    {next : Call} (hnext : next.Fine upstreams) :
    ∀ c', (update calls c next c').Fine upstreams := by
  intro c'
  by_cases hc : c' = c
  · rw [hc, update_self]
    exact hnext
  · rw [update_of_ne hc]
    exact hcalls c'

theorem fine_step (hne : upstreams ≠ []) (hcondition : (∀ u ∈ upstreams, u.healthy = true) ∨
      ∃ i u, FirstOldest upstreams i u ∧ u.healthy = true) {t : Contended} {c : Nat}
    (hs : ∀ c, (s.calls c).Fine upstreams) (hstep : contendedStep upstreams s c = some t) :
    ∀ c, (t.calls c).Fine upstreams := by
  have hlength := List.length_pos_of_ne_nil hne
  have hc := hs c
  unfold contendedStep at hstep
  split at hstep
  · cases hstep
    apply fine_update hs
    rw [if_neg hne]
    exact .inl rfl
  · cases hstep
    apply fine_update hs
    split
    · next hhealthy => exact ⟨_, rfl, hhealthy⟩
    · next hdown =>
      -- The slot is down, so not all upstreams are healthy.
      refine .inr (hcondition.resolve_left fun hall => hdown ?_)
      have hslot := Nat.mod_lt s.idx.toNat hlength
      rw [healthyAt, List.getElem?_eq_getElem hslot]
      exact hall _ (List.getElem_mem hslot)
  · next hscanning =>
    cases hstep
    apply fine_update hs
    rw [hscanning] at hc
    have holdest : ∃ i u, FirstOldest upstreams i u ∧ u.healthy = true :=
      hc.resolve_left (by omega)
    obtain ⟨i, u, hfirst, hhealthy⟩ := holdest
    obtain ⟨j, v, hprobe, hcandidate⟩ := firstOldest_probeCandidate hne
    obtain rfl := hfirst.unique hcandidate
    refine ⟨j, hprobe, ?_⟩
    rw [healthyAt, hcandidate.1]
    exact hhealthy
  · cases hstep

/-- A call is in its loop, and there are calls left that have not begun. -/
structure Contended.Waits (s : Contended) (turns unused : Nat) : Prop where
  scanning : s.calls 0 = .scanning turns
  idle : ∀ c, unused ≤ c → s.calls c = .idle
  pos : 0 < unused

/-- Another call moves the counter on by one. -/
theorem Contended.Waits.advance (hne : upstreams ≠ []) (hs : s.Waits turns unused) :
    ∃ t, Runs.Reaches (contendedStep upstreams) Runs.Unrestricted s t ∧
      t.Waits turns (unused + 1) ∧ t.idx = s.idx + 1 := by
  obtain ⟨rest, hlength⟩ : ∃ rest, upstreams.length = rest + 1 :=
    ⟨upstreams.length - 1, by have := List.length_pos_of_ne_nil hne; omega⟩
  let begun : Contended :=
    { s with calls := update s.calls unused (.scanning upstreams.length) }
  have hbegin : contendedStep upstreams s unused = some begun := by
    simp [contendedStep, hs.idle unused (Nat.le_refl _), hne, begun]
  have hturn : ∃ next, contendedStep upstreams begun unused =
      some ⟨s.idx + 1, update begun.calls unused next⟩ := by
    simp [contendedStep, begun, hlength]
  obtain ⟨next, hnext⟩ := hturn
  have hbegun : Runs.Reaches (contendedStep upstreams) Runs.Unrestricted s begun :=
    .of_step trivial hbegin
  refine ⟨_, hbegun.tail ⟨unused, trivial, hnext⟩, ⟨?_, fun c hc => ?_, by omega⟩, rfl⟩
  · have hother : 0 ≠ unused := by have := hs.pos; omega
    simp only [update_of_ne hother, begun]
    exact hs.scanning
  · have hother : c ≠ unused := by omega
    simp only [update_of_ne hother, begun]
    exact hs.idle c (by omega)

/-- Other calls move the counter on by any number. -/
theorem Contended.Waits.advanceBy (hne : upstreams ≠ []) (hs : s.Waits turns unused) (k : Nat) :
    ∃ t unused', Runs.Reaches (contendedStep upstreams) Runs.Unrestricted s t ∧
      t.Waits turns unused' ∧ t.idx = s.idx + UInt64.ofNat k := by
  induction k with
  | zero => exact ⟨s, unused, .refl, hs, by simp⟩
  | succ k ih =>
    obtain ⟨t, unused', hreach, ht, hidx⟩ := ih
    obtain ⟨u, hstep, hu, hnext⟩ := ht.advance hne
    refine ⟨u, unused' + 1, hreach.trans hstep, hu, ?_⟩
    rw [hnext, hidx, UInt64.ofNat_add, UInt64.add_assoc]
    rfl

/-- If an upstream is down, a call can be made to see nothing else. -/
theorem Contended.Waits.starve (hlength : upstreams.length ≤ 2 ^ 64) {slot : Nat}
    (hslot : slot < upstreams.length) (hdown : healthyAt upstreams slot = false)
    (hs : s.Waits turns unused) :
    ∃ t unused', Runs.Reaches (contendedStep upstreams) Runs.Unrestricted s t ∧
      t.Waits 0 unused' := by
  have hne : upstreams ≠ [] := List.ne_nil_of_length_pos (by omega)
  induction turns generalizing s unused with
  | zero => exact ⟨s, unused, .refl, hs⟩
  | succ turns ih =>
    -- The other calls bring the counter to the slot, and the call looks at it.
    obtain ⟨t, unused', hreach, ht, hidx⟩ :=
      hs.advanceBy hne (UInt64.ofNat slot - s.idx).toNat
    rw [UInt64.ofNat_toNat, UInt64.add_comm, UInt64.sub_add_cancel] at hidx
    have hat : t.idx.toNat % upstreams.length = slot := by
      rw [hidx, UInt64.toNat_ofNat', Nat.mod_eq_of_lt (by omega : slot < 2 ^ 64)]
      exact Nat.mod_eq_of_lt hslot
    let looked : Contended := ⟨t.idx + 1, update t.calls 0 (.scanning turns)⟩
    have hlook : contendedStep upstreams t 0 = some looked := by
      simp [contendedStep, ht.scanning, hat, hdown, looked]
    have hwaits : looked.Waits turns unused' := by
      refine ⟨by simp [looked], fun c hc => ?_, ht.pos⟩
      have hother : c ≠ 0 := by have := ht.pos; omega
      simp only [looked, update_of_ne hother]
      exact ht.idle c hc
    obtain ⟨u, unused'', hrest, hu⟩ := ih hwaits
    exact ⟨u, unused'', (hreach.tail ⟨0, trivial, hlook⟩).trans hrest, hu⟩

theorem exists_fallback (hlength : upstreams.length ≤ 2 ^ 64) {down : Upstream}
    (hmem : down ∈ upstreams) (hdown : down.healthy = false) (idx : UInt64) :
    ∃ s, Runs.Reaches (contendedStep upstreams) Runs.Unrestricted (.init idx) s ∧
      s.calls 0 = .returned (probeCandidate upstreams) := by
  have hne : upstreams ≠ [] := List.ne_nil_of_mem hmem
  obtain ⟨slot, hslot, rfl⟩ := List.mem_iff_getElem.mp hmem
  have hslotDown : healthyAt upstreams slot = false := by
    rw [healthyAt, List.getElem?_eq_getElem hslot]
    exact hdown
  let begun : Contended :=
    ⟨idx, update (fun _ => .idle) 0 (.scanning upstreams.length)⟩
  have hbegin : contendedStep upstreams (.init idx) 0 = some begun := by
    simp [contendedStep, Contended.init, hne, begun]
  have hwaits : begun.Waits upstreams.length 1 := by
    refine ⟨by simp [begun], fun c hc => ?_, by omega⟩
    have hother : c ≠ 0 := by omega
    simp [begun, hother]
  obtain ⟨t, unused, hreach, ht⟩ := hwaits.starve hlength hslot hslotDown
  have hfall : contendedStep upstreams t 0 =
      some { t with
        calls := update t.calls 0 (.returned (probeCandidate upstreams)) } := by
    simp [contendedStep, ht.scanning]
  refine ⟨_, (Relation.ReflTransGen.head ⟨0, trivial, hbegin⟩ hreach).tail ⟨0, trivial, hfall⟩, ?_⟩
  simp

/-- While an upstream is healthy, every call of every run returns a healthy upstream
exactly if all upstreams are healthy or the first one with the oldest check is. -/
theorem returnsHealthy_iff {upstreams : List Upstream} (hlength : upstreams.length ≤ 2 ^ 64)
    (hhealthy : ∃ u ∈ upstreams, u.healthy = true) (idx : UInt64) :
    ReturnsHealthy upstreams idx ↔
      (∀ u ∈ upstreams, u.healthy = true) ∨
        ∃ i u, FirstOldest upstreams i u ∧ u.healthy = true := by
  obtain ⟨up, hup, -⟩ := hhealthy
  have hne : upstreams ≠ [] := List.ne_nil_of_mem hup
  constructor
  · intro hreturns
    by_contra hcondition
    obtain ⟨hsome, holdest⟩ := not_or.mp hcondition
    obtain ⟨down, hmem, hdown⟩ : ∃ u ∈ upstreams, u.healthy = false := by
      simpa using hsome
    obtain ⟨s, hreach, hfallback⟩ := exists_fallback hlength hmem hdown idx
    obtain ⟨i, hresult, hat⟩ := hreturns s hreach 0 (probeCandidate upstreams) hfallback
    obtain ⟨j, u, hprobe, hfirst⟩ := firstOldest_probeCandidate hne
    obtain rfl : j = i := Option.some.inj (hprobe.symm.trans hresult)
    rw [healthyAt, hfirst.1] at hat
    exact holdest ⟨j, u, hfirst, hat⟩
  · intro hcondition s hreach c result hresult
    have hfine : ∀ c, (s.calls c).Fine upstreams :=
      hreach.invariant (fun s c t (hs : ∀ c, (s.calls c).Fine upstreams) _ hstep =>
        fine_step hne hcondition hs hstep) fun _ => trivial
    have hc := hfine c
    rw [hresult] at hc
    exact hc

/-- The first upstream was reported down and the second up again after that. -/
def laterUp : List Upstream := [⟨str "http://a", 1, false, 1⟩, ⟨str "http://b", 1, true, 2⟩]

/-- The first call looks at the first upstream, the second call takes the other one, and the
first call looks at the first upstream again and falls back to it. -/
theorem laterUp_returns_down :
    ∃ s, Runs.exec (contendedStep laterUp) (.init 0) [0, 0, 1, 1, 0, 0] = some s ∧
      s.calls 1 = .returned (some 1) ∧ s.calls 0 = .returned (some 0) ∧
      healthyAt laterUp 0 = false ∧ healthyAt laterUp 1 = true ∧ ¬ ReturnsHealthy laterUp 0 := by
  refine ⟨_, rfl, by decide, by decide, by decide, by decide, fun hreturns => ?_⟩
  have hreach := Runs.reaches_of_exec
    (rfl : Runs.exec (contendedStep laterUp) (.init 0) [0, 0, 1, 1, 0, 0] = some _)
    (Runs.admitted_unrestricted _ _ _)
  obtain ⟨i, hi, hup⟩ := hreturns _ hreach 0 (some 0) (by decide)
  cases hi
  exact absurd hup (by decide)

/-- The first upstream is down since the second one was checked. -/
def laterDown : List Upstream := [⟨str "http://a", 1, false, 2⟩, ⟨str "http://b", 1, true, 1⟩]

/-- Here a call that falls back takes the healthy upstream. -/
theorem laterDown_returnsHealthy : ReturnsHealthy laterDown 0 := by
  refine (returnsHealthy_iff (by decide) ⟨_, List.mem_cons_of_mem _ List.mem_cons_self, rfl⟩
    0).mpr (.inr ⟨1, ⟨str "http://b", 1, true, 1⟩, ⟨rfl, by decide, fun j hj v hv => ?_⟩, rfl⟩)
  obtain rfl : j = 0 := by omega
  cases hv
  decide

end RoundRobin

end Peretum.LoadBalancer
