import Peretum.LoadBalancer.Selection

/-!
# Regaining an upstream

The transports report to the balancer how each request ended, and the health checker probes
the upstreams that are down. Requests and probes overlap: a report comes long after the
choice it belongs to. This file embeds the requests of both transports and the sweeps of
the checker over one balancer. A sweep brings an upstream back that answers its probe,
whatever the requests do in the meantime.
-/

namespace Peretum.LoadBalancer

open Go

/-- What comes back from an upstream. -/
inductive UpstreamAnswer where
  | transportError
  /-- The bytes of the body that arrive, and whether reading fails after them. -/
  | response (body : Str) (cut : Bool)

/-- The two transports. -/
inductive Transport where
  | capturing (maxBodySize : Int64)
  | grpc

def maxBodyReadSize : Int64 := 52428800

/-- The health `RoundTrip` reports. The capturing transport reads one byte more than its
limit, and with a negative limit everything. -/
def Transport.reports : Transport → UpstreamAnswer → Bool
  | _, .transportError => false
  | .grpc, .response _ _ => true
  | .capturing maxBodySize, .response body cut =>
      let limit := if maxBodySize = 0 then maxBodyReadSize else maxBodySize
      -- For the largest limit the one of the reader wraps around, and nothing is read.
      if 0 ≤ limit ∧ limit + 1 ≤ 0 then true
      else !cut && (decide (limit < 0) || decide ((body.length : Int) ≤ limit.toInt))

/-- A `HealthChecker`: what of its config decides about a probe. -/
structure HealthChecker where
  path : Str
  expectedStatus : Int

/-- `probe`, when the client gets these status codes for URLs. -/
def HealthChecker.probe (hc : HealthChecker) (status : Str → Option Int) (url : Str) : Bool :=
  match cut (str "://") url with
  | none => false
  | some (scheme, host) => status (scheme ++ str "://" ++ host ++ hc.path) ==
      some (if hc.expectedStatus = 0 then 200 else hc.expectedStatus)

/-- A balancer with the requests and the checker that use it. -/
structure Tended where
  balanced : Balanced
  /-- The upstreams of the requests that are under way. -/
  flights : List Str
  /-- The index of the upstream a sweep looks at next. -/
  looking : Option Nat
  /-- The index of the upstream that is being probed. -/
  probing : Option Nat

/-- The upstreams of the balancer. -/
def Tended.upstreams (s : Tended) : List Upstream := s.balanced.lb.upstreams

/-- The steps of requests and checker. -/
inductive TendAction where
  /-- A transport calls `Next`. -/
  | choose (path rawQuery : Str)
  /-- A transport sends a request to the upstream of its location. -/
  | pinned (url : Str)
  /-- A request ends. -/
  | finish (i : Nat) (transport : Transport) (answer : UpstreamAnswer) (now : Int)
  /-- `probeUnhealthy` is called. -/
  | tick
  /-- The loop of `probeUnhealthy` looks at the next upstream. -/
  | look
  /-- The probe returns. -/
  | probed (status : Str → Option Int) (now : Int)

/-- `MarkHealthy` on the balancer. -/
def Tended.mark (s : Tended) (url : Str) (healthy : Bool) (now : Int) : Tended :=
  { s with balanced := ⟨s.balanced.lb.markHealthy url healthy now, s.balanced.steps + 1⟩ }

/-- One step of requests and checker. -/
def tendStep (hc : HealthChecker) (s : Tended) : TendAction → Option Tended
  | .choose path rawQuery => (s.balanced.lb.next path rawQuery).map fun r =>
      -- Without an upstream the request fails at once.
      let chosen := r.1.bind fun i => s.upstreams[i]?
      { s with
        balanced := ⟨r.2, s.balanced.steps + s.balanced.lb.cost⟩
        flights := s.flights ++ (chosen.map Upstream.url).toList }
  | .pinned url => some { s with flights := s.flights ++ [url] }
  | .finish i transport answer now => (s.flights[i]?).map fun url =>
      { s with flights := s.flights.eraseIdx i }.mark url (transport.reports answer) now
  | .tick =>
      if s.looking = none ∧ s.probing = none then some { s with looking := some 0 } else none
  | .look => s.looking.map fun i =>
      match s.upstreams[i]? with
      | none => { s with looking := none }
      | some u =>
          if u.healthy then { s with looking := some (i + 1) }
          else { s with looking := none, probing := some i }
  | .probed status now => s.probing.bind fun i => (s.upstreams[i]?).map fun u =>
      { s with looking := some (i + 1), probing := none }.mark u.url (hc.probe status u.url) now

/-- A new balancer. -/
def Tended.init (lb : Balancer) : Tended := ⟨⟨lb, 0⟩, [], none, none⟩

/-- The health of the first upstream with a URL. -/
def healthOf (upstreams : List Upstream) (url : Str) : Option Bool :=
  (upstreams.find? (·.url = url)).map Upstream.healthy

/-- Requests to an upstream end well, and probes of it get the expected status. -/
def Answering (hc : HealthChecker) (url : Str) (s : Tended) : TendAction → Prop
  | .finish i transport answer _ => s.flights[i]? = some url → transport.reports answer = true
  | .probed status _ => hc.probe status url = true
  | _ => True

variable {hc : HealthChecker} {algorithm url : Str} {upstreams : List Upstream}
  {lb : Balancer} {s t : Tended}

theorem healthOf_markHealthy (upstreams : List Upstream) (url : Str) (healthy : Bool) (now : Int)
    (other : Str) :
    healthOf (markHealthy url healthy now upstreams) other =
      if other = url then (healthOf upstreams other).map fun _ => healthy
      else healthOf upstreams other := by
  induction upstreams with
  | nil => simp [healthOf, markHealthy]
  | cons u upstreams ih =>
    rw [markHealthy]
    by_cases hu : u.url = url
    · by_cases hother : other = url
      · simp [healthOf, hu, hother]
      · have hne : ¬ url = other := fun h => hother h.symm
        simp [healthOf, hu, hother, hne]
    · by_cases hother : u.url = other
      · have hne : other ≠ url := fun h => hu (hother.trans h)
        simp [healthOf, hother, hne]
      · simpa [healthOf, hu, hother] using ih

/-- The upstreams after `MarkHealthy` of any balancer: maglev records nothing when the
health stays the same. -/
theorem upstreams_markHealthy (lb : Balancer) (url : Str) (healthy : Bool) (now : Int) :
    (lb.markHealthy url healthy now).upstreams = markHealthy url healthy now lb.upstreams ∨
      (lb.markHealthy url healthy now).upstreams = lb.upstreams ∧
        ∀ h ∈ healthOf lb.upstreams url, h = healthy := by
  cases lb with
  | maglev m =>
    simp only [Balancer.markHealthy, Balancer.upstreams, Maglev.markHealthy]
    split
    · next hfind => exact .inr ⟨rfl, by simp [healthOf, hfind]⟩
    · next u hfind =>
      split
      · next hsame => exact .inr ⟨rfl, by simp [healthOf, hfind, hsame]⟩
      · exact .inl rfl
  | roundRobin rr | weightedRoundRobin wrr | leastConnections lc => exact .inl rfl

theorem healthOf_mark (s : Tended) (url : Str) (healthy : Bool) (now : Int) (other : Str) :
    healthOf (s.mark url healthy now).upstreams other =
      if other = url then (healthOf s.upstreams other).map fun _ => healthy
      else healthOf s.upstreams other := by
  rcases upstreams_markHealthy s.balanced.lb url healthy now with hmark | ⟨hmark, hsame⟩
  · rw [Tended.upstreams, Tended.mark, hmark, healthOf_markHealthy]
    rfl
  · rw [Tended.upstreams, Tended.mark, hmark]
    split
    · next hother =>
      subst hother
      change healthOf s.upstreams other = _
      cases hhealth : healthOf s.upstreams other with
      | none => rfl
      | some h => rw [hsame h hhealth, Option.map_some]
    · rfl

theorem upstreams_next {balanced : Balanced} (hs : balanced.Serves upstreams)
    {path rawQuery : Str} {result : Option Nat} {lb : Balancer}
    (hnext : balanced.lb.next path rawQuery = some (result, lb)) :
    lb.upstreams = balanced.lb.upstreams := by
  obtain ⟨balancer, steps⟩ := balanced
  obtain ⟨hsound, -⟩ := hs
  cases balancer with
  | roundRobin rr =>
    obtain ⟨-, rfl⟩ : _ ∧ .roundRobin rr.next.2 = lb := by simpa [Balancer.next] using hnext
    exact (Balanced.Serves.roundRobin_next rr).1
  | weightedRoundRobin wrr =>
    obtain ⟨-, rfl⟩ : _ ∧ .weightedRoundRobin wrr.next.2 = lb := by
      simpa [Balancer.next] using hnext
    exact (WeightedRoundRobin.next_spec hsound).2.2
  | maglev m =>
    obtain ⟨⟨chosen, m'⟩, hm, hresult⟩ := Option.map_eq_some_iff.mp hnext
    obtain ⟨-, rfl⟩ : chosen = result ∧ .maglev m' = lb := by simpa using hresult
    exact (Maglev.Built.next_spec hsound hm).2.2
  | leastConnections lc =>
    obtain ⟨-, rfl⟩ : _ ∧ .leastConnections lc = lb := by simpa [Balancer.next] using hnext
    rfl

theorem serves_tendStep (s : Tended) (a : TendAction) (t : Tended)
    (hs : s.balanced.Serves upstreams) (_ : Runs.Unrestricted s a)
    (hstep : tendStep hc s a = some t) : t.balanced.Serves upstreams := by
  cases a with
  | choose path rawQuery =>
    obtain ⟨r, hnext, rfl⟩ := Option.map_eq_some_iff.mp hstep
    exact (hs.next hnext).1
  | pinned url =>
    cases hstep
    exact hs
  | finish i transport answer now =>
    obtain ⟨url, -, rfl⟩ := Option.map_eq_some_iff.mp hstep
    exact hs.markHealthy _ _ _
  | tick =>
    obtain ⟨-, hstep⟩ := Option.ite_none_right_eq_some.mp hstep
    cases hstep
    exact hs
  | look =>
    obtain ⟨i, -, rfl⟩ := Option.map_eq_some_iff.mp hstep
    split
    · exact hs
    · split <;> exact hs
  | probed status now =>
    obtain ⟨i, -, hprobed⟩ := Option.bind_eq_some_iff.mp hstep
    obtain ⟨u, -, rfl⟩ := Option.map_eq_some_iff.mp hprobed
    exact hs.markHealthy _ _ _

/-- The index of the first upstream with a URL. -/
def indexOf (upstreams : List Upstream) (url : Str) : Nat :=
  (upstreams.map Upstream.url).findIdx (· = url)

/-- A sweep has not come past an upstream, or the upstream is healthy. -/
structure Tended.Recovers (upstreams : List Upstream) (url : Str) (s : Tended) : Prop where
  serves : s.balanced.Serves upstreams
  found : (∃ i ≤ indexOf upstreams url, s.looking = some i ∨ s.probing = some i) ∨
    healthOf s.upstreams url = some true
  /-- The sweep is at one upstream. -/
  once : s.looking = none ∨ s.probing = none

theorem getElem?_indexOf (hs : s.balanced.Serves upstreams) (url : Str) :
    s.upstreams[indexOf upstreams url]? = s.upstreams.find? (·.url = url) := by
  rw [List.find?_eq_getElem?_findIdx, indexOf, ← hs.members, List.findIdx_map]
  rfl

/-- A report of an upstream that answers well does not undo its recovery. -/
theorem healthOf_mark_eq_true {other : Str} {healthy : Bool} {now : Int}
    (hgood : other = url → healthy = true) (hup : healthOf s.upstreams url = some true) :
    healthOf (s.mark other healthy now).upstreams url = some true := by
  rw [healthOf_mark]
  split
  · next heq => rw [hup, hgood heq.symm, Option.map_some]
  · exact hup

theorem Tended.Recovers.step (hurl : url ∈ upstreams.map Upstream.url) (s : Tended)
    (a : TendAction) (t : Tended) (hs : s.Recovers upstreams url) (hguard : Answering hc url s a)
    (hstep : tendStep hc s a = some t) : t.Recovers upstreams url := by
  have hserves := serves_tendStep s a t hs.serves trivial hstep
  have hindex := getElem?_indexOf hs.serves url
  obtain ⟨v, hv⟩ : ∃ v, s.upstreams.find? (·.url = url) = some v := by
    rw [← hs.serves.members] at hurl
    obtain ⟨u, hu, heq⟩ := List.mem_map.mp hurl
    exact Option.isSome_iff_exists.mp (by simpa using ⟨u, hu, heq⟩)
  have hvurl : v.url = url := by simpa using List.find?_some hv
  rw [hv] at hindex
  cases a with
  | choose path rawQuery =>
    obtain ⟨⟨result, lb⟩, hnext, rfl⟩ := Option.map_eq_some_iff.mp hstep
    have hupstreams : lb.upstreams = s.upstreams := upstreams_next hs.serves hnext
    exact ⟨hserves, hs.found.imp_right fun h => (congrArg (healthOf · url) hupstreams).trans h,
      hs.once⟩
  | pinned pinned =>
    cases hstep
    exact ⟨hserves, hs.found, hs.once⟩
  | finish i transport answer now =>
    obtain ⟨other, hother, rfl⟩ := Option.map_eq_some_iff.mp hstep
    exact ⟨hserves, hs.found.imp_right
      (healthOf_mark_eq_true fun heq => hguard (heq ▸ hother)), hs.once⟩
  | tick =>
    obtain ⟨hidle, hstep⟩ := Option.ite_none_right_eq_some.mp hstep
    cases hstep
    exact ⟨hserves, .inl ⟨0, Nat.zero_le _, .inl rfl⟩, .inr hidle.2⟩
  | look =>
    obtain ⟨i, hi, rfl⟩ := Option.map_eq_some_iff.mp hstep
    have hprobing : s.probing = none := hs.once.resolve_left (by simp [hi])
    have hfound : i ≤ indexOf upstreams url ∨ healthOf s.upstreams url = some true := by
      simpa [hi, hprobing] using hs.found
    cases hu : s.upstreams[i]? with
    | none =>
      refine ⟨hs.serves, .inr (hfound.resolve_left fun hle => ?_), .inl rfl⟩
      have hlt := (List.getElem?_eq_some_iff.mp hindex).1
      exact absurd (List.getElem?_eq_none_iff.mp hu) (by omega)
    | some u =>
      dsimp only
      split
      · next hup =>
        refine ⟨hs.serves, hfound.elim (fun hle => ?_) .inr, .inr hprobing⟩
        by_cases heq : i = indexOf upstreams url
        · obtain rfl : u = v := Option.some.inj (hu.symm.trans (heq ▸ hindex))
          exact .inr (by simp [healthOf, Tended.upstreams] at hv ⊢; simp [hv, hup])
        · exact .inl ⟨i + 1, by omega, .inl rfl⟩
      · exact ⟨hs.serves, hfound.imp_left fun hle => ⟨i, hle, .inr rfl⟩, .inl rfl⟩
  | probed status now =>
    obtain ⟨i, hi, hprobed⟩ := Option.bind_eq_some_iff.mp hstep
    obtain ⟨u, hu, rfl⟩ := Option.map_eq_some_iff.mp hprobed
    have hlooking : s.looking = none := hs.once.resolve_right (by simp [hi])
    have hfound : i ≤ indexOf upstreams url ∨ healthOf s.upstreams url = some true := by
      simpa [hi, hlooking] using hs.found
    refine ⟨hserves, ?_, .inr rfl⟩
    by_cases heq : u.url = url
    · refine .inr ?_
      rw [healthOf_mark, if_pos heq.symm]
      change (healthOf s.upstreams url).map _ = _
      simp [healthOf, hv, heq, show hc.probe status url = true from hguard]
    · -- Another upstream was probed, so the sweep has still to come to this one.
      refine hfound.imp (fun hle => ⟨i + 1, ?_, .inl rfl⟩)
        (healthOf_mark_eq_true fun h => absurd h heq)
      have hne : i ≠ indexOf upstreams url := by
        rintro rfl
        exact heq (Option.some.inj (hu.symm.trans hindex) ▸ hvurl)
      omega

/-- A sweep brings an upstream back if its probe gets the expected status, whatever other
requests do in the meantime, unless a request to the upstream itself fails. -/
theorem healthy_of_swept
    (hnew : Balancer.new algorithm upstreams = some lb)
    (hreach : Runs.Reaches (tendStep hc) Runs.Unrestricted (.init lb) s)
    (hurl : url ∈ upstreams.map Upstream.url) (hidle : s.looking = none ∧ s.probing = none)
    (hrun : Runs.Reaches (tendStep hc) (Answering hc url) { s with looking := some 0 } t)
    (hdone : t.looking = none ∧ t.probing = none) : healthOf t.upstreams url = some true := by
  have hserves : s.balanced.Serves upstreams :=
    hreach.invariant serves_tendStep (serves_new hnew)
  have ht : t.Recovers upstreams url := hrun.invariant (Tended.Recovers.step hurl)
    ⟨hserves, .inl ⟨0, Nat.zero_le _, .inl rfl⟩, .inr hidle.2⟩
  simpa [hdone] using ht.found

/-- A check of `/healthz`. -/
def healthz : HealthChecker := ⟨str "/healthz", 200⟩

/-- The first of three upstreams fails a request. -/
def downState : Tended :=
  (Runs.exec (tendStep healthz) (.init (.roundRobin (.new threeUpstreams)))
    [.pinned (str "http://a"), .finish 0 .grpc .transportError 1]).get rfl

theorem new_threeUpstreams :
    Balancer.new [] threeUpstreams = some (.roundRobin (.new threeUpstreams)) := rfl

theorem reaches_downState : Runs.Reaches (tendStep healthz) Runs.Unrestricted
    (.init (.roundRobin (.new threeUpstreams))) downState :=
  Runs.reaches_exec _

/-- A sweep, while a request is sent to another upstream. -/
def sweepSteps : List TendAction :=
  [.look, .choose [] [], .probed (fun _ => some 200) 2, .look, .look, .look]

theorem downState_swept : ∃ t,
    Runs.exec (tendStep healthz) { downState with looking := some 0 } sweepSteps = some t ∧
      healthOf t.upstreams (str "http://a") = some true := by
  have hexec : Runs.exec (tendStep healthz) { downState with looking := some 0 } sweepSteps =
      some _ := rfl
  refine ⟨_, hexec, healthy_of_swept new_threeUpstreams reaches_downState (by decide)
    ⟨rfl, rfl⟩ (Runs.reaches_of_exec hexec ?_) ⟨rfl, rfl⟩⟩
  exact .cons trivial rfl (.cons trivial rfl (.cons rfl rfl (.cons trivial rfl (.cons trivial rfl
    (.cons trivial rfl trivial)))))

end Peretum.LoadBalancer
