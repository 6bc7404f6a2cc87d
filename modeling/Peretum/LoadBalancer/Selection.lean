import Peretum.LoadBalancer.Maglev
import Peretum.Runs

/-!
# Runs of a load balancer

A balancer is built by the algorithm of its target and then sees requests and health
reports in any order. This file collects the four algorithms behind one interface and
shows that every choice of every run meets the contract, as long as the counter of
round robin does not wrap around within a choice.
-/

namespace Peretum.LoadBalancer

open Go

/-- A value behind the interface `LoadBalancer`. -/
inductive Balancer where
  | roundRobin (rr : RoundRobin)
  | weightedRoundRobin (wrr : WeightedRoundRobin)
  | maglev (m : Maglev)
  | leastConnections (lc : LeastConnections)

namespace Balancer

/-- `New`; nothing if the first table of maglev cannot be built. -/
def new (algorithm : Str) (upstreams : List Upstream) : Option Balancer :=
  if algorithm = str "weighted_rr" ∨ algorithm = str "wrr" then
    some (.weightedRoundRobin (.new upstreams))
  else if algorithm = str "maglev" then (Maglev.new upstreams).map .maglev
  else if algorithm = str "least_conn" ∨ algorithm = str "least_connections" then
    some (.leastConnections (.new upstreams))
  else some (.roundRobin (.new upstreams))

/-- `GetUpstreams`. -/
def upstreams : Balancer → List Upstream
  | .roundRobin rr => rr.upstreams
  | .weightedRoundRobin wrr => wrr.upstreams
  | .maglev m => m.upstreams
  | .leastConnections lc => lc.upstreams

/-- `Next` for a request with this path and query; nothing if maglev cannot build its
table. -/
def next (path rawQuery : Str) : Balancer → Option (Option Nat × Balancer)
  | .roundRobin rr => some (rr.next.1, .roundRobin rr.next.2)
  | .weightedRoundRobin wrr => some (wrr.next.1, .weightedRoundRobin wrr.next.2)
  | .maglev m => (m.next path rawQuery).map fun r => (r.1, .maglev r.2)
  | .leastConnections lc => some (lc.next, .leastConnections lc)

/-- `MarkHealthy`. -/
def markHealthy (url : Str) (healthy : Bool) (now : Int) : Balancer → Balancer
  | .roundRobin rr =>
      .roundRobin { rr with upstreams := LoadBalancer.markHealthy url healthy now rr.upstreams }
  | .weightedRoundRobin wrr =>
      .weightedRoundRobin
        { wrr with upstreams := LoadBalancer.markHealthy url healthy now wrr.upstreams }
  | .maglev m => .maglev (m.markHealthy url healthy now)
  | .leastConnections lc =>
      .leastConnections
        { lc with upstreams := LoadBalancer.markHealthy url healthy now lc.upstreams }

/-- The steps of a choice: the turns of the loop of round robin, and one otherwise. -/
def cost : Balancer → Nat
  | .roundRobin rr => RoundRobin.turnsOf rr.upstreams rr.upstreams.length rr.idx
  | _ => 1

end Balancer

/-- A balancer and the number of steps taken. -/
structure Balanced where
  lb : Balancer
  steps : Nat

/-- The calls a balancer gets. -/
inductive BalancerCall where
  | next (path rawQuery : Str)
  | markHealthy (url : Str) (healthy : Bool) (now : Int)

def balancerStep (s : Balanced) : BalancerCall → Option Balanced
  | .next path rawQuery =>
      (s.lb.next path rawQuery).map fun r => ⟨r.2, s.steps + s.lb.cost⟩
  | .markHealthy url healthy now => some ⟨s.lb.markHealthy url healthy now, s.steps + 1⟩

/-- What holds of a balancer between calls: the counter of round robin has counted steps,
every weight is positive, and the table of maglev is good. -/
def Sound (steps : Nat) : Balancer → Prop
  | .roundRobin rr => ∃ count ≤ steps, rr.idx = UInt64.ofNat count
  | .weightedRoundRobin wrr => wrr.Positive
  | .maglev m => m.Built
  | .leastConnections _ => True

/-- What holds in a run over a list of upstreams. -/
structure Balanced.Serves (upstreams : List Upstream) (s : Balanced) : Prop where
  sound : Sound s.steps s.lb
  members : s.lb.upstreams.map Upstream.url = upstreams.map Upstream.url

variable {algorithm : Str} {upstreams : List Upstream} {lb : Balancer} {s : Balanced}

theorem serves_new (hnew : Balancer.new algorithm upstreams = some lb) :
    Balanced.Serves upstreams ⟨lb, 0⟩ := by
  unfold Balancer.new at hnew
  split at hnew
  · cases hnew
    exact ⟨WeightedRoundRobin.turns_pos upstreams, map_url_allHealthy upstreams⟩
  · split at hnew
    · obtain ⟨m, hm, rfl⟩ := Option.map_eq_some_iff.mp hnew
      obtain ⟨hbuilt, hupstreams, -⟩ := Maglev.built_new hm
      refine ⟨hbuilt, ?_⟩
      simp only [Balancer.upstreams, hupstreams, map_url_allHealthy]
    · split at hnew
      · cases hnew
        exact ⟨trivial, map_url_allHealthy upstreams⟩
      · cases hnew
        exact ⟨⟨0, Nat.le_refl 0, rfl⟩, map_url_allHealthy upstreams⟩

namespace Balanced.Serves

variable {upstreams : List Upstream}

/-- `Next` of round robin keeps the upstreams and counts its turns. -/
theorem roundRobin_next (rr : RoundRobin) :
    rr.next.2.upstreams = rr.upstreams ∧
      rr.next.2.idx = rr.idx +
        UInt64.ofNat (RoundRobin.turnsOf rr.upstreams rr.upstreams.length rr.idx) := by
  have hidx := RoundRobin.scan_idx rr.upstreams rr.upstreams.length rr.idx
  unfold RoundRobin.next
  split
  · next hempty => simp [hempty, RoundRobin.turnsOf]
  · rcases hscan : RoundRobin.scan rr.upstreams rr.upstreams.length rr.idx with ⟨_ | i, idx⟩
    · rw [hscan] at hidx
      exact ⟨rfl, hidx⟩
    · rw [hscan] at hidx
      exact ⟨rfl, hidx⟩

/-- A choice keeps the balancer sound, and meets the contract within the bound on the
steps. -/
theorem next {s : Balanced} (hs : s.Serves upstreams) {path rawQuery : Str}
    {result : Option Nat} {lb : Balancer} (hnext : s.lb.next path rawQuery = some (result, lb)) :
    Balanced.Serves upstreams ⟨lb, s.steps + s.lb.cost⟩ ∧
      (s.steps + s.lb.cost < 2 ^ 64 → Selects s.lb.upstreams result) := by
  obtain ⟨balancer, steps⟩ := s
  obtain ⟨hsound, hmembers⟩ := hs
  cases balancer with
  | roundRobin rr =>
    obtain ⟨rfl, rfl⟩ : rr.next.1 = result ∧ .roundRobin rr.next.2 = lb := by
      simpa [Balancer.next] using hnext
    obtain ⟨count, hcount, hidx⟩ := hsound
    obtain ⟨hupstreams, hnextidx⟩ := roundRobin_next rr
    refine ⟨⟨⟨count + Balancer.cost (.roundRobin rr), Nat.add_le_add_right hcount _, ?_⟩, ?_⟩, ?_⟩
    · rw [hnextidx, UInt64.ofNat_add, ← hidx]
      rfl
    · simpa [Balancer.upstreams, hupstreams] using hmembers
    · intro hsteps
      refine RoundRobin.selects_next ?_
      have hcount' : count ≤ steps := hcount
      have hlt : steps + Balancer.cost (.roundRobin rr) < 2 ^ 64 := hsteps
      have htoNat : rr.idx.toNat = count := by
        rw [hidx, UInt64.toNat_ofNat']
        exact Nat.mod_eq_of_lt (by omega)
      rw [htoNat]
      exact Nat.le_of_lt (Nat.lt_of_le_of_lt (Nat.add_le_add_right hcount' _) hlt)
  | weightedRoundRobin wrr =>
    obtain ⟨rfl, rfl⟩ : wrr.next.1 = result ∧ .weightedRoundRobin wrr.next.2 = lb := by
      simpa [Balancer.next] using hnext
    obtain ⟨hselects, hpositive, hupstreams⟩ := WeightedRoundRobin.next_spec hsound
    refine ⟨⟨hpositive, ?_⟩, fun _ => hselects⟩
    simpa [Balancer.upstreams, hupstreams] using hmembers
  | maglev m =>
    obtain ⟨⟨chosen, t⟩, hm, hresult⟩ := Option.map_eq_some_iff.mp hnext
    obtain ⟨rfl, rfl⟩ : chosen = result ∧ .maglev t = lb := by simpa using hresult
    obtain ⟨hselects, hbuilt, hupstreams⟩ := Maglev.Built.next_spec hsound hm
    refine ⟨⟨hbuilt, ?_⟩, fun _ => hselects⟩
    simpa [Balancer.upstreams, hupstreams] using hmembers
  | leastConnections lc =>
    obtain ⟨rfl, rfl⟩ : lc.next = result ∧ .leastConnections lc = lb := by
      simpa [Balancer.next] using hnext
    exact ⟨⟨trivial, hmembers⟩, fun _ => lc.selects_next⟩

theorem markHealthy {s : Balanced} (hs : s.Serves upstreams) (url : Str) (healthy : Bool)
    (now : Int) : Balanced.Serves upstreams ⟨s.lb.markHealthy url healthy now, s.steps + 1⟩ := by
  obtain ⟨balancer, steps⟩ := s
  obtain ⟨hsound, hmembers⟩ := hs
  cases balancer with
  | roundRobin rr =>
    obtain ⟨count, hcount, hidx⟩ := hsound
    exact ⟨⟨count, Nat.le_succ_of_le hcount, hidx⟩, (map_url_markHealthy ..).trans hmembers⟩
  | weightedRoundRobin wrr => exact ⟨hsound, (map_url_markHealthy ..).trans hmembers⟩
  | maglev m =>
    obtain ⟨hbuilt, hurls⟩ := Maglev.Built.markHealthy hsound url healthy now
    exact ⟨hbuilt, hurls.trans hmembers⟩
  | leastConnections lc => exact ⟨trivial, (map_url_markHealthy ..).trans hmembers⟩

theorem step (s : Balanced) (a : BalancerCall) (t : Balanced) (hs : s.Serves upstreams)
    (_ : Runs.Unrestricted s a) (hstep : balancerStep s a = some t) : t.Serves upstreams := by
  cases a with
  | next path rawQuery =>
    obtain ⟨⟨result, lb⟩, hnext, rfl⟩ := Option.map_eq_some_iff.mp hstep
    exact (hs.next hnext).1
  | markHealthy url healthy now =>
    cases hstep
    exact hs.markHealthy url healthy now

end Balanced.Serves

/-- The balancer is maglev. -/
def Balancer.isMaglev : Balancer → Bool
  | .maglev _ => true
  | _ => false

theorem isMaglev_step {t : Balanced} {a : BalancerCall} (hstep : balancerStep s a = some t) :
    t.lb.isMaglev = s.lb.isMaglev := by
  obtain ⟨balancer, steps⟩ := s
  cases a with
  | next path rawQuery =>
    obtain ⟨⟨result, lb⟩, hnext, rfl⟩ := Option.map_eq_some_iff.mp hstep
    cases balancer with
    | maglev m =>
      obtain ⟨r, -, hr⟩ := Option.map_eq_some_iff.mp hnext
      cases hr
      rfl
    | roundRobin rr | weightedRoundRobin wrr | leastConnections lc =>
      cases hnext
      rfl
  | markHealthy url healthy now =>
    cases hstep
    cases balancer <;> rfl

/-- In every run of a balancer in which the choices and the health reports take fewer than
2^64 steps, where a choice of round robin takes a step for each upstream it looks at, every
choice meets the contract. -/
theorem next_selects {algorithm : Str} {upstreams : List Upstream} {lb₀ lb : Balancer}
    {s : Balanced} {path rawQuery : Str} {result : Option Nat}
    (hnew : Balancer.new algorithm upstreams = some lb₀)
    (hreach : Runs.Reaches balancerStep Runs.Unrestricted ⟨lb₀, 0⟩ s)
    (hnext : s.lb.next path rawQuery = some (result, lb))
    (hsteps : s.steps + s.lb.cost < 2 ^ 64) :
    s.lb.upstreams.map Upstream.url = upstreams.map Upstream.url ∧
      Selects s.lb.upstreams result := by
  have hs := hreach.invariant Balanced.Serves.step (serves_new hnew)
  exact ⟨hs.members, (hs.next hnext).2 hsteps⟩

/-- While no upstream is healthy, every choice of round robin advances the counter by the
number of upstreams. -/
theorem exec_replicate_next (hne : upstreams ≠ []) (hdown : ∀ i, healthyAt upstreams i = false)
    (n : Nat) (idx : UInt64) (steps : Nat) :
    ∃ steps', Runs.exec balancerStep ⟨.roundRobin ⟨upstreams, idx⟩, steps⟩
      (List.replicate n (.next [] [])) =
        some ⟨.roundRobin ⟨upstreams, idx + UInt64.ofNat (upstreams.length * n)⟩, steps'⟩ := by
  induction n generalizing idx steps with
  | zero => exact ⟨steps, by simp [Runs.exec]⟩
  | succ n ih =>
    have hnext : (RoundRobin.next ⟨upstreams, idx⟩).2 =
        ⟨upstreams, idx + UInt64.ofNat upstreams.length⟩ := by
      simp [RoundRobin.next, hne, RoundRobin.scan_of_down hdown]
    obtain ⟨steps', hexec⟩ := ih (idx + UInt64.ofNat upstreams.length)
      (steps + Balancer.cost (.roundRobin ⟨upstreams, idx⟩))
    refine ⟨steps', ?_⟩
    rw [List.replicate_succ, Runs.exec, balancerStep, Balancer.next, hnext, Option.map_some,
      Option.bind_some, hexec, Nat.mul_succ, Nat.add_comm _ upstreams.length, UInt64.ofNat_add,
      UInt64.add_assoc]

def threeUpstreams : List Upstream :=
  [⟨str "http://a", 1, true, 0⟩, ⟨str "http://b", 1, true, 0⟩, ⟨str "http://c", 1, true, 0⟩]

def reportsDown : List BalancerCall :=
  [.markHealthy (str "http://a") false 1, .markHealthy (str "http://b") false 2,
    .markHealthy (str "http://c") false 3]

def threeDown : List Upstream :=
  [⟨str "http://a", 1, false, 1⟩, ⟨str "http://b", 1, false, 2⟩, ⟨str "http://c", 1, false, 3⟩]

def thirdUp : List Upstream :=
  [⟨str "http://a", 1, false, 1⟩, ⟨str "http://b", 1, false, 2⟩, ⟨str "http://c", 1, true, 4⟩]

/-- A number of choices while all are down, and then a report that the third upstream is
up. -/
def downCalls (n : Nat) : List BalancerCall :=
  reportsDown ++ (List.replicate n (.next [] []) ++ [.markHealthy (str "http://c") true 4])

theorem exec_downCalls (n : Nat) :
    ∃ steps, Runs.exec balancerStep ⟨.roundRobin (.new threeUpstreams), 0⟩ (downCalls n) =
      some ⟨.roundRobin ⟨thirdUp, UInt64.ofNat (3 * n)⟩, steps⟩ := by
  have hdown : ∀ i, healthyAt threeDown i = false := by
    intro i
    rcases i with _ | _ | _ | i <;> rfl
  have hne : threeDown ≠ [] := by decide
  obtain ⟨steps, hexec⟩ := exec_replicate_next hne hdown n 0 3
  have hreports : Runs.exec balancerStep ⟨.roundRobin (.new threeUpstreams), 0⟩ reportsDown =
      some ⟨.roundRobin ⟨threeDown, 0⟩, 3⟩ := rfl
  refine ⟨steps + 1, ?_⟩
  rw [downCalls, Runs.exec_append, hreports, Option.bind_some, Runs.exec_append, hexec,
    Option.bind_some, UInt64.zero_add]
  rfl

/-- In a run of fewer than 2^64 calls the counter of round robin wraps around, and a choice
looks at the first upstream twice and misses the only healthy one. -/
theorem wrapped_not_selects :
    Balancer.new (str "round_robin") threeUpstreams = some (.roundRobin (.new threeUpstreams)) ∧
    (downCalls 6148914691236517205).length + 1 < 2 ^ 64 ∧
    ∃ s lb, Runs.exec balancerStep ⟨.roundRobin (.new threeUpstreams), 0⟩
        (downCalls 6148914691236517205) = some s ∧
      s.lb.next [] [] = some (some 0, lb) ∧ healthyAt s.lb.upstreams 2 = true ∧
      ¬ Selects s.lb.upstreams (some 0) := by
  obtain ⟨steps, hexec⟩ := exec_downCalls 6148914691236517205
  refine ⟨rfl, ?_, _, .roundRobin ⟨thirdUp, 2⟩, hexec, rfl, rfl, ?_⟩
  · rw [downCalls, List.length_append, List.length_append, List.length_replicate]
    decide
  · rintro ⟨u, hu, hhealthy | ⟨hdown, -⟩⟩
    · cases hu
      exact absurd hhealthy (by decide)
    · exact absurd (hdown _ (List.mem_of_getElem? (i := 2) rfl)) (by decide)

theorem maglev_new_threeUpstreams : ∃ m, Maglev.new threeUpstreams = some m := by
  have hchecksums : ∀ u ∈ allHealthy threeUpstreams,
      (checksumIEEE (u.url ++ str "2")).toNat % maglevTableSize ≠ 0 := by decide +kernel
  exact Option.isSome_iff_exists.mp (Maglev.buildTable_isSome fun u hu _ => hchecksums u hu)

/-- Round robin passes over an upstream that is down, and maglev chooses one of three. -/
theorem threeUpstreams_selects :
    Selects (markHealthy (str "http://a") false 1 threeUpstreams) (some 1) ∧
    ∃ m result, Maglev.new threeUpstreams = some m ∧ m.choose (str "/") [] = some result ∧
      Selects m.upstreams result := by
  constructor
  · have hnew : Balancer.new [] threeUpstreams = some (.roundRobin (.new threeUpstreams)) := rfl
    have hdown : balancerStep ⟨.roundRobin (.new threeUpstreams), 0⟩
        (.markHealthy (str "http://a") false 1) =
          some ⟨.roundRobin ⟨markHealthy (str "http://a") false 1 threeUpstreams, 0⟩, 1⟩ := rfl
    have hnext : (Balancer.roundRobin
        ⟨markHealthy (str "http://a") false 1 threeUpstreams, 0⟩).next [] [] =
          some (some 1, .roundRobin ⟨markHealthy (str "http://a") false 1 threeUpstreams, 2⟩) := rfl
    exact (next_selects hnew (.of_step trivial hdown) hnext (by decide)).2
  · obtain ⟨m, hm⟩ := maglev_new_threeUpstreams
    obtain ⟨hbuilt, -, hclean⟩ := Maglev.built_new hm
    obtain ⟨result, hchoose, -⟩ := hbuilt.choose_spec (str "/") []
    refine ⟨m, result, hm, hchoose, ?_⟩
    have hnew : Balancer.new (str "maglev") threeUpstreams = some (.maglev m) := by
      have hrest : Balancer.new (str "maglev") threeUpstreams =
          (Maglev.new threeUpstreams).map .maglev := rfl
      rw [hrest, hm, Option.map_some]
    have hnext : (Balancer.maglev m).next (str "/") [] = some (result, .maglev m) := by
      simp [Balancer.next, Maglev.next, Maglev.refresh, hclean, hchoose]
    exact (next_selects hnew .refl hnext (by simp [Balancer.cost])).2

end Peretum.LoadBalancer
