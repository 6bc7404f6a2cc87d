import Peretum.LoadBalancer.Selection
import Peretum.Rotation

/-!
# Probing dead upstreams

When no upstream is healthy, every request goes to the one whose last check is the
oldest, and the failure is reported back. Three of the balancers record the time of
every report, so the upstreams take turns. Maglev records only reports that change
something, so a dead upstream stays the oldest and gets every request.
-/

namespace Peretum.LoadBalancer

open Go

/-- A request while nothing works, and the time its failure is reported. -/
structure Round where
  path : Str
  rawQuery : Str
  now : Int

namespace Balancer

/-- `Next`, and `MarkHealthy` with the URL of the chosen upstream and false. -/
def round (lb : Balancer) (r : Round) : Option (Option Nat × Balancer) :=
  (lb.next r.path r.rawQuery).map fun choice =>
    (choice.1, match choice.1.bind fun i => choice.2.upstreams[i]? with
      | none => choice.2
      | some u => choice.2.markHealthy u.url false r.now)

/-- Several rounds, with the choices they make. -/
def rounds : Balancer → List Round → Option (List (Option Nat) × Balancer)
  | lb, [] => some ([], lb)
  | lb, r :: rest =>
      (lb.round r).bind fun first =>
        (rounds first.2 rest).map fun later => (first.1 :: later.1, later.2)

/-- The rounds choose every upstream exactly once. -/
def RetriesAll (lb : Balancer) (rs : List Round) : Prop :=
  ∃ chosen lb', lb.rounds rs = some (chosen, lb') ∧
    chosen.Perm ((List.range lb.upstreams.length).map some)

end Balancer

/-- No upstream is healthy. -/
def Down (upstreams : List Upstream) : Prop := ∀ u ∈ upstreams, u.healthy = false

variable {upstreams : List Upstream} {m : Maglev}

theorem Down.healthyAt (hdown : Down upstreams) (i : Nat) : healthyAt upstreams i = false := by
  unfold LoadBalancer.healthyAt
  cases hi : upstreams[i]? with
  | none => rfl
  | some u => exact hdown u (List.mem_of_getElem? hi)

theorem exists_probeCandidate (hne : upstreams ≠ []) (hdown : Down upstreams) :
    ∃ i u, probeCandidate upstreams = some i ∧ upstreams[i]? = some u ∧
      ∀ v ∈ upstreams, u.lastCheck ≤ v.lastCheck := by
  have hselects := selects_probeCandidate hdown
  cases hprobe : probeCandidate upstreams with
  | none =>
    rw [hprobe] at hselects
    exact absurd hselects hne
  | some i =>
    rw [hprobe] at hselects
    obtain ⟨u, hu, hhealthy | ⟨-, holdest⟩⟩ := hselects
    · exact absurd hhealthy (by simp [hdown u (List.mem_of_getElem? hu)])
    · exact ⟨i, u, rfl, hu, holdest⟩

theorem RoundRobin.next_of_down {rr : RoundRobin} (hne : rr.upstreams ≠ [])
    (hdown : Down rr.upstreams) :
    rr.next.1 = probeCandidate rr.upstreams ∧ rr.next.2.upstreams = rr.upstreams := by
  simp [next, hne, scan_of_down hdown.healthyAt]

theorem WeightedRoundRobin.scan_of_down (hdown : Down upstreams) (weights : Nat → Int)
    (turns current : Nat) : (scan upstreams weights turns current).1 = none := by
  induction turns generalizing current with
  | zero => rfl
  | succ turns ih => simp [scan, hdown.healthyAt, ih]

theorem WeightedRoundRobin.next_of_down {wrr : WeightedRoundRobin} (hne : wrr.upstreams ≠ [])
    (hdown : Down wrr.upstreams) :
    wrr.next.1 = probeCandidate wrr.upstreams ∧ wrr.next.2.upstreams = wrr.upstreams := by
  have hnone := scan_of_down hdown wrr.weights wrr.upstreams.length wrr.current
  unfold next
  rw [if_neg hne]
  rcases hscan : scan wrr.upstreams wrr.weights wrr.upstreams.length wrr.current with ⟨result, at_⟩
  rw [hscan] at hnone
  obtain rfl : result = none := hnone
  exact ⟨rfl, rfl⟩

theorem LeastConnections.leastFrom_of_down (hdown : Down upstreams) (active : Nat → Int) (i : Nat)
    (bestActive : Int) : leastFrom active i none bestActive upstreams = none := by
  induction upstreams generalizing i with
  | nil => rfl
  | cons u upstreams ih =>
    have hu : u.healthy = false := hdown u List.mem_cons_self
    rw [leastFrom, if_pos (by simp [hu])]
    exact ih (fun v hv => hdown v (List.mem_cons_of_mem _ hv)) (i + 1)

theorem LeastConnections.next_of_down {lc : LeastConnections} (hdown : Down lc.upstreams) :
    lc.next = probeCandidate lc.upstreams := by
  rw [next, leastFrom_of_down hdown]

/-- While all are down, maglev falls back to the candidate and keeps its table. -/
theorem Maglev.next_of_down (hbuilt : m.Built) (hne : m.upstreams ≠ []) (hdown : Down m.upstreams)
    (path rawQuery : Str) :
    ∃ t, m.next path rawQuery = some (probeCandidate m.upstreams, t) ∧
      t.upstreams = m.upstreams ∧ t.Built := by
  have hany : m.upstreams.any Upstream.healthy = false := by
    rw [List.any_eq_false]
    exact fun u hu => by simp [hdown u hu]
  have hrefresh : ∃ t, m.refresh = some t ∧ t.upstreams = m.upstreams ∧ t.Built := by
    unfold refresh
    split
    · exact ⟨{ m with dirty := false }, by simp [buildTable, hany], rfl, hbuilt.table, hbuilt.cells⟩
    · exact ⟨m, rfl, rfl, hbuilt⟩
  obtain ⟨t, ht, hsame, htbuilt⟩ := hrefresh
  refine ⟨t, ?_, hsame, htbuilt⟩
  rw [← hsame] at hne hdown ⊢
  obtain ⟨table, htable⟩ := Option.isSome_iff_exists.mp (htbuilt.table hne)
  let idx := table ((checksumIEEE (path ++ rawQuery)).toNat % maglevTableSize)
  have hidx : idx < t.upstreams.length := htbuilt.cells table htable _
  have hget : t.upstreams[idx]? = some t.upstreams[idx] := List.getElem?_eq_getElem hidx
  have hcell : t.upstreams[idx].healthy = false := hdown _ (List.getElem_mem hidx)
  have hfirst : firstHealthy t.upstreams = probeCandidate t.upstreams := by
    have hnone : t.upstreams.findIdx? Upstream.healthy = none := by
      rw [List.findIdx?_eq_none_iff]
      exact fun u hu => by simp [hdown u hu]
    rw [firstHealthy, hnone]
  have hchoose : t.choose path rawQuery = some (probeCandidate t.upstreams) := by
    unfold choose
    rw [if_neg hne, htable]
    change (t.upstreams[idx]?).map _ = _
    rw [hget, Option.map_some, hcell, if_neg (by simp), hfirst]
  simp [next, ht, hchoose]

/-- The report about a dead upstream changes nothing in maglev. -/
theorem Maglev.markHealthy_of_down (hdown : Down m.upstreams) (url : Str) (now : Int) :
    m.markHealthy url false now = m := by
  unfold markHealthy
  cases hfind : m.upstreams.find? (·.url = url) with
  | none => rfl
  | some u => simp [hdown u (List.mem_of_find?_eq_some hfind)]

theorem Maglev.round_of_down (hbuilt : m.Built) (hne : m.upstreams ≠ []) (hdown : Down m.upstreams)
    (r : Round) :
    ∃ t, Balancer.round (.maglev m) r = some (probeCandidate m.upstreams, .maglev t) ∧
      t.upstreams = m.upstreams ∧ t.Built := by
  obtain ⟨t, hnext, hsame, htbuilt⟩ := next_of_down hbuilt hne hdown r.path r.rawQuery
  refine ⟨t, ?_, hsame, htbuilt⟩
  have hreport : ∀ u : Upstream,
      Balancer.markHealthy u.url false r.now (.maglev t) = .maglev t := by
    intro u
    rw [Balancer.markHealthy, markHealthy_of_down (hsame ▸ hdown)]
  simp only [Balancer.round, Balancer.next, hnext, Option.map_some, hreport]
  split <;> rfl

theorem Maglev.rounds_of_down (hbuilt : m.Built) (hne : m.upstreams ≠ []) (hdown : Down m.upstreams)
    (rs : List Round) :
    ∃ lb, Balancer.rounds (.maglev m) rs =
      some (List.replicate rs.length (probeCandidate m.upstreams), lb) := by
  induction rs generalizing m with
  | nil => exact ⟨.maglev m, rfl⟩
  | cons r rs ih =>
    obtain ⟨t, hround, hsame, htbuilt⟩ := round_of_down hbuilt hne hdown r
    obtain ⟨lb, hrest⟩ := ih htbuilt (hsame ▸ hne) (hsame ▸ hdown)
    refine ⟨lb, ?_⟩
    rw [Balancer.rounds, hround, Option.bind_some, hrest, hsame]
    rfl

/-- The time of the last check of the upstream at an index. -/
def checkedAt (upstreams : List Upstream) (i : Nat) : Int :=
  (upstreams[i]?).elim 0 Upstream.lastCheck

theorem markHealthy_eq_set (hdistinct : (upstreams.map Upstream.url).Nodup) {i : Nat} {u : Upstream}
    (hu : upstreams[i]? = some u) (healthy : Bool) (now : Int) :
    markHealthy u.url healthy now upstreams =
      upstreams.set i { u with healthy := healthy, lastCheck := now } := by
  induction upstreams generalizing i with
  | nil => simp at hu
  | cons v upstreams ih =>
    obtain ⟨hnew, hrest⟩ := List.nodup_cons.mp hdistinct
    cases i with
    | zero =>
      obtain rfl : v = u := by simpa using hu
      simp [markHealthy]
    | succ i =>
      have hu' : upstreams[i]? = some u := by simpa using hu
      have hurl : v.url ≠ u.url := by
        intro heq
        exact hnew (heq ▸ List.mem_map_of_mem (List.mem_of_getElem? hu'))
      rw [markHealthy, if_neg hurl, ih hrest hu', List.set_cons_succ]

theorem checkedAt_set {i : Nat} (hi : i < upstreams.length) (u : Upstream) :
    checkedAt (upstreams.set i u) = Function.update (checkedAt upstreams) i u.lastCheck := by
  funext j
  unfold checkedAt
  by_cases hj : j = i
  · subst hj
    simp [hi]
  · simp [hj, Ne.symm hj]

namespace Balancer

variable {lb : Balancer}

theorem round_of_down (hmaglev : lb.isMaglev = false) (hne : lb.upstreams ≠ [])
    (hdown : Down lb.upstreams) (r : Round) {i : Nat} {u : Upstream}
    (hprobe : probeCandidate lb.upstreams = some i) (hu : lb.upstreams[i]? = some u) :
    ∃ lb', lb.round r = some (some i, lb') ∧ lb'.isMaglev = false ∧
      lb'.upstreams = LoadBalancer.markHealthy u.url false r.now lb.upstreams := by
  cases lb with
  | roundRobin rr =>
    obtain ⟨hnext, hsame⟩ := RoundRobin.next_of_down hne hdown
    refine ⟨.roundRobin { rr.next.2 with
      upstreams := LoadBalancer.markHealthy u.url false r.now rr.next.2.upstreams }, ?_, rfl, ?_⟩
    · have hget : rr.next.2.upstreams[i]? = some u := hsame ▸ hu
      have hchosen : rr.next.1 = some i := hnext.trans hprobe
      simp only [round, next, Option.map_some, hchosen, Option.bind_some, upstreams, hget,
        markHealthy]
    · exact congrArg _ hsame
  | weightedRoundRobin wrr =>
    obtain ⟨hnext, hsame⟩ := WeightedRoundRobin.next_of_down hne hdown
    refine ⟨.weightedRoundRobin { wrr.next.2 with
      upstreams := LoadBalancer.markHealthy u.url false r.now wrr.next.2.upstreams }, ?_, rfl, ?_⟩
    · have hget : wrr.next.2.upstreams[i]? = some u := hsame ▸ hu
      have hchosen : wrr.next.1 = some i := hnext.trans hprobe
      simp only [round, next, Option.map_some, hchosen, Option.bind_some, upstreams, hget,
        markHealthy]
    · exact congrArg _ hsame
  | maglev m => cases hmaglev
  | leastConnections lc =>
    refine ⟨.leastConnections { lc with
      upstreams := LoadBalancer.markHealthy u.url false r.now lc.upstreams }, ?_, rfl, rfl⟩
    have hchosen : lc.next = some i := (LeastConnections.next_of_down hdown).trans hprobe
    have hget : lc.upstreams[i]? = some u := hu
    simp only [round, next, Option.map_some, hchosen, Option.bind_some, upstreams, hget,
      markHealthy]

theorem rounds_of_down (hmaglev : lb.isMaglev = false) (hne : lb.upstreams ≠ [])
    (hdistinct : (lb.upstreams.map Upstream.url).Nodup) (hdown : Down lb.upstreams)
    (rs : List Round) :
    ∃ (turns : List (Nat × Int)) (lb' : Balancer),
      lb.rounds rs = some (turns.map fun turn => some turn.1, lb') ∧
      turns.map Prod.snd = rs.map Round.now ∧
      Rotation.Turns (Finset.range lb.upstreams.length) (checkedAt lb.upstreams) turns := by
  induction rs generalizing lb with
  | nil => exact ⟨[], lb, rfl, rfl, trivial⟩
  | cons r rs ih =>
    obtain ⟨i, u, hprobe, hu, holdest⟩ := exists_probeCandidate hne hdown
    obtain ⟨lb₁, hround, hmaglev₁, hupstreams⟩ := round_of_down hmaglev hne hdown r hprobe hu
    have hi : i < lb.upstreams.length := (List.getElem?_eq_some_iff.mp hu).1
    have hset := markHealthy_eq_set hdistinct hu false r.now
    have hdown₁ : Down lb₁.upstreams := by
      rw [hupstreams, hset]
      intro v hv
      rcases List.mem_or_eq_of_mem_set hv with hv | rfl
      · exact hdown v hv
      · rfl
    have hlength : lb₁.upstreams.length = lb.upstreams.length := by
      rw [hupstreams, hset, List.length_set]
    have hne₁ : lb₁.upstreams ≠ [] := by
      rw [← List.length_pos_iff_ne_nil, hlength]
      exact List.length_pos_of_ne_nil hne
    have hdistinct₁ : (lb₁.upstreams.map Upstream.url).Nodup := by
      rw [hupstreams, map_url_markHealthy]
      exact hdistinct
    obtain ⟨turns, lb', hrest, htimes, hturns⟩ := ih hmaglev₁ hne₁ hdistinct₁ hdown₁
    refine ⟨(i, r.now) :: turns, lb', ?_, by simp [htimes], ⟨Finset.mem_range.mpr hi, ?_⟩, ?_⟩
    · rw [rounds, hround, Option.bind_some, hrest]
      rfl
    · intro j hj
      have hj' : j < lb.upstreams.length := Finset.mem_range.mp hj
      have hstamp : checkedAt lb.upstreams i = u.lastCheck := by simp [checkedAt, hu]
      rw [hstamp, checkedAt, List.getElem?_eq_getElem hj']
      exact holdest _ (List.getElem_mem hj')
    · rw [hlength, hupstreams, hset, checkedAt_set hi] at hturns
      exact hturns

theorem retriesAll_of_not_maglev (hmaglev : lb.isMaglev = false) (hne : lb.upstreams ≠ [])
    (hdistinct : (lb.upstreams.map Upstream.url).Nodup) (hdown : Down lb.upstreams)
    {rs : List Round} (hlength : rs.length = lb.upstreams.length)
    (hpast : ∀ u ∈ lb.upstreams, ∀ r ∈ rs, u.lastCheck < r.now) : lb.RetriesAll rs := by
  obtain ⟨turns, lb', hrounds, htimes, hturns⟩ := rounds_of_down hmaglev hne hdistinct hdown rs
  have hcount : turns.length = lb.upstreams.length := by
    rw [← hlength, ← List.length_map (f := Prod.snd), htimes, List.length_map]
  have hnodup : (turns.map Prod.fst).Nodup := by
    refine hturns.nodup ?_ (by simp [hcount])
    intro turn hturn j hj
    have hj' : j < lb.upstreams.length := Finset.mem_range.mp hj
    obtain ⟨r, hr, hnow⟩ : ∃ r ∈ rs, r.now = turn.2 :=
      List.mem_map.mp (htimes ▸ List.mem_map_of_mem hturn)
    rw [checkedAt, List.getElem?_eq_getElem hj', ← hnow]
    exact hpast _ (List.getElem_mem hj') r hr
  have hsubset : turns.map Prod.fst ⊆ List.range lb.upstreams.length := by
    intro i hi
    obtain ⟨turn, hturn, rfl⟩ := List.mem_map.mp hi
    exact List.mem_range.mpr (Finset.mem_range.mp (hturns.mem turn hturn))
  have hperm : (turns.map Prod.fst).Perm (List.range lb.upstreams.length) :=
    (List.subperm_of_subset hnodup hsubset).perm_of_length_le (by simp [hcount])
  refine ⟨_, lb', hrounds, ?_⟩
  have hsome := hperm.map some
  rwa [List.map_map] at hsome

theorem retriesAll_maglev {m : Maglev} (hbuilt : m.Built) (hne : m.upstreams ≠ [])
    (hdown : Down m.upstreams) {rs : List Round} (hlength : rs.length = m.upstreams.length) :
    (Balancer.maglev m).RetriesAll rs ↔ m.upstreams.length = 1 := by
  obtain ⟨i, u, hprobe, hu, -⟩ := exists_probeCandidate hne hdown
  obtain ⟨lb', hrounds⟩ := Maglev.rounds_of_down hbuilt hne hdown rs
  have hi : i < m.upstreams.length := (List.getElem?_eq_some_iff.mp hu).1
  rw [hlength, hprobe] at hrounds
  constructor
  · rintro ⟨chosen, lb'', hchosen, hperm⟩
    obtain ⟨rfl, -⟩ := Prod.mk.inj (Option.some.inj (hrounds.symm.trans hchosen))
    have hnodup : (List.replicate m.upstreams.length (some i)).Nodup := by
      refine hperm.nodup_iff.mpr ?_
      exact List.Nodup.map (Option.some_injective _) List.nodup_range
    have hle := List.nodup_replicate.mp hnodup
    omega
  · intro hone
    obtain rfl : i = 0 := by omega
    refine ⟨_, lb', hrounds, ?_⟩
    have hupstreams : (Balancer.maglev m).upstreams = m.upstreams := rfl
    rw [hupstreams, hone]
    exact .refl _

/-- From every state in which no upstream is healthy and all checks are in the past, as many
rounds as there are upstreams choose each of them exactly once, unless the balancer is
maglev with more than one upstream. -/
theorem retriesAll_iff {lb : Balancer} (hbuilt : ∀ m, lb = .maglev m → m.Built)
    (hne : lb.upstreams ≠ []) (hdistinct : (lb.upstreams.map Upstream.url).Nodup)
    (hdown : Down lb.upstreams) {rs : List Round} (hlength : rs.length = lb.upstreams.length)
    (hpast : ∀ u ∈ lb.upstreams, ∀ r ∈ rs, u.lastCheck < r.now) :
    lb.RetriesAll rs ↔ lb.isMaglev = false ∨ lb.upstreams.length = 1 := by
  cases hmaglev : lb.isMaglev with
  | false =>
    have hretries := retriesAll_of_not_maglev hmaglev hne hdistinct hdown hlength hpast
    exact iff_of_true hretries (.inl rfl)
  | true =>
    simp only [reduceCtorEq, false_or]
    cases lb with
    | maglev m => exact retriesAll_maglev (hbuilt m rfl) hne hdown hlength
    | roundRobin rr | weightedRoundRobin wrr | leastConnections lc => cases hmaglev

def threeRounds : List Round := [⟨str "/a", [], 4⟩, ⟨str "/b", [], 5⟩, ⟨str "/c", [], 6⟩]

/-- Maglev over three upstreams that were all reported down retries the first one three
times. -/
theorem deadMaglev_not_retriesAll :
    ∃ m s lb, Balancer.new (str "maglev") threeUpstreams = some (.maglev m) ∧
      Runs.exec balancerStep ⟨.maglev m, 0⟩ reportsDown = some s ∧ s.lb.upstreams = threeDown ∧
      s.lb.rounds threeRounds = some ([some 0, some 0, some 0], lb) ∧
      ¬ s.lb.RetriesAll threeRounds := by
  obtain ⟨m, hm⟩ := maglev_new_threeUpstreams
  obtain ⟨hbuilt, hupstreams, -⟩ := Maglev.built_new hm
  obtain ⟨upstreams, table, dirty⟩ := m
  obtain rfl : upstreams = allHealthy threeUpstreams := hupstreams
  have hnew : Balancer.new (str "maglev") threeUpstreams =
      (Maglev.new threeUpstreams).map .maglev := rfl
  have hdown : Down threeDown := (by decide : ∀ u ∈ threeDown, u.healthy = false)
  have hall : allHealthy threeUpstreams ≠ [] := by decide
  have hthree : threeDown ≠ [] := by decide
  have hdead : Maglev.Built ⟨threeDown, table, true⟩ := ⟨fun _ => hbuilt.table hall, hbuilt.cells⟩
  obtain ⟨lb, hrounds⟩ := Maglev.rounds_of_down hdead hthree hdown threeRounds
  refine ⟨_, ⟨.maglev ⟨threeDown, table, true⟩, 3⟩, lb, by rw [hnew, hm, Option.map_some], rfl, rfl,
    hrounds, ?_⟩
  rw [retriesAll_maglev hdead hthree hdown rfl]
  exact (by decide : ¬ threeDown.length = 1)

/-- Round robin retries all three. -/
theorem deadRoundRobin_retriesAll :
    (Balancer.roundRobin ⟨threeDown, 0⟩).RetriesAll threeRounds := by
  refine (retriesAll_iff (fun m hm => by cases hm) (by decide) (by decide) ?_ rfl ?_).mpr (.inl rfl)
  · exact (by decide : ∀ u ∈ threeDown, u.healthy = false)
  · exact (by decide : ∀ u ∈ threeDown, ∀ r ∈ threeRounds, u.lastCheck < r.now)

end Balancer

end Peretum.LoadBalancer
