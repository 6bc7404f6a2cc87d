import Peretum.LoadBalancer.Selection

/-!
# The memory of maglev

Between two choices maglev keeps a table and a flag that says whether the table is to be
built again. Reports set the flag, choices clear it, and a build leaves the table alone
while every upstream is down. This file shows that none of this can be seen: while an
upstream is healthy, a choice depends on the URLs, on which upstreams are healthy now, and
on the request.
-/

namespace Peretum.LoadBalancer

open Go

variable {us vs : List Upstream}

/-- Two lists of upstreams agree on the URLs and on who is healthy. -/
structure SameHealth (us vs : List Upstream) : Prop where
  urls : us.map Upstream.url = vs.map Upstream.url
  healthy : us.map Upstream.healthy = vs.map Upstream.healthy

theorem sameHealth_of_healthyIndices (hurls : us.map Upstream.url = vs.map Upstream.url)
    (hsame : healthyIndices us = healthyIndices vs) : SameHealth us vs := by
  have hlength : us.length = vs.length := by simpa using congrArg List.length hurls
  refine ⟨hurls, List.ext_getElem (by simpa using hlength) fun i hi hi' => ?_⟩
  rw [List.length_map] at hi hi'
  have hiff : healthyAt us i = true ↔ healthyAt vs i = true := by
    rw [← mem_healthyIndices, hsame, mem_healthyIndices]
  rw [healthyAt, healthyAt, List.getElem?_eq_getElem hi, List.getElem?_eq_getElem hi',
    Option.any_some, Option.any_some] at hiff
  rw [List.getElem_map, List.getElem_map]
  exact Bool.eq_iff_iff.mpr hiff

namespace SameHealth

variable (h : SameHealth us vs)

include h

theorem length_eq : us.length = vs.length := by simpa using congrArg List.length h.urls

theorem healthyAt_eq (i : Nat) : healthyAt us i = healthyAt vs i := by
  have hflag : (us.map Upstream.healthy)[i]? = (vs.map Upstream.healthy)[i]? := by rw [h.healthy]
  rw [List.getElem?_map, List.getElem?_map] at hflag
  rw [healthyAt, healthyAt]
  cases hu : us[i]? with
  | none =>
    rw [hu, Option.map_none, eq_comm, Option.map_eq_none_iff] at hflag
    rw [hflag]
  | some u =>
    rw [hu, Option.map_some, eq_comm, Option.map_eq_some_iff] at hflag
    obtain ⟨v, hv, hsame⟩ := hflag
    rw [hv]
    exact hsame.symm

theorem findIdx?_eq : us.findIdx? Upstream.healthy = vs.findIdx? Upstream.healthy := by
  have hflags : (us.map Upstream.healthy).findIdx? id = (vs.map Upstream.healthy).findIdx? id := by
    rw [h.healthy]
  simpa [List.findIdx?_map] using hflags

theorem fillTable_eq : Maglev.fillTable us = Maglev.fillTable vs := by
  have hurl : ∀ i : Nat, (us[i]?).elim [] Upstream.url = (vs[i]?).elim [] Upstream.url := by
    intro i
    have hget : (us.map Upstream.url)[i]? = (vs.map Upstream.url)[i]? := by rw [h.urls]
    rw [List.getElem?_map, List.getElem?_map] at hget
    have helim : ∀ o : Option Upstream, o.elim [] Upstream.url = (o.map Upstream.url).getD [] := by
      rintro (- | u) <;> rfl
    rw [helim, helim, hget]
  have hhealthy : healthyAt us = healthyAt vs := funext h.healthyAt_eq
  unfold Maglev.fillTable
  simp only [hurl, hhealthy, h.length_eq]

end SameHealth

namespace Maglev

/-- The table is the one for the present health, unless it is to be built again or every
upstream is down. -/
def Fresh (m : Maglev) : Prop :=
  m.dirty = false → m.upstreams.any Upstream.healthy = true →
    m.table.isSome ∧ m.table = fillTable m.upstreams

variable {m t : Maglev}

theorem fresh_of_buildTable (hbuild : m.buildTable = some t) (dirty : Bool) :
    Fresh { t with dirty := dirty } := by
  intro _ hhealthy
  unfold Maglev.buildTable at hbuild
  split at hbuild
  · obtain ⟨table, hfill, rfl⟩ := Option.map_eq_some_iff.mp hbuild
    exact ⟨rfl, hfill.symm⟩
  · next hdown =>
    cases hbuild
    exact absurd hhealthy hdown

theorem Fresh.refresh (hm : m.Fresh) (hrefresh : m.refresh = some t) :
    t.Fresh ∧ t.dirty = false := by
  unfold Maglev.refresh at hrefresh
  split at hrefresh
  · obtain ⟨u, hbuild, rfl⟩ := Option.map_eq_some_iff.mp hrefresh
    exact ⟨fresh_of_buildTable hbuild false, rfl⟩
  · next hclean =>
    cases hrefresh
    exact ⟨hm, by simpa using hclean⟩

/-- A report that changes the health asks for a build. -/
theorem Fresh.markHealthy (hm : m.Fresh) (url : Str) (healthy : Bool) (now : Int) :
    (m.markHealthy url healthy now).Fresh := by
  unfold Maglev.markHealthy
  split
  · exact hm
  · split
    · exact hm
    · intro hclean
      cases hclean

/-- `Next` leaves the table fresh. -/
theorem Fresh.next {path rawQuery : Str} {result : Option Nat} (hm : m.Fresh)
    (hnext : m.next path rawQuery = some (result, t)) : t.Fresh := by
  obtain ⟨u, hrefresh, hu⟩ := Option.bind_eq_some_iff.mp hnext
  obtain ⟨chosen, -, hchosen⟩ := Option.map_eq_some_iff.mp hu
  cases hchosen
  exact (hm.refresh hrefresh).1

/-- While an upstream is healthy, `Next` chooses by the table for the present health. -/
theorem Fresh.next_fst (hm : m.Fresh) (hhealthy : m.upstreams.any Upstream.healthy = true)
    (path rawQuery : Str) :
    (m.next path rawQuery).map Prod.fst =
      (fillTable m.upstreams).bind fun table =>
        (Maglev.mk m.upstreams (some table) false).choose path rawQuery := by
  have hrefresh : m.refresh = (fillTable m.upstreams).map fun table =>
      Maglev.mk m.upstreams (some table) false := by
    unfold Maglev.refresh
    split
    · rw [buildTable, if_pos hhealthy, Option.map_map]
      rfl
    · next hclean =>
      have hdirty : m.dirty = false := by simpa using hclean
      obtain ⟨hsome, htable⟩ := hm hdirty hhealthy
      obtain ⟨table, hsome⟩ := Option.isSome_iff_exists.mp hsome
      rw [← htable, hsome, Option.map_some, ← hsome, ← hdirty]
  rw [Maglev.next, hrefresh, Option.map_bind, Option.bind_map]
  simp [Function.comp_def]

theorem choose_of_table (hne : us ≠ []) (table : Nat → Nat) (path rawQuery : Str) :
    (Maglev.mk us (some table) false).choose path rawQuery =
      let idx := table ((checksumIEEE (path ++ rawQuery)).toNat % maglevTableSize)
      if idx < us.length then some (if healthyAt us idx then some idx else firstHealthy us)
      else none := by
  rw [choose, if_neg hne]
  dsimp only
  split
  · next hlt => simp [healthyAt, hlt]
  · next hge => simp [hge]

theorem choose_eq (h : SameHealth us vs) (hhealthy : us.any Upstream.healthy = true)
    (table : Nat → Nat) (path rawQuery : Str) :
    (Maglev.mk us (some table) false).choose path rawQuery =
      (Maglev.mk vs (some table) false).choose path rawQuery := by
  have hfirst : firstHealthy us = firstHealthy vs := by
    obtain ⟨i, hi⟩ : ∃ i, us.findIdx? Upstream.healthy = some i := by
      apply Option.isSome_iff_exists.mp
      rw [List.findIdx?_isSome]
      exact hhealthy
    rw [firstHealthy, firstHealthy, ← h.findIdx?_eq, hi]
  have hus : us ≠ [] := by
    rintro rfl
    cases hhealthy
  have hvs : vs ≠ [] := by
    intro hempty
    apply hus
    apply List.length_eq_zero_iff.mp
    rw [h.length_eq, hempty, List.length_nil]
  rw [choose_of_table hus, choose_of_table hvs]
  simp only [h.length_eq, h.healthyAt_eq, hfirst]

end Maglev

/-- What holds of maglev in every run: its table is fresh. -/
def Balancer.Fresh : Balancer → Prop
  | .maglev m => m.Fresh
  | _ => True

theorem Balancer.Fresh.step (s : Balanced) (a : BalancerCall) (t : Balanced) (hs : s.lb.Fresh)
    (_ : Runs.Unrestricted s a) (hstep : balancerStep s a = some t) : t.lb.Fresh := by
  obtain ⟨balancer, steps⟩ := s
  cases a with
  | next path rawQuery =>
    obtain ⟨⟨result, lb⟩, hnext, rfl⟩ := Option.map_eq_some_iff.mp hstep
    cases balancer with
    | maglev m =>
      obtain ⟨⟨chosen, m'⟩, hm', hlb⟩ := Option.map_eq_some_iff.mp hnext
      cases hlb
      exact Maglev.Fresh.next hs hm'
    | roundRobin rr | weightedRoundRobin wrr | leastConnections lc =>
      cases hnext
      trivial
  | markHealthy url healthy now =>
    cases hstep
    cases balancer with
    | maglev m => exact Maglev.Fresh.markHealthy hs url healthy now
    | roundRobin rr | weightedRoundRobin wrr | leastConnections lc => trivial

/-- What a run of maglev leaves: maglev with the URLs of the list and a fresh table. -/
theorem maglev_of_reaches {upstreams : List Upstream} {lb : Balancer}
    (hnew : Balancer.new (str "maglev") upstreams = some lb) {s : Balanced}
    (hreach : Runs.Reaches balancerStep Runs.Unrestricted ⟨lb, 0⟩ s) :
    ∃ m, s.lb = .maglev m ∧ m.Fresh ∧
      m.upstreams.map Upstream.url = upstreams.map Upstream.url := by
  have hmembers : s.Serves upstreams := hreach.invariant Balanced.Serves.step (serves_new hnew)
  have hkept : s.lb.isMaglev = lb.isMaglev :=
    hreach.invariant (fun _ _ _ hs _ hstep => (isMaglev_step hstep).trans hs) rfl
  obtain ⟨m₀, hm₀, rfl⟩ : ∃ m, Maglev.new upstreams = some m ∧ .maglev m = lb := by
    have hrest : Balancer.new (str "maglev") upstreams = (Maglev.new upstreams).map .maglev := by
      rw [Balancer.new, if_neg (by decide), if_pos rfl]
    exact Option.map_eq_some_iff.mp (hrest ▸ hnew)
  have hfresh : s.lb.Fresh :=
    hreach.invariant Balancer.Fresh.step (Maglev.fresh_of_buildTable hm₀ m₀.dirty)
  obtain ⟨lb, steps⟩ := s
  cases lb with
  | maglev m => exact ⟨m, rfl, hfresh, hmembers.members⟩
  | roundRobin rr | weightedRoundRobin wrr | leastConnections lc => cases hkept

/-- After any two histories of choices and reports that leave the same upstreams healthy, and at
least one, every request gets the same upstream. -/
theorem next_eq_of_same_health {upstreams : List Upstream} {lb : Balancer}
    (hnew : Balancer.new (str "maglev") upstreams = some lb) {s t : Balanced}
    (hs : Runs.Reaches balancerStep Runs.Unrestricted ⟨lb, 0⟩ s)
    (ht : Runs.Reaches balancerStep Runs.Unrestricted ⟨lb, 0⟩ t)
    (hsame : healthyIndices s.lb.upstreams = healthyIndices t.lb.upstreams)
    (hne : healthyIndices s.lb.upstreams ≠ []) (path rawQuery : Str) :
    (s.lb.next path rawQuery).map Prod.fst = (t.lb.next path rawQuery).map Prod.fst := by
  obtain ⟨m, hm, hmfresh, hmurls⟩ := maglev_of_reaches hnew hs
  obtain ⟨n, hn, hnfresh, hnurls⟩ := maglev_of_reaches hnew ht
  rw [hm, hn] at hsame ⊢
  rw [hm] at hne
  have h : SameHealth m.upstreams n.upstreams :=
    sameHealth_of_healthyIndices (hmurls.trans hnurls.symm) hsame
  have hnext : ∀ m : Maglev, ((Balancer.maglev m).next path rawQuery).map Prod.fst =
      (m.next path rawQuery).map Prod.fst := by
    simp [Balancer.next, Function.comp_def]
  have hmhealthy := healthyIndices_ne_nil_iff.mp hne
  have hnhealthy := healthyIndices_ne_nil_iff.mp (hsame ▸ hne)
  rw [hnext, hnext, hmfresh.next_fst hmhealthy, hnfresh.next_fst hnhealthy, h.fillTable_eq]
  congr 1
  funext table
  exact Maglev.choose_eq h hmhealthy table path rawQuery

/-- An upstream that has been down and is up again leaves no trace in the choices. -/
theorem threeUpstreams_forgets :
    ∃ lb, Balancer.new (str "maglev") threeUpstreams = some lb ∧
      (((lb.markHealthy (str "http://b") false 1).markHealthy (str "http://b") true 2).next
        (str "/") []).map Prod.fst = (lb.next (str "/") []).map Prod.fst := by
  obtain ⟨m, hm⟩ := maglev_new_threeUpstreams
  obtain ⟨-, hupstreams, -⟩ := Maglev.built_new hm
  have hnew : Balancer.new (str "maglev") threeUpstreams = some (.maglev m) := by
    rw [Balancer.new, if_neg (by decide), if_pos rfl, hm]
    rfl
  refine ⟨_, hnew, ?_⟩
  have hdown : balancerStep ⟨.maglev m, 0⟩ (.markHealthy (str "http://b") false 1) =
      some ⟨(Balancer.maglev m).markHealthy (str "http://b") false 1, 1⟩ := rfl
  have hup : balancerStep ⟨(Balancer.maglev m).markHealthy (str "http://b") false 1, 1⟩
      (.markHealthy (str "http://b") true 2) =
        some ⟨((Balancer.maglev m).markHealthy (str "http://b") false 1).markHealthy
          (str "http://b") true 2, 2⟩ := rfl
  have hindices : healthyIndices (((Balancer.maglev m).markHealthy (str "http://b") false
      1).markHealthy (str "http://b") true 2).upstreams = [0, 1, 2] := by
    rcases m with ⟨upstreams, table, dirty⟩
    obtain rfl : upstreams = _ := hupstreams
    rfl
  have hindices' : healthyIndices (Balancer.maglev m).upstreams = [0, 1, 2] := by
    rw [Balancer.upstreams, hupstreams]
    decide
  exact next_eq_of_same_health hnew (.tail (.single ⟨_, trivial, hdown⟩) ⟨_, trivial, hup⟩) .refl
    (hindices.trans hindices'.symm) (by rw [hindices]; decide) (str "/") []

end Peretum.LoadBalancer
