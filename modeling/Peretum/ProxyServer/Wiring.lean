import Peretum.Config.Target
import Peretum.Router.Host
import Peretum.Runs

/-!
# Wiring the router

The server builds its routing table from the list of targets, with a new load balancer
and perhaps a new health checker for each target, and does so again at every reload. It
compares the checkers of two builds by the name of their target only. This file embeds
the build in eager mode, the start and stop of checkers and the shutdown. The checkers
that run probe the balancers in use as long as no target with a checker stays from one
build to the next.
-/

namespace Peretum.ProxyServer

open Go Config Router

variable {F : Type}

/-- `handler.TargetHandler`: a location of a target. Balancers are numbered in the order
they are built. -/
structure TargetHandler (F : Type) where
  target : Target F
  location : LocationConfig F
  lb : Nat

/-- `router.TargetConfigHandler`: a compiled target. -/
structure TargetConfigHandler (F : Type) where
  target : Target F
  handlers : List (TargetHandler F)
  defaultLoc : Option (TargetHandler F)

/-- What a router calls for a host. -/
inductive HostHandler (F : Type) where
  | target (tch : TargetConfigHandler F)
  | location (h : TargetHandler F)

/-- A health checker, which is created for a target and the balancer built for it. -/
structure HealthChecker where
  target : Str
  /-- The number of the balancer it probes. -/
  lb : Nat
  deriving DecidableEq

/-- The handlers of a target whose balancer has this number. -/
def compiled (lb : Nat) (t : Target F) : TargetConfigHandler F :=
  let handlers := t.rest.locations.map fun loc => ⟨t, loc, lb⟩
  ⟨t, handlers, handlers.find? (·.location.path = str "/")⟩

/-- `buildTargetConfigHandler`, for patterns that compile: it fails when an upstream does
not parse. -/
def buildTargetConfigHandler (lb : Nat) (t : Target F) :
    Option (TargetConfigHandler F × Option HealthChecker) :=
  if t.parses then
    some (compiled lb t, if t.healthCheck.isSome then some ⟨t.serverName, lb⟩ else none)
  else none

/-- What the loop of `buildHostRouter` fills. -/
structure Wiring (F : Type) where
  next : Nat
  targets : Map Str (HostHandler F)
  defaultHandler : Option (HostHandler F)
  healthCheckers : Map Str HealthChecker

/-- What a turn of the loop of `buildHostRouter` does with a target and what was built for it:
a target that cannot be built is skipped. -/
def Wiring.put (w : Wiring F) (t : Target F) :
    Option (TargetConfigHandler F × Option HealthChecker) → Wiring F
  | none => w
  | some (tch, hc) =>
      { next := w.next + 1
        targets := w.targets.insert t.serverName (.target tch)
        defaultHandler := w.defaultHandler.or (tch.defaultLoc.map .location)
        healthCheckers :=
          match hc with
          | none => w.healthCheckers
          | some hc => w.healthCheckers.insert t.serverName hc }

/-- One turn of the loop of `buildHostRouter`. -/
def wireTarget (w : Wiring F) (t : Target F) : Wiring F :=
  w.put t (buildTargetConfigHandler w.next t)

/-- The loop of `buildHostRouter`. -/
def wire (next : Nat) (targets : List (Target F)) : Wiring F :=
  targets.foldl wireTarget ⟨next, ∅, none, ∅⟩

/-- The router that is installed. -/
def Wiring.router (w : Wiring F) : HostRouter (HostHandler F) := ⟨w.targets, w.defaultHandler, none⟩

/-- The server with the checkers whose goroutine was started and those that were stopped,
in order. -/
structure EagerServer (F : Type) where
  targets : List (Target F)
  wiring : Wiring F
  started : List HealthChecker
  stopped : List HealthChecker
  down : Bool

/-- The checkers of one build whose target has none in another. -/
def missingFrom (other checkers : Map Str HealthChecker) : List HealthChecker :=
  (checkers.entries.filter fun e => (other.lookup e.1).isNone).map Sigma.snd

namespace EagerServer

/-- Before the first build. -/
def init : EagerServer F := ⟨[], wire 0 [], [], [], false⟩

/-- A checker is running. -/
def Running (s : EagerServer F) (c : HealthChecker) : Prop := c ∈ s.started ∧ c ∉ s.stopped

/-- `buildHostRouter` in eager mode. -/
def buildHostRouter (s : EagerServer F) (targets : List (Target F)) : EagerServer F :=
  let w := wire s.wiring.next targets
  { s with
    targets := targets
    wiring := w
    stopped := s.stopped ++ missingFrom w.healthCheckers s.wiring.healthCheckers
    started := s.started ++ missingFrom s.wiring.healthCheckers w.healthCheckers }

/-- `shutdown`, as far as checkers are concerned. -/
def shutdown (s : EagerServer F) : EagerServer F :=
  { s with
    stopped := s.stopped ++ s.wiring.healthCheckers.entries.map Sigma.snd
    down := true }

end EagerServer

/-- A start or reload, or the shutdown. -/
inductive WiringAction (F : Type) where
  /-- `buildHostRouter` with a list of targets. -/
  | build (targets : List (Target F))
  | shutdown

/-- One step of the server; nothing follows the shutdown. -/
def wiringStep (s : EagerServer F) : WiringAction F → Option (EagerServer F)
  | .build targets => if s.down then none else some (s.buildHostRouter targets)
  | .shutdown => if s.down then none else some s.shutdown

/-- An upstream of the target has a health check. -/
def HasHealthCheck (t : Target F) : Prop := ∃ uc ∈ t.rest.upstreams, uc.healthCheck.isSome

/-- The checkers that run are those of the targets in use. -/
structure EagerServer.Tended (s : EagerServer F) : Prop where
  /-- Every built target with a health check has exactly one running checker, which probes
  the balancer that the router uses for the target. -/
  probed : s.down = false → ∀ t ∈ s.targets, t.parses = true → HasHealthCheck t →
    ∃ tch c, s.wiring.router.lookup t.serverName = some (.target tch) ∧ tch.target = t ∧
      (∀ h ∈ tch.handlers, h.lb = c.lb) ∧
      ∀ c', s.Running c' ∧ c'.target = t.serverName ↔ c' = c
  /-- No other checker runs, and none runs after the shutdown. -/
  others : ∀ c, s.Running c → s.down = false ∧
    ∃ t ∈ s.targets, t.parses = true ∧ HasHealthCheck t ∧ t.serverName = c.target
  once : s.stopped.Nodup

/-- The targets of a build have different server names, and of each that parses and has
a health check, some health check has a path and the name had no checker before. -/
def NonePersists (s : EagerServer F) : WiringAction F → Prop
  | .build targets => (targets.map TargetConfig.serverName).Nodup ∧
      ∀ t ∈ targets, t.parses = true → HasHealthCheck t →
        t.healthCheck.isSome ∧ s.wiring.healthCheckers.lookup t.serverName = none
  | .shutdown => True

variable {t : Target F} {targets : List (Target F)}

theorem hasHealthCheck_of_healthCheck (h : t.healthCheck.isSome) : HasHealthCheck t := by
  obtain ⟨hc, hhc⟩ := Option.isSome_iff_exists.mp h
  obtain ⟨uc, huc, hfilter⟩ := List.exists_of_findSome?_eq_some hhc
  exact ⟨uc, huc, by simp [(Option.filter_eq_some_iff.mp hfilter).1]⟩

theorem wireTarget_of_parses (w : Wiring F) (ht : t.parses = true) :
    wireTarget w t =
      { next := w.next + 1
        targets := w.targets.insert t.serverName (.target (compiled w.next t))
        defaultHandler := w.defaultHandler.or ((compiled w.next t).defaultLoc.map .location)
        healthCheckers :=
          if t.healthCheck.isSome then
            w.healthCheckers.insert t.serverName ⟨t.serverName, w.next⟩
          else w.healthCheckers } := by
  cases hcheck : t.healthCheck.isSome with
  | false | true => simp [wireTarget, Wiring.put, buildTargetConfigHandler, ht, hcheck]

theorem wireTarget_of_not_parses (w : Wiring F) (ht : t.parses = false) : wireTarget w t = w := by
  unfold wireTarget buildTargetConfigHandler
  rw [if_neg (by simp [ht])]
  rfl

/-- The maps of a build over balancers numbered from `n` belong to these targets. -/
structure Wired (n : Nat) (targets : List (Target F)) (w : Wiring F) : Prop where
  le_next : n ≤ w.next
  handled : ∀ t ∈ targets, t.parses = true → ∃ lb, n ≤ lb ∧ lb < w.next ∧
    w.targets.lookup t.serverName = some (.target (compiled lb t)) ∧
    (t.healthCheck.isSome → w.healthCheckers.lookup t.serverName = some ⟨t.serverName, lb⟩)
  checker : ∀ name c, w.healthCheckers.lookup name = some c →
    c.target = name ∧ n ≤ c.lb ∧ c.lb < w.next ∧
    ∃ t ∈ targets, t.serverName = name ∧ t.parses = true ∧ t.healthCheck.isSome

theorem Wired.snoc {n : Nat} {w : Wiring F} (hw : Wired n targets w)
    (hnew : ∀ u ∈ targets, u.serverName ≠ t.serverName) :
    Wired n (targets ++ [t]) (wireTarget w t) := by
  cases ht : t.parses with
  | false =>
    rw [wireTarget_of_not_parses w ht]
    refine ⟨hw.le_next, ?_, ?_⟩
    · intro u hu hparses
      rcases List.mem_append.mp hu with hu | hu
      · exact hw.handled u hu hparses
      · obtain rfl := List.mem_singleton.mp hu
        simp [ht] at hparses
    · intro name c hc
      obtain ⟨htarget, hle, hlt, u, hu, hrest⟩ := hw.checker name c hc
      exact ⟨htarget, hle, hlt, u, List.mem_append_left _ hu, hrest⟩
  | true =>
    rw [wireTarget_of_parses w ht]
    refine ⟨Nat.le_succ_of_le hw.le_next, ?_, ?_⟩
    · intro u hu hparses
      rcases List.mem_append.mp hu with hu | hu
      · -- The new entries are under another name.
        obtain ⟨lb, hle, hlt, hhandler, hchecker⟩ := hw.handled u hu hparses
        refine ⟨lb, hle, Nat.lt_succ_of_lt hlt, ?_, ?_⟩
        · rw [AList.lookup_insert_ne (hnew u hu), hhandler]
        · intro hcheck
          have hold := hchecker hcheck
          split
          · rw [AList.lookup_insert_ne (hnew u hu), hold]
          · exact hold
      · obtain rfl := List.mem_singleton.mp hu
        refine ⟨w.next, hw.le_next, Nat.lt_succ_self _, AList.lookup_insert _, ?_⟩
        intro hcheck
        rw [if_pos hcheck, AList.lookup_insert]
    · intro name c hc
      have hold : w.healthCheckers.lookup name = some c → c.target = name ∧ n ≤ c.lb ∧
          c.lb < w.next + 1 ∧ ∃ u ∈ targets ++ [t], u.serverName = name ∧ u.parses = true ∧
            u.healthCheck.isSome := by
        intro hlookup
        obtain ⟨htarget, hle, hlt, u, hu, hrest⟩ := hw.checker name c hlookup
        exact ⟨htarget, hle, Nat.lt_succ_of_lt hlt, u, List.mem_append_left _ hu, hrest⟩
      split at hc
      next hcheck =>
        by_cases hname : name = t.serverName
        · subst hname
          obtain rfl : (⟨t.serverName, w.next⟩ : HealthChecker) = c := by
            simpa [AList.lookup_insert] using hc
          exact ⟨rfl, hw.le_next, Nat.lt_succ_self _, t, by simp, rfl, ht, hcheck⟩
        · rw [AList.lookup_insert_ne hname] at hc
          exact hold hc
      next => exact hold hc

/-- Every handler of the maps belongs to a target, and every target that parses has one. -/
structure Routed (targets : List (Target F)) (w : Wiring F) : Prop where
  entry : ∀ name h, w.targets.lookup name = some h →
    ∃ t ∈ targets, ∃ lb, t.serverName = name ∧ t.parses = true ∧ h = .target (compiled lb t)
  built : ∀ t ∈ targets, t.parses = true → (w.targets.lookup t.serverName).isSome
  fallback : ∀ h, w.defaultHandler = some h →
    ∃ t ∈ targets, ∃ loc ∈ t.rest.locations, ∃ lb, h = .location ⟨t, loc, lb⟩

theorem Routed.snoc {w : Wiring F} (hw : Routed targets w) (t : Target F) :
    Routed (targets ++ [t]) (wireTarget w t) := by
  have hold : ∀ u ∈ targets, u ∈ targets ++ [t] := fun u hu => List.mem_append_left _ hu
  cases ht : t.parses with
  | false =>
    rw [wireTarget_of_not_parses w ht]
    refine ⟨?_, ?_, ?_⟩
    · intro name h hh
      obtain ⟨u, hu, hrest⟩ := hw.entry name h hh
      exact ⟨u, hold u hu, hrest⟩
    · intro u hu hparses
      rcases List.mem_append.mp hu with hu | hu
      · exact hw.built u hu hparses
      · obtain rfl := List.mem_singleton.mp hu
        simp [ht] at hparses
    · intro h hh
      obtain ⟨u, hu, hrest⟩ := hw.fallback h hh
      exact ⟨u, hold u hu, hrest⟩
  | true =>
    rw [wireTarget_of_parses w ht]
    refine ⟨?_, ?_, ?_⟩
    · intro name h hh
      by_cases hname : name = t.serverName
      · subst hname
        obtain rfl : HostHandler.target (compiled w.next t) = h := by
          simpa [AList.lookup_insert] using hh
        exact ⟨t, by simp, w.next, rfl, ht, rfl⟩
      · rw [AList.lookup_insert_ne hname] at hh
        obtain ⟨u, hu, hrest⟩ := hw.entry name h hh
        exact ⟨u, hold u hu, hrest⟩
    · intro u hu hparses
      by_cases hname : u.serverName = t.serverName
      · rw [hname, AList.lookup_insert]
        rfl
      · rw [AList.lookup_insert_ne hname]
        rcases List.mem_append.mp hu with hu | hu
        · exact hw.built u hu hparses
        · exact absurd (congrArg _ (List.mem_singleton.mp hu)) hname
    · intro h hh
      rcases Option.or_eq_some_iff.mp hh with hh | ⟨-, hh⟩
      · obtain ⟨u, hu, hrest⟩ := hw.fallback h hh
        exact ⟨u, hold u hu, hrest⟩
      · obtain ⟨th, hth, rfl⟩ := Option.map_eq_some_iff.mp hh
        obtain ⟨loc, hloc, rfl⟩ := List.mem_map.mp (List.mem_of_find?_eq_some hth)
        exact ⟨t, by simp, loc, hloc, w.next, rfl⟩

theorem wire_append_singleton (n : Nat) (targets : List (Target F)) (t : Target F) :
    wire n (targets ++ [t]) = wireTarget (wire n targets) t := by
  simp [wire]

theorem routed_wire (n : Nat) (targets : List (Target F)) : Routed targets (wire n targets) := by
  induction targets using List.reverseRecOn with
  | nil =>
    refine ⟨?_, ?_, ?_⟩
    · intro name h hh
      simp [wire] at hh
    · intro t ht
      simp at ht
    · intro h hh
      cases hh
  | append_singleton targets t ih =>
    rw [wire_append_singleton]
    exact ih.snoc t

theorem wired_wire (n : Nat) (hnames : (targets.map TargetConfig.serverName).Nodup) :
    Wired n targets (wire n targets) := by
  induction targets using List.reverseRecOn with
  | nil =>
    refine ⟨le_refl n, ?_, ?_⟩
    · intro t ht
      simp at ht
    · intro name c hc
      simp [wire] at hc
  | append_singleton targets t ih =>
    rw [List.map_append, List.nodup_append] at hnames
    obtain ⟨hinit, -, hdisjoint⟩ := hnames
    rw [wire_append_singleton]
    refine (ih hinit).snoc fun u hu => ?_
    exact hdisjoint _ (List.mem_map_of_mem hu) _ (by simp)

theorem mem_missingFrom {other checkers : Map Str HealthChecker} {c : HealthChecker} :
    c ∈ missingFrom other checkers ↔
      ∃ name, checkers.lookup name = some c ∧ other.lookup name = none := by
  simp only [missingFrom, List.mem_map, List.mem_filter, Option.isNone_iff_eq_none]
  constructor
  · rintro ⟨⟨name, c⟩, ⟨hentry, hother⟩, rfl⟩
    exact ⟨name, AList.mem_lookup_iff.mpr hentry, hother⟩
  · rintro ⟨name, hlookup, hother⟩
    exact ⟨⟨name, c⟩, ⟨AList.mem_lookup_iff.mp hlookup, hother⟩, rfl⟩

theorem nodup_missingFrom (other : Map Str HealthChecker) {checkers : Map Str HealthChecker}
    (hnames : ∀ name c, checkers.lookup name = some c → c.target = name) :
    (missingFrom other checkers).Nodup := by
  refine List.Nodup.map_on ?_ (checkers.nodupKeys.nodup.filter _)
  rintro ⟨name, c⟩ hc ⟨name', c'⟩ hc' heq
  obtain rfl : c = c' := heq
  have h := hnames name c (AList.mem_lookup_iff.mpr (List.mem_of_mem_filter hc))
  have h' := hnames name' c (AList.mem_lookup_iff.mpr (List.mem_of_mem_filter hc'))
  rw [← h, ← h']

theorem map_snd_entries (checkers : Map Str HealthChecker) :
    checkers.entries.map Sigma.snd = missingFrom ∅ checkers := by
  simp [missingFrom]

/-- The checkers that run are those of the last build, and all of its checkers run. -/
structure EagerServer.InStep (s : EagerServer F) : Prop where
  /-- The last build numbered its balancers from some number on. -/
  wired : ∃ n, Wired n s.targets s.wiring
  /-- Balancers of checkers seen so far have their number. -/
  seen : ∀ c, c ∈ s.started ∨ c ∈ s.stopped → c.lb < s.wiring.next
  paths : ∀ t ∈ s.targets, t.parses = true → HasHealthCheck t → t.healthCheck.isSome
  /-- The map lists what runs. -/
  running_iff : ∀ c, s.Running c ↔
    s.down = false ∧ s.wiring.healthCheckers.lookup c.target = some c
  nodup : s.stopped.Nodup

namespace EagerServer

variable {s : EagerServer F}

theorem InStep.target_eq (hs : s.InStep) {name : Str} {c : HealthChecker}
    (hc : s.wiring.healthCheckers.lookup name = some c) : c.target = name := by
  obtain ⟨n, hwired⟩ := hs.wired
  exact (hwired.checker name c hc).1

theorem InStep.running (hs : s.InStep) (hdown : s.down = false) {name : Str} {c : HealthChecker}
    (hc : s.wiring.healthCheckers.lookup name = some c) : s.Running c := by
  refine (hs.running_iff c).mpr ⟨hdown, ?_⟩
  rw [hs.target_eq hc, hc]

theorem InStep.nodup_append (hs : s.InStep) (hdown : s.down = false)
    (other : Map Str HealthChecker) :
    (s.stopped ++ missingFrom other s.wiring.healthCheckers).Nodup := by
  refine List.nodup_append.mpr ⟨hs.nodup, nodup_missingFrom other fun name c => hs.target_eq, ?_⟩
  rintro c hc c' hc' rfl
  obtain ⟨name, hlookup, -⟩ := mem_missingFrom.mp hc'
  exact (hs.running hdown hlookup).2 hc

/-- Before the first build nothing runs. -/
theorem inStep_init : (init : EagerServer F).InStep := by
  refine ⟨⟨0, wired_wire 0 List.nodup_nil⟩, ?_, ?_, ?_, List.nodup_nil⟩
  · intro c hc
    simp [init] at hc
  · intro t ht
    simp [init] at ht
  · intro c
    simp [Running, init, wire]

theorem InStep.buildHostRouter (hs : s.InStep) (hdown : s.down = false) {targets : List (Target F)}
    (hguard : NonePersists s (.build targets)) : (s.buildHostRouter targets).InStep := by
  obtain ⟨hnames, hfresh⟩ := hguard
  have hnew := wired_wire s.wiring.next hnames
  obtain ⟨n, hold⟩ := hs.wired
  -- No name has a checker in both builds, so all old ones stop and all new ones start.
  have hapart : ∀ name c, (wire s.wiring.next targets).healthCheckers.lookup name = some c →
      s.wiring.healthCheckers.lookup name = none := by
    intro name c hc
    obtain ⟨-, -, -, t, ht, rfl, hparses, hcheck⟩ := hnew.checker name c hc
    exact (hfresh t ht hparses (hasHealthCheck_of_healthCheck hcheck)).2
  have hstopped : ∀ name c, s.wiring.healthCheckers.lookup name = some c →
      c ∈ missingFrom (wire s.wiring.next targets).healthCheckers s.wiring.healthCheckers := by
    intro name c hc
    refine mem_missingFrom.mpr ⟨name, hc, Option.eq_none_iff_forall_not_mem.mpr ?_⟩
    intro c' hc'
    rw [hapart name c' hc'] at hc
    cases hc
  refine ⟨⟨_, hnew⟩, ?_, fun t ht hp hcheck => (hfresh t ht hp hcheck).1, ?_,
    hs.nodup_append hdown _⟩
  · intro c hc
    simp only [EagerServer.buildHostRouter, List.mem_append] at hc
    rcases hc with (hc | hc) | (hc | hc)
    · exact lt_of_lt_of_le (hs.seen c (.inl hc)) hnew.le_next
    · obtain ⟨name, hlookup, -⟩ := mem_missingFrom.mp hc
      exact (hnew.checker name c hlookup).2.2.1
    · exact lt_of_lt_of_le (hs.seen c (.inr hc)) hnew.le_next
    · obtain ⟨name, hlookup, -⟩ := mem_missingFrom.mp hc
      exact lt_of_lt_of_le (hold.checker name c hlookup).2.2.1 hnew.le_next
  · intro c
    simp only [Running, EagerServer.buildHostRouter, List.mem_append, not_or]
    constructor
    · rintro ⟨hstart | hstart, hrun, hkept⟩
      · -- A checker of the old build would have been stopped.
        have hlookup := ((hs.running_iff c).mp ⟨hstart, hrun⟩).2
        exact absurd (hstopped _ c hlookup) hkept
      · obtain ⟨name, hlookup, -⟩ := mem_missingFrom.mp hstart
        refine ⟨hdown, ?_⟩
        rw [(hnew.checker name c hlookup).1, hlookup]
    · rintro ⟨-, hlookup⟩
      obtain ⟨-, hge, -⟩ := hnew.checker _ c hlookup
      refine ⟨.inr (mem_missingFrom.mpr ⟨_, hlookup, hapart _ c hlookup⟩), ?_, ?_⟩
      · intro hmem
        exact absurd (hs.seen c (.inr hmem)) (Nat.not_lt.mpr hge)
      · intro hmem
        obtain ⟨name, hold', -⟩ := mem_missingFrom.mp hmem
        exact absurd (hold.checker name c hold').2.2.1 (Nat.not_lt.mpr hge)

theorem InStep.shutdown (hs : s.InStep) (hdown : s.down = false) : s.shutdown.InStep := by
  refine ⟨hs.wired, ?_, hs.paths, ?_, ?_⟩
  · intro c hc
    simp only [EagerServer.shutdown, map_snd_entries, List.mem_append] at hc
    rcases hc with hc | hc | hc
    · exact hs.seen c (.inl hc)
    · exact hs.seen c (.inr hc)
    · obtain ⟨name, hlookup, -⟩ := mem_missingFrom.mp hc
      obtain ⟨n, hwired⟩ := hs.wired
      exact (hwired.checker name c hlookup).2.2.1
  · intro c
    simp only [Running, EagerServer.shutdown, map_snd_entries, List.mem_append, not_or]
    refine iff_of_false ?_ (by simp)
    rintro ⟨hstart, hrun, hkept⟩
    have hlookup := ((hs.running_iff c).mp ⟨hstart, hrun⟩).2
    exact hkept (mem_missingFrom.mpr ⟨_, hlookup, by simp⟩)
  · simp only [EagerServer.shutdown, map_snd_entries]
    exact hs.nodup_append hdown ∅

theorem inStep_step (s : EagerServer F) (a : WiringAction F) (s' : EagerServer F) (hs : s.InStep)
    (hguard : NonePersists s a) (hstep : wiringStep s a = some s') : s'.InStep := by
  cases a with
  | build targets =>
    simp only [wiringStep, Option.ite_none_left_eq_some, Bool.not_eq_true,
      Option.some.injEq] at hstep
    obtain ⟨hdown, rfl⟩ := hstep
    exact hs.buildHostRouter hdown hguard
  | shutdown =>
    simp only [wiringStep, Option.ite_none_left_eq_some, Bool.not_eq_true,
      Option.some.injEq] at hstep
    obtain ⟨hdown, rfl⟩ := hstep
    exact hs.shutdown hdown

theorem InStep.tended (hs : s.InStep) : s.Tended := by
  obtain ⟨n, hwired⟩ := hs.wired
  refine ⟨?_, ?_, hs.nodup⟩
  · intro hdown t ht hparses hcheck
    obtain ⟨lb, -, -, hhandler, hchecker⟩ := hwired.handled t ht hparses
    have hc := hchecker (hs.paths t ht hparses hcheck)
    refine ⟨compiled lb t, ⟨t.serverName, lb⟩, ?_, rfl, ?_, ?_⟩
    · simp [HostRouter.lookup, Wiring.router, hhandler]
    · intro h hh
      obtain ⟨loc, -, rfl⟩ := List.mem_map.mp hh
      rfl
    · intro c'
      constructor
      · rintro ⟨hrun, hname⟩
        have hlookup := ((hs.running_iff c').mp hrun).2
        rw [hname, hc] at hlookup
        exact (Option.some.inj hlookup).symm
      · rintro rfl
        exact ⟨hs.running hdown hc, rfl⟩
  · intro c hrun
    obtain ⟨hdown, hlookup⟩ := (hs.running_iff c).mp hrun
    obtain ⟨-, -, -, t, ht, hname, hparses, hcheck⟩ := hwired.checker _ c hlookup
    exact ⟨hdown, t, ht, hparses, hasHealthCheck_of_healthCheck hcheck, hname⟩

end EagerServer

/-- As long as no target with a health check stays from one build to the next, the
checkers that run are those of the targets in use, and the shutdown stops them all. -/
theorem tended_of_nonePersists {s : EagerServer F}
    (hreach : Runs.Reaches wiringStep NonePersists .init s) : s.Tended :=
  (hreach.invariant EagerServer.inStep_step EagerServer.inStep_init).tended

/-- A target with one upstream that is checked and a location for every path. -/
def checkedTarget (serverName : Str) : Target Unit :=
  ⟨serverName, [⟨str "http://10.0.0.1", 1, some ⟨str "/healthz", [], [], 0⟩⟩], str "round_robin",
    [⟨str "/", str "prefix", [], none, none, none, none⟩]⟩

/-- After a reload of an unchanged directory the checker of the first build goes on
probing a balancer that is no longer used, no checker probes the one in use, and the
shutdown leaves the first one running. -/
theorem unchanged_reload_not_tended :
    ∃ s, Runs.exec wiringStep .init
        [.build [checkedTarget (str "a.com")], .build [checkedTarget (str "a.com")]] = some s ∧
      s.wiring.router.lookup (str "a.com") =
        some (.target (compiled 1 (checkedTarget (str "a.com")))) ∧
      s.Running ⟨str "a.com", 0⟩ ∧ ¬ s.Running ⟨str "a.com", 1⟩ ∧ ¬ s.Tended ∧
      ∃ s', wiringStep s .shutdown = some s' ∧ s'.Running ⟨str "a.com", 0⟩ ∧ ¬ s'.Tended := by
  refine ⟨_, rfl, rfl, ⟨by decide, by decide⟩, fun h => absurd h.1 (by decide), ?_,
    _, rfl, ⟨by decide, by decide⟩, ?_⟩
  · intro htended
    obtain ⟨tch, c, hlookup, -, hlb, honly⟩ := htended.probed rfl (checkedTarget (str "a.com"))
      List.mem_cons_self (by decide) ⟨_, List.mem_cons_self, rfl⟩
    obtain rfl : compiled 1 (checkedTarget (str "a.com")) = tch :=
      HostHandler.target.inj (Option.some.inj hlookup)
    obtain rfl : (⟨str "a.com", 0⟩ : HealthChecker) = c :=
      (honly _).mp ⟨⟨by decide, by decide⟩, rfl⟩
    exact absurd (hlb _ List.mem_cons_self) (by decide)
  · intro htended
    have hdown := (htended.others ⟨str "a.com", 0⟩ ⟨by decide, by decide⟩).1
    cases hdown

/-- One checked target replaces another. -/
theorem replaced_tended :
    ∃ s, Runs.exec wiringStep .init
        [.build [checkedTarget (str "a.com")], .build [checkedTarget (str "b.com")]] = some s ∧
      s.Running ⟨str "b.com", 1⟩ ∧ s.Tended := by
  have hadmitted : Runs.Admitted wiringStep NonePersists .init
      [.build [checkedTarget (str "a.com")], .build [checkedTarget (str "b.com")]] := by
    refine .cons ⟨by decide, ?_⟩ rfl (.cons ⟨by decide, ?_⟩ rfl trivial)
    · intro t ht _ _
      obtain rfl := List.mem_singleton.mp ht
      exact ⟨by decide, by decide⟩
    · intro t ht _ _
      obtain rfl := List.mem_singleton.mp ht
      exact ⟨by decide, by decide⟩
  exact ⟨_, rfl, ⟨by decide, by decide⟩,
    tended_of_nonePersists (Runs.reaches_of_exec rfl hadmitted)⟩

end Peretum.ProxyServer
