import Peretum.ProxyServer.Plugins

/-!
# The policy of a location

The firewall files the policies of all locations under one text each, the server name and the
path of the location with a bar between them, and looks them up under the same text. The match
type is no part of it, and a bar may also occur in the names. So a location can be judged by a
policy that is not its own. This file says when it is not.
-/

namespace Peretum.ProxyServer

open Go Config Waf

variable {F R A N S : Type}

/-- The rules of a location's own policy, if it has one that is on. -/
def ownRules (lib : Library F R A N) (loc : LocationConfig F) : Option (RuleSet F R N) :=
  (loc.waf.filter WAFLocationConfig.enabled).map (blockRules lib)

/-- The rules that `BeforeProxy` evaluates for a location, if the firewall is loaded with these
targets. -/
def evaluatedRules (lib : Library F R A N) (limiter : S) (gs : Option (Geodb A))
    (cfg : ProxyConfig) (targets : List (Target F)) (target location : Str) :
    Option (RuleSet F R N) :=
  (loadWAF lib limiter gs (wafPluginConfig lib cfg targets)).bind fun p =>
    p.consulted target location

/-- The firewall is not switched off. -/
def firewallOn (cfg : ProxyConfig) : Bool := cfg.waf.elim true WAFConfig.enabled

variable {lib : Library F R A N} {limiter : S} {gs : Option (Geodb A)} {cfg : ProxyConfig}
  {targets : List (Target F)} {t : Target F} {loc : LocationConfig F}

theorem evaluatedRules_off (hoff : firewallOn cfg = false) (target location : Str) :
    evaluatedRules lib limiter gs cfg targets target location = none := by
  have henabled : getBool (wafPluginConfig lib cfg targets) (str "enabled") = false := by
    unfold firewallOn at hoff
    unfold wafPluginConfig
    dsimp only
    split
    · rw [hoff]
      rfl
    · rfl
  rw [evaluatedRules, loadWAF, henabled]
  rfl

theorem exists_governing_of_ownRules (ht : t ∈ targets) (hloc : loc ∈ t.rest.locations)
    {rules : RuleSet F R N} (hown : ownRules lib loc = some rules) :
    ∃ g, governing (wafLocations targets) t.serverName loc.path = some g := by
  obtain ⟨waf, hwaf, -⟩ := Option.map_eq_some_iff.mp hown
  obtain ⟨hwaf, henabled⟩ := Option.filter_eq_some_iff.mp hwaf
  exact exists_governing (mem_wafLocations ht hloc hwaf) henabled

/-- A location is judged by its own policy, or by none if it has none that is on, exactly if the
firewall is switched off or the last policy that is on and has the same text of server name and
path has the same rules. -/
theorem evaluates_own_iff (ht : t ∈ targets) (hloc : loc ∈ t.rest.locations) :
    evaluatedRules lib limiter gs cfg targets t.serverName loc.path =
        (if firewallOn cfg then ownRules lib loc else none) ↔
      (firewallOn cfg = true → ∀ g,
        governing (wafLocations targets) t.serverName loc.path = some g →
          ownRules lib loc = some (blockRules lib g.waf)) := by
  cases hon : firewallOn cfg with
  | false => simp [evaluatedRules_off hon]
  | true =>
    have hconsulted : evaluatedRules lib limiter gs cfg targets t.serverName loc.path =
        (governing (wafLocations targets) t.serverName loc.path).map fun l =>
          blockRules lib l.waf := consulted_loadWAF lib limiter gs hon targets t.serverName loc.path
    rw [hconsulted, if_pos rfl]
    cases hgoverning : governing (wafLocations targets) t.serverName loc.path with
    | some g => simp [eq_comm]
    | none =>
      have hnone : ownRules lib loc = none := by
        by_contra hsome
        obtain ⟨rules, hown⟩ := Option.ne_none_iff_exists'.mp hsome
        obtain ⟨g, hg⟩ := exists_governing_of_ownRules ht hloc hown
        rw [hgoverning] at hg
        cases hg
      simp [hnone]

/-- A location with a policy or without. -/
def pathLocation (path matchType : String) (waf : Option (WAFLocationConfig Int)) :
    LocationConfig Int :=
  ⟨str path, str matchType, [], none, none, none, waf⟩

/-- A target with some locations. -/
def pathTarget (serverName : String) (locations : List (LocationConfig Int)) : Target Int :=
  ⟨str serverName, [⟨str "http://10.0.0.1", 1, none⟩], str "round_robin", locations⟩

/-- Two targets with a location of the same path, one of them after another location. -/
def shops : List (Target Int) :=
  [pathTarget "example.com"
      [pathLocation "/" "prefix" (some adminPolicy),
        pathLocation "/shop" "prefix" (some ⟨true, []⟩)],
    pathTarget "example.org" [pathLocation "/shop" "prefix" (some adminPolicy)]]

/-- Each location is judged by its own policy. -/
theorem shops_own :
    evaluatedRules plainLibrary () none (edgeConfig "") shops (str "example.com") (str "/shop") =
      some (blockRules plainLibrary ⟨true, []⟩) := by
  have ht : pathTarget "example.com" _ ∈ shops := List.mem_cons_self
  have hloc : pathLocation "/shop" "prefix" (some ⟨true, []⟩) ∈
      [pathLocation "/" "prefix" (some adminPolicy),
        pathLocation "/shop" "prefix" (some ⟨true, []⟩)] := by simp
  refine (evaluates_own_iff ht hloc).mpr ?_
  intro _ g hg
  obtain rfl : (⟨str "example.com", str "/shop", ⟨true, []⟩⟩ : WAFLocation Int) = g :=
    Option.some.inj hg
  rfl

/-- A location without a policy is judged by that of another one with its path, and so is one of
another target whose name ends where the path of the first begins. -/
theorem sharedKey_evaluates_other :
    ownRules plainLibrary (pathLocation "/admin" "prefix" none) = none ∧
    evaluatedRules plainLibrary () none (edgeConfig "")
        [pathTarget "example.com" [pathLocation "/admin" "exact" (some adminPolicy),
          pathLocation "/admin" "prefix" none]] (str "example.com") (str "/admin") =
      some (blockRules plainLibrary adminPolicy) ∧
    ownRules plainLibrary (pathLocation "b|/" "prefix" none) = none ∧
    evaluatedRules plainLibrary () none (edgeConfig "")
        [pathTarget "a|b" [pathLocation "/" "prefix" (some adminPolicy)],
          pathTarget "a" [pathLocation "b|/" "prefix" none]] (str "a") (str "b|/") =
      some (blockRules plainLibrary adminPolicy) :=
  ⟨rfl, rfl, rfl, rfl⟩

end Peretum.ProxyServer
