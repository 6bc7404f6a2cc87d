import Peretum.Config.Proxy
import Peretum.ProxyServer.Reload
import Peretum.Waf.Body

/-!
# The firewall at startup

`Run` collects the firewall policies of all locations from the targets it has read
and initializes the plugin with them, once. Handlers of locations call the hooks of the
plugins before they proxy a request. This file follows a policy from the config of a
target to the request. On a lazy edge with a control plane `Run` reads no targets, so
the targets it serves later have no policy at all.
-/

namespace Peretum.ProxyServer

open Go Config Waf

variable {F R A N S H : Type}

/-- The locations that declare a policy. -/
def wafLocations (targets : List (Target F)) : List (WAFLocation F) :=
  targets.flatMap fun t => t.rest.locations.filterMap fun loc =>
    loc.waf.map fun waf => ⟨t.serverName, loc.path, waf⟩

def buildWAFLocations (lib : Library F R A N) (targets : List (Target F)) : List (Value F) :=
  (wafLocations targets).map fun l => .map (l.toMap lib)

/-- The entry `waf` of `buildPluginConfigs`. -/
def wafPluginConfig (lib : Library F R A N) (cfg : ProxyConfig) (targets : List (Target F)) :
    Object F :=
  let locations := buildWAFLocations lib targets
  if locations ≠ [] then
    [(str "enabled", .bool (cfg.waf.elim true WAFConfig.enabled)),
      (str "geolite_dir", .str (cfg.waf.elim [] WAFConfig.geoLiteDir)),
      (str "locations", .list locations)]
  else [(str "enabled", .bool false)]

/-- `LoadAndInitializePlugins` for the firewall: only enabled plugins are created. The
databases are opened when the plugin starts. -/
def loadWAF (lib : Library F R A N) (limiter : S) (gs : Option (Geodb A)) (config : Object F) :
    Option (WAFPlugin F R A N S) :=
  if getBool config (str "enabled") then some { WAFPlugin.init lib limiter config with gs := gs }
  else none

/-- The levels `gzip.NewWriterLevel` accepts; for others the pool holds nil writers. -/
def validLevel (level : Int) : Bool := -2 ≤ level && level ≤ 9

/-- The codes `WriteHeader` accepts. -/
def validStatus (code : Int) : Bool := 100 ≤ code && code ≤ 999

/-- The panics on the way of a request. -/
inductive Panic where
  /-- `regexp.MustCompile` of a pattern that does not compile. -/
  | mustCompile (pattern : Str)
  /-- `WriteHeader` with a code that is not a status. -/
  | writeHeader (code : Int)
  /-- `Reset` on a nil gzip writer. -/
  | nilWriter (level : Int)
  deriving DecidableEq

/-- The request accepts gzip. -/
def acceptsGzip (r : Request) : Bool := contains (r.header.get (str "Accept-Encoding")) (str "gzip")

/-- A plugin other than the firewall with a hook before proxying. -/
inductive OtherHook where
  | compression (level : Int)
  /-- A plugin that answers the request itself or lets it pass. -/
  | plain (run : ResponseWriter → Request → Bool × ResponseWriter × Request)

/-- `BeforeProxy` of such a plugin: whether the request passes, and what is left behind. -/
def OtherHook.beforeProxy (w : ResponseWriter) (r : Request) :
    OtherHook → Except Panic (Bool × ResponseWriter × Request)
  | .compression level =>
      if acceptsGzip r && !validLevel level then .error (.nilWriter level) else .ok (true, w, r)
  | .plain run => .ok (run w r)

/-- A plugin with a hook before proxying. -/
inductive RequestHook (F R A N S : Type) where
  | waf (p : WAFPlugin F R A N S)
  | other (h : OtherHook)

/-- What the hooks leave behind. -/
structure HooksResult (F R N : Type) where
  /-- The handler goes on with the request. -/
  passed : Bool
  evaluated : List (RuleSet F R N)
  w : ResponseWriter
  r : Request

/-- `RunBeforeProxy`: the first hook that returns an error ends the request. -/
def runBeforeProxy (lib : Library F R A N) (allow : S → Str → F → Int → Bool × S) (order : KeyOrder)
    (target location : Str) : List (RequestHook F R A N S) → ResponseWriter → Request →
    Except Panic (HooksResult F R N)
  | [], w, r => .ok ⟨true, [], w, r⟩
  | .waf p :: hooks, w, r =>
      let h := p.beforeProxy lib allow order w r target location
      let sets := (p.consulted target location).toList
      match p.blockStatus lib allow order r target location with
      | some status =>
          if validStatus status then .ok ⟨false, sets, h.w, h.r⟩ else .error (.writeHeader status)
      | none =>
          match runBeforeProxy lib allow order target location hooks h.w h.r with
          | .error e => .error e
          | .ok rest => .ok { rest with evaluated := sets ++ rest.evaluated }
  | .other h :: hooks, w, r =>
      match h.beforeProxy w r with
      | .error e => .error e
      | .ok (false, w, r) => .ok ⟨false, [], w, r⟩
      | .ok (true, w, r) => runBeforeProxy lib allow order target location hooks w r

/-- The hooks of a server: the firewall, if it was loaded, among other plugins in the
order in which the map of plugins was visited. -/
structure Hooks (F R A N S : Type) where
  before : List OtherHook
  waf : Option (WAFPlugin F R A N S)
  after : List OtherHook

/-- The hooks in order. -/
def Hooks.toList (hooks : Hooks F R A N S) : List (RequestHook F R A N S) :=
  hooks.before.map .other ++ hooks.waf.toList.map .waf ++ hooks.after.map .other

/-- A target is served: it was loaded at startup, or it is compiled from a row of the
store of a lazy edge after the replay of the retained messages. -/
def Served (codec : Codec (TargetFields F)) (cfg : ProxyConfig) (targets : List (Target F))
    (edge : Edge.ProxyServer H) (messages : List Cluster.TargetEvent) (t : Target F) : Prop :=
  t ∈ targets ∨
    (cfg.skipLocalTargets = true ∧ ∃ store host,
      (Edge.applyAll codec edge messages).targetStore = some store ∧
      materializeTarget codec store host = some t)

/-- The rule set of a policy that is on, with the default limit for bodies. -/
def blockRules (lib : Library F R A N) (waf : WAFLocationConfig F) : RuleSet F R N :=
  waf.named.ruleSet lib 1048576

theorem evaluated_others {lib : Library F R A N} {allow : S → Str → F → Int → Bool × S}
    {order : KeyOrder} {target location : Str} {others : List OtherHook} {w : ResponseWriter}
    {r : Request} {result : HooksResult F R N}
    (hrun : runBeforeProxy lib allow order target location (others.map .other) w r = .ok result) :
    result.evaluated = [] := by
  induction others generalizing w r with
  | nil =>
    obtain rfl := Except.ok.inj hrun
    rfl
  | cons h others ih =>
    rw [List.map_cons, runBeforeProxy] at hrun
    split at hrun
    · cases hrun
    · obtain rfl := Except.ok.inj hrun
      rfl
    · exact ih hrun

theorem evaluated_of_passed {lib : Library F R A N} {allow : S → Str → F → Int → Bool × S}
    {order : KeyOrder} {target location : Str} {hooks : Hooks F R A N S} {w : ResponseWriter}
    {r : Request} {result : HooksResult F R N}
    (hrun : runBeforeProxy lib allow order target location hooks.toList w r = .ok result)
    (hpassed : result.passed = true) :
    result.evaluated = (hooks.waf.bind fun p => p.consulted target location).toList := by
  obtain ⟨before, waf, after⟩ := hooks
  simp only [Hooks.toList] at hrun ⊢
  induction before generalizing w r with
  | nil =>
    cases waf with
    | none => exact evaluated_others hrun
    | some p =>
      simp only [List.map_nil, List.nil_append, Option.toList_some, List.map_cons,
        List.singleton_append, runBeforeProxy] at hrun
      split at hrun
      · split at hrun
        · obtain rfl := Except.ok.inj hrun
          cases hpassed
        · cases hrun
      · split at hrun
        · cases hrun
        · next rest hrest =>
          obtain rfl := Except.ok.inj hrun
          simp [evaluated_others hrest]
  | cons h before ih =>
    simp only [List.map_cons, List.cons_append, runBeforeProxy] at hrun
    split at hrun
    · cases hrun
    · obtain rfl := Except.ok.inj hrun
      cases hpassed
    · exact ih hrun

/-- What the firewall consults for a location, if it is not disabled: the policy that
governs the location among those `Run` has collected. -/
theorem consulted_loadWAF (lib : Library F R A N) (limiter : S) (gs : Option (Geodb A))
    {cfg : ProxyConfig} (hon : cfg.waf.elim true WAFConfig.enabled = true)
    (targets : List (Target F)) (target location : Str) :
    ((loadWAF lib limiter gs (wafPluginConfig lib cfg targets)).bind fun p =>
        p.consulted target location) =
      (governing (wafLocations targets) target location).map fun l => blockRules lib l.waf := by
  by_cases hnone : wafLocations targets = []
  · have hconfig : wafPluginConfig lib cfg targets = [(str "enabled", .bool false)] := by
      simp [wafPluginConfig, buildWAFLocations, hnone]
    rw [hconfig, hnone]
    rfl
  · have hconfig : wafPluginConfig lib cfg targets =
        [(str "enabled", .bool true),
          (str "geolite_dir", .str (cfg.waf.elim [] WAFConfig.geoLiteDir)),
          (str "locations", .list (buildWAFLocations lib targets))] := by
      simp [wafPluginConfig, buildWAFLocations, hnone, hon]
    rw [hconfig]
    have hrs := lookup_initLocation lib 1048576 (wafLocations targets) target location
    exact hrs

theorem exists_governing {locations : List (WAFLocation F)} {l : WAFLocation F}
    (hl : l ∈ locations) (henabled : l.waf.enabled = true) :
    ∃ g, governing locations l.target l.location = some g := by
  have hmem : l ∈ locations.filter fun m =>
      m.waf.enabled && policyKey m.target m.location = policyKey l.target l.location := by
    simp [hl, henabled]
  exact ⟨_, List.getLast?_eq_some_getLast (List.ne_nil_of_mem hmem)⟩

theorem mem_wafLocations {targets : List (Target F)} {t : Target F} (ht : t ∈ targets)
    {loc : LocationConfig F} (hloc : loc ∈ t.rest.locations) {waf : WAFLocationConfig F}
    (hwaf : loc.waf = some waf) : ⟨t.serverName, loc.path, waf⟩ ∈ wafLocations targets := by
  refine List.mem_flatMap.mpr ⟨t, ht, List.mem_filterMap.mpr ⟨loc, hloc, ?_⟩⟩
  rw [hwaf]
  rfl

/-- When the firewall is not disabled, a request that is proxied at a location with an
enabled policy was evaluated against the policy's rules if and only if `Run` has read the
targets from the directory and the last enabled policy under the location's key has the
same rules. -/
theorem evaluated_iff {codec : Codec (TargetFields F)} {cfg : ProxyConfig} {dir : Directory}
    {targets : List (Target F)} {edge : Edge.ProxyServer H} {messages : List Cluster.TargetEvent}
    {t : Target F} {loc : LocationConfig F} {waf : WAFLocationConfig F}
    {lib : Library F R A N} {limiter : S} {gs : Option (Geodb A)}
    {allow : S → Str → F → Int → Bool × S} {order : KeyOrder} {before after : List OtherHook}
    {w : ResponseWriter} {r : Request} {result : HooksResult F R N}
    (hstart : startupTargets codec cfg dir = .ok targets)
    (hon : cfg.waf.elim true WAFConfig.enabled = true)
    (hserved : Served codec cfg targets edge messages t) (hloc : loc ∈ t.rest.locations)
    (hwaf : loc.waf = some waf) (henabled : waf.enabled = true)
    (hrun : runBeforeProxy lib allow order t.serverName loc.path
      (Hooks.toList ⟨before, loadWAF lib limiter gs (wafPluginConfig lib cfg targets), after⟩)
      w r = .ok result)
    (hproxied : result.passed = true) :
    blockRules lib waf ∈ result.evaluated ↔
      cfg.skipLocalTargets = false ∧
        ∀ g, governing (wafLocations targets) t.serverName loc.path = some g →
          blockRules lib g.waf = blockRules lib waf := by
  rw [evaluated_of_passed hrun hproxied, consulted_loadWAF lib limiter gs hon]
  cases hskip : cfg.skipLocalTargets with
  | true =>
    -- No target was read, so no policy was collected.
    obtain rfl : [] = targets := by simpa [startupTargets, hskip] using hstart
    simp [wafLocations, governing]
  | false =>
    have ht : t ∈ targets := hserved.resolve_right fun h => by simp [hskip] at h
    obtain ⟨g, hg⟩ := exists_governing (mem_wafLocations ht hloc hwaf) henabled
    have hg' : governing (wafLocations targets) t.serverName loc.path = some g := hg
    simp [hg', eq_comm]

/-- A target with a policy that denies one method on one path. -/
def guardedTarget : Target Int :=
  ⟨str "example.com", [⟨str "http://10.0.0.1", 1, none⟩], str "round_robin",
    [⟨str "/", str "prefix", [], none, none, none, some adminPolicy⟩]⟩

def guardedCodec : Codec (TargetFields Int) where
  marshalJSON _ := some []
  unmarshalJSON _ := some guardedTarget
  marshalYAML _ := some []
  unmarshalYAML _ := some guardedTarget

/-- The configuration of an edge, with the control plane at this address. -/
def edgeConfig (natsURI : String) : ProxyConfig :=
  ⟨none, some ⟨str natsURI, true⟩⟩

/-- The hooks of such an edge, started with these targets, on a request with this method.
The firewall is the only plugin, if it is loaded. -/
def edgeRun (natsURI : String) (targets : List (Target Int)) (method : String) :
    Except Panic (HooksResult Int Str Str) :=
  runBeforeProxy plainLibrary (fun s _ _ _ => (true, s)) .asListed (str "example.com") (str "/")
    (Hooks.toList ⟨[], loadWAF plainLibrary () none
      (wafPluginConfig plainLibrary (edgeConfig natsURI) targets), []⟩) .fresh (adminRequest method)

/-- On a lazy edge with a control plane, a request that the policy of its location denies
is evaluated against nothing and passes. -/
theorem replayed_target_not_evaluated :
    startupTargets guardedCodec (edgeConfig "nats://cp") none = .ok [] ∧
    Served guardedCodec (edgeConfig "nats://cp") [] (⟨some ∅, .new 8⟩ : Edge.ProxyServer Unit)
      [.upsert (str "example.com") []] guardedTarget ∧
    (adminPolicy.decision plainLibrary .asListed 1048576 (adminRequest "PUT") none).1 = .block ∧
    ∃ result, edgeRun "nats://cp" [] "PUT" = .ok result ∧ result.passed = true ∧
      blockRules plainLibrary adminPolicy ∉ result.evaluated :=
  ⟨rfl, .inr ⟨rfl, _, str "example.com", rfl, rfl⟩, by decide, _, rfl, rfl, List.not_mem_nil⟩

/-- Without a control plane the policy of the same target is evaluated. -/
theorem loaded_target_evaluated :
    ∃ result, edgeRun "" [guardedTarget] "GET" = .ok result ∧ result.passed = true ∧
      blockRules plainLibrary adminPolicy ∈ result.evaluated := by
  have hstart : startupTargets guardedCodec (edgeConfig "")
      (some [⟨str "a.yaml", false, some []⟩]) = .ok [guardedTarget] := rfl
  have hserved : Served guardedCodec (edgeConfig "") [guardedTarget]
      (⟨some ∅, .new 8⟩ : Edge.ProxyServer Unit) [] guardedTarget := .inl List.mem_cons_self
  obtain ⟨result, hrun, hpassed⟩ :
      ∃ result, edgeRun "" [guardedTarget] "GET" = .ok result ∧ result.passed = true :=
    ⟨_, rfl, rfl⟩
  refine ⟨result, hrun, hpassed,
    (evaluated_iff hstart rfl hserved List.mem_cons_self rfl rfl hrun hpassed).mpr ⟨rfl, ?_⟩⟩
  intro g hg
  obtain rfl : (⟨str "example.com", str "/", adminPolicy⟩ : WAFLocation Int) = g :=
    Option.some.inj hg
  rfl

end Peretum.ProxyServer
