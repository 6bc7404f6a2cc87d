import Peretum.Config
import Peretum.LoadBalancer.Selectors
import Peretum.Waf.Policy

/-!
# The fields of a target

The fields of a target, with the functions of wiring and routing on them. A reload has to
carry them all, also those that only proxying reads. Upstreams are written as URLs, of which
the program only asks that they have a scheme.
-/

namespace Peretum.Config

open Go LoadBalancer

variable {F : Type}

structure HealthCheckConfig where
  path : Str
  interval : Str
  /-- How long to wait for an answer. -/
  timeout : Str
  expectedStatus : Int
  deriving DecidableEq

structure UpstreamConfig where
  url : Str
  weight : Int
  healthCheck : Option HealthCheckConfig
  deriving DecidableEq

structure RewriteConfig where
  pattern : Str
  replacement : Str
  redirect : Str
  deriving DecidableEq

structure CompressionConfig where
  enabled : Bool
  level : Int
  deriving DecidableEq

structure LocationConfig (F : Type) where
  path : Str
  matchType : Str
  /-- The lifetime of cached responses. -/
  cacheTTL : Str
  rewrite : Option RewriteConfig
  /-- The upstream of `proxy`, if there is such a block. -/
  proxyUpstream : Option Str
  compression : Option CompressionConfig
  waf : Option (Waf.WAFLocationConfig F)
  deriving DecidableEq

/-- The fields of a target beside its server name. -/
structure TargetFields (F : Type) where
  upstreams : List UpstreamConfig
  lbAlgorithm : Str
  locations : List (LocationConfig F)
  deriving DecidableEq

/-- A target with its fields. -/
abbrev Target (F : Type) := TargetConfig (TargetFields F)

/-- `ParseURL`: the scheme and the rest. -/
def parseURL (raw : Str) : Option (Str × Str) := cut (str "://") raw

/-- `ParseUpstreams` succeeds. -/
def TargetConfig.parses (t : Target F) : Bool :=
  t.rest.upstreams.all fun uc => (parseURL uc.url).isSome

/-- The health check `buildTargetConfigHandler` picks: the first one with a path. -/
def TargetConfig.healthCheck (t : Target F) : Option HealthCheckConfig :=
  t.rest.upstreams.findSome? fun uc => uc.healthCheck.filter (·.path ≠ [])

end Peretum.Config
