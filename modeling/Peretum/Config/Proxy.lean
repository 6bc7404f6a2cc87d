import Peretum.Config.Target
import Peretum.Go.Duration

/-!
# The configuration of the proxy

The fields of `config.yaml` that decide which targets and which firewall a process starts
with, and the parser for listeners.
-/

namespace Peretum.Config

open Go

variable {F R A N : Type}

structure WAFConfig where
  enabled : Bool
  geoLiteDir : Str

structure ClusterConfig where
  natsURI : Str
  lazy : Bool

structure ProxyConfig where
  waf : Option WAFConfig
  cluster : Option ClusterConfig

/-- `skipLocalTargets` of `Run`: a lazy edge with a control plane reads no directory. -/
def ProxyConfig.skipLocalTargets (cfg : ProxyConfig) : Bool :=
  cfg.cluster.any fun c => c.lazy && c.natsURI ≠ []

/-- The targets `Run` starts with. -/
def startupTargets (codec : Codec (TargetFields F)) (cfg : ProxyConfig) (dir : Directory) :
    Except LoadError (List (Target F)) :=
  if cfg.skipLocalTargets then .ok [] else loadTargets codec dir

structure ListenersSpec where
  addr : Str
  ssl : Bool
  quic : Bool
  deriving DecidableEq

/-- The errors of `ParseListener`. -/
inductive ListenerError where
  /-- "empty listen directive" -/
  | empty
  /-- "duplicate listen flag %q" -/
  | duplicateFlag (flag : Str)
  /-- "unknown listen flag %q" -/
  | unknownFlag (flag : Str)
  /-- "listen flags conflict: h2c cannot be combined with ssl" -/
  | conflict
  /-- "listen port %d out of range" -/
  | port (p : Int)
  deriving DecidableEq

/-- The flags of a listener. -/
structure ListenerFlags where
  ssl : Bool := false
  /-- `h3`, `http3` or `quic`. -/
  quic : Bool := false
  h2c : Bool := false

/-- The loop of `ParseListener` over the flags. -/
def parseFlags : List Str → List Str → ListenerFlags → Except ListenerError ListenerFlags
  | _, [], acc => .ok acc
  | seen, f :: flags, acc =>
      if f ∈ seen then .error (.duplicateFlag f)
      else if f = str "ssl" then parseFlags (f :: seen) flags { acc with ssl := true }
      else if f = str "h3" ∨ f = str "http3" ∨ f = str "quic" then
        parseFlags (f :: seen) flags { acc with quic := true }
      else if f = str "h2c" then parseFlags (f :: seen) flags { acc with h2c := true }
      else if f = str "h2" ∨ f = str "http2" then parseFlags (f :: seen) flags acc
      else .error (.unknownFlag f)

/-- `net.JoinHostPort`. -/
def joinHostPort (host port : Str) : Str :=
  if 0x3A ∈ host then str "[" ++ host ++ str "]:" ++ port else host ++ str ":" ++ port

def resolveListenAddr (lib : Waf.Library F R A N) (raw : Str) (defaultPort : Nat) :
    Except ListenerError Str :=
  let raw := trimSpace raw
  if raw = [] then .ok (str ":" ++ natString defaultPort)
  else if (lib.splitHostPort raw).isSome then .ok raw
  else
    match atoi (if hasPrefix raw (str ":") then raw.drop 1 else raw) with
    | some p =>
        if p < 0 ∨ 65535 < p then .error (.port p) else .ok (str ":" ++ natString p.toNat)
    | none => .ok (joinHostPort raw (natString defaultPort))

def parseListener (lib : Waf.Library F R A N) (raw : Str) : Except ListenerError ListenersSpec :=
  match fields raw with
  | [] => .error .empty
  | addr :: flags =>
      match parseFlags [] flags {} with
      | .error e => .error e
      | .ok f =>
          if f.ssl && f.h2c then .error .conflict
          else
            match resolveListenAddr lib addr (if f.ssl || f.quic then 443 else 80) with
            | .error e => .error e
            | .ok addr => .ok ⟨addr, f.ssl, f.quic⟩

end Peretum.Config
