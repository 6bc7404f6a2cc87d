import Peretum.Runs
import Peretum.Handler.Headers

/-!
# Requests on cached locations

`TargetHandler.ServeHTTP` looks a request up in the disk cache, lets one request of
several for the same key fetch from the upstream while the others wait, and stores
what the upstream sent. This file embeds the requests as processes over the disk
cache, which all handlers share, and the flight table of each handler.

The operations on the flight table and the channels are single steps, and so are a
read of the disk cache, with the `Peek` before it, and a write. What the plugins, the
upstream and the clock do is part of the actions, so that nothing is assumed about
them. How a fetched response is sent to the client is left out here.
-/

namespace Peretum.Handler

open Go Cache Function

structure Request where
  method : Str
  path : Str
  /-- `URL.RequestURI()`: the escaped path and the query. -/
  uri : Str
  header : Header
  body : Str

def isGRPCRequest (r : Request) : Bool :=
  hasPrefix (r.header.get (str "Content-Type")) (str "application/grpc")

/-- A response that `capturingTransport` has read to its end. -/
structure Captured where
  statusCode : Nat
  header : UpstreamHeader
  body : Str

/-- `CORSConfig`. -/
structure CORSConfig where
  /-- Whether the block is in force. -/
  enabled : Bool
  /-- The origins that may use the answers, or a star. -/
  allowOrigins : List Str
  /-- The methods that are announced. -/
  allowMethods : List Str
  /-- The request headers that are announced. -/
  allowHeaders : List Str
  /-- The response headers that are announced. -/
  exposeHeaders : List Str
  /-- Whether credentials are announced. -/
  allowCredentials : Bool
  /-- How long the announcement may be kept. -/
  maxAge : Int

/-- What `ServeHTTP` reads of a `TargetHandler` and its location. -/
structure TargetHandler where
  targetName : Str
  cache : Bool
  cacheExcludes : List Str
  cacheTTL : Int
  headers : Option HeadersConfig
  cors : Option CORSConfig
  /-- The path the rewrite rule gives a request and the request URI that follows from
  it, when the rule changes the path. -/
  rewrite : Request → Option (Str × Str)
  /-- The rewrite rule redirects the client. -/
  redirect : Bool

namespace TargetHandler

/-- The location announces what other origins may do. -/
def corsEnabled (th : TargetHandler) : Bool := th.cors.any CORSConfig.enabled

def isCacheExcluded (th : TargetHandler) (path : Str) : Bool :=
  th.cacheExcludes.any fun pattern =>
    if pattern.isEmpty then false
    else if hasPrefix pattern (str ".") then hasSuffix path pattern
    else pattern == path || hasPrefix path (trimSuffix pattern (str "/"))

/-- The request after the rewrite rule. -/
def rewritten (th : TargetHandler) (r : Request) : Request :=
  match th.rewrite r with
  | none => r
  | some (path, uri) => { r with path := path, uri := uri }

/-- The test of `ServeHTTP` before a response is stored. -/
def mayStore (th : TargetHandler) (r : Request) (c : Captured) : Bool :=
  th.cache && !th.isCacheExcluded r.path && decide (200 ≤ c.statusCode) &&
    decide (c.statusCode < 300) && !c.body.isEmpty

/-- The part of `serveWaiterFromFlight` that streams the entry. -/
def serveWaiter (th : TargetHandler) (d : DiskCache) (now : Int) (key : Key) :
    DiskCache.Streamed :=
  d.streamCachedResponse now
    { ResponseWriter.fresh with header := applyResponseHeadersTo th.headers ∅ } key th.cacheTTL

end TargetHandler

/-- `CacheKey`, over the hash. -/
def cacheKey (sha : Str → Key) (host path : Str) : Key := sha (host ++ str "|" ++ path)

/-- A request on its way through `ServeHTTP`. -/
structure Job where
  handler : Nat
  key : Key
  sent : Request
  /-- The request as the hooks and the rewrite rule leave it. -/
  request : Request

/-- The flight a job belongs to: every handler has a table of its own. -/
def Job.flightKey (job : Job) : Nat × Key := (job.handler, job.key)

/-- Where a request is. Flights are named by the number of their channel; an owner
keeps the number of its own. -/
inductive Phase where
  | idle
  /-- The cache is read next. -/
  | looking (job : Job)
  /-- Nothing was cached, `LoadOrStore` is next. -/
  | joining (job : Job)
  | waiting (job : Job) (flight : Nat)
  /-- The channel was closed, `serveWaiterFromFlight` is next. -/
  | released (job : Job) (flight : Nat)
  /-- The upstream is next; the owner of a flight has one. -/
  | fetching (job : Job) (flight : Option Nat)
  | proxied (job : Job) (flight : Option Nat) (captured : Option Captured)
  /-- The response was stored or not, the owner records it on the flight next. -/
  | written (job : Job) (flight : Option Nat)
  /-- The deferred function of an owner starts with `Load`. -/
  | leaving (job : Job) (flight : Nat)
  | closing (job : Job) (flight found : Nat)
  /-- The deferred function deletes the key. -/
  | deleting (job : Job) (flight : Nat)
  | done

/-- The end of `ServeHTTP`: owners run their deferred function. -/
def Phase.finish (job : Job) : Option Nat → Phase
  | some flight => .leaving job flight
  | none => .done

/-- What the plugins make of a response. -/
structure Hooks where
  /-- What `AfterProxy` and the later hooks leave of the captured headers. -/
  header : Header → Header
  /-- The result of `TransformResponseBody`, unless it fails. -/
  transformed : Option Str
  /-- The result of `BeforeCacheStore`, unless it fails. -/
  beforeStore : Option Str
  shouldCache : Bool

def Hooks.absent : Hooks := ⟨id, none, none, true⟩

/-- The call of `SetResponseToCache` for a response. -/
def writeFor (th : TargetHandler) (job : Job) (c : Captured) (hooks : Hooks) (now : Int)
    (io : DiskCache.WriteOutcome) : Write where
  now := now
  io := io
  key := job.key
  host := th.targetName
  path := job.request.uri
  statusCode := c.statusCode
  headers := hooks.header c.header.sanitized
  body := hooks.beforeStore.getD (hooks.transformed.getD c.body)

/-- What happened to the cache. -/
inductive Access where
  /-- A response was given to `SetResponseToCache`. -/
  | stored (job : Job) (captured : Captured) (write : Write)
      (result : Except DiskCache.SetError Unit)
  | answered (job : Job) (writer : ResponseWriter)

/-- The handlers of a server with their requests. -/
structure State where
  cache : DiskCache
  /-- `flightMu` of each handler. -/
  flightMu : Nat × Key → Option Nat
  next : Nat
  /-- How often each channel was closed. -/
  closes : Nat → Nat
  /-- `resp` of each flight was set. -/
  resp : Nat → Bool
  requests : Nat → Phase
  /-- The history of the cache, newest first. -/
  log : List Access

namespace State

/-- A server over an empty cache directory. -/
def init (maxSize maxAge : Int) : State :=
  ⟨.new ∅ maxSize maxAge, fun _ => none, 0, fun _ => 0, fun _ => false, fun _ => .idle, []⟩

/-- Move a request to its next place. -/
def move (s : State) (i : Nat) (p : Phase) : State :=
  { s with requests := update s.requests i p }

/-- A read of the cache for a request: a hit answers it, a stored status that
`WriteHeader` panics on ends it, and otherwise it goes on. -/
def read (s : State) (i : Nat) (job : Job) (r : DiskCache.Streamed) (next : Phase) : State :=
  match r.result with
  | .ok () => { s with cache := r.cache, log := .answered job r.writer :: s.log }.move i .done
  | .error (.invalidStatus _) => { s with cache := r.cache }.move i .done
  | .error _ => { s with cache := r.cache }.move i next

end State

/-- The steps of a request. -/
inductive Step where
  /-- The request arrives at a handler; the `BeforeProxy` hooks stop it or leave this
  of it. -/
  | arrive (handler : Nat) (r : Request) (hooked : Option Request)
  | lookup (now : Int)
  /-- `LoadOrStore` on the flight table. -/
  | join
  /-- The receive from the channel of the flight returns. -/
  | receive
  /-- `serveWaiterFromFlight`. -/
  | serve (now : Int)
  /-- The request is rewritten, redirected or proxied; the transport may fail. -/
  | fetch (captured : Option Captured)
  /-- The hooks run and the response is stored if a write slot is free. -/
  | store (hooks : Hooks) (slot : Bool) (now : Int) (io : DiskCache.WriteOutcome)
  /-- The owner records the response on the flight `Load` finds. -/
  | record
  | leave
  /-- `Load` of the deferred function. -/
  | load
  /-- `closeOnce` of the deferred function. -/
  | close
  /-- `Delete` of the deferred function. -/
  | delete

section

variable (sha : Str → Key) (handlers : Nat → TargetHandler)

/-- `ServeHTTP` up to the first look into the cache. gRPC requests and preflights are
answered without it. -/
def arrived (h : Nat) (sent : Request) : Option Request → Phase
  | none => .done
  | some r =>
      let job : Job := ⟨h, cacheKey sha (handlers h).targetName r.uri, sent, r⟩
      if isGRPCRequest r then .done
      else if (handlers h).corsEnabled && r.method == str "OPTIONS" then .done
      else if (handlers h).cache && !(handlers h).isCacheExcluded r.path then .looking job
      else .fetching job none

/-- A step of a request at the place it is. -/
def requestStep (s : State) (i : Nat) : Phase → Step → Option State
  | .idle, .arrive h r hooked => some (s.move i (arrived sha handlers h r hooked))
  | .looking job, .lookup now =>
      let th := handlers job.handler
      some (s.read i job (serveFromCache th.headers s.cache now job.key th.cacheTTL) (.joining job))
  | .joining job, .join =>
      match s.flightMu job.flightKey with
      | some flight => some (s.move i (.waiting job flight))
      | none => some ({ s with
          flightMu := update s.flightMu job.flightKey (some s.next)
          next := s.next + 1 }.move i (.fetching job (some s.next)))
  | .waiting job flight, .receive =>
      if s.closes flight = 0 then none else some (s.move i (.released job flight))
  | .released job flight, .serve now =>
      if s.resp flight then
        some (s.read i job ((handlers job.handler).serveWaiter s.cache now job.key)
          (.fetching job none))
      else some (s.move i (.fetching job none))
  | .fetching job flight, .fetch captured =>
      let th := handlers job.handler
      let job := { job with request := th.rewritten job.request }
      some (s.move i (if th.redirect then .finish job flight else .proxied job flight captured))
  | .proxied job flight (some c), .store hooks slot now io =>
      let th := handlers job.handler
      if th.mayStore job.request c then
        if hooks.shouldCache && slot then
          let w := writeFor th job c hooks now io
          some ({ s with
            cache := (w.run s.cache).2
            log := .stored job c w (w.run s.cache).1 :: s.log }.move i (.written job flight))
        else some (s.move i (.written job flight))
      else some (s.move i (.finish job flight))
  | .written job (some flight), .record =>
      some ({ s with
        resp := match s.flightMu job.flightKey with
          | some found => update s.resp found true
          | none => s.resp }.move i (.leaving job flight))
  | .looking _, .leave | .joining _, .leave | .released _ _, .leave => some (s.move i .done)
  | .fetching job flight, .leave => some (s.move i (.finish job flight))
  | .proxied job flight _, .leave => some (s.move i (.finish job flight))
  | .written job flight, .leave => some (s.move i (.finish job flight))
  | .leaving job flight, .load =>
      some (s.move i (match s.flightMu job.flightKey with
        | some found => .closing job flight found
        | none => .deleting job flight))
  | .closing job flight found, .close =>
      some ({ s with
        closes := if s.closes found = 0 then update s.closes found 1 else s.closes }.move i
          (.deleting job flight))
  | .deleting job _, .delete =>
      some ({ s with flightMu := update s.flightMu job.flightKey none }.move i .done)
  | _, _ => none

/-- One step of the server. -/
def step (s : State) : Nat × Step → Option State
  | (i, a) => requestStep sha handlers s i (s.requests i) a

end

/-- The request a phase is about. -/
def Phase.job : Phase → Option Job
  | .looking job | .joining job | .waiting job _ | .released job _ | .fetching job _
  | .proxied job _ _ | .written job _ | .leaving job _ | .closing job _ _ | .deleting job _ =>
      some job
  | .idle | .done => none

theorem Phase.job_finish (job : Job) (flight : Option Nat) :
    (Phase.finish job flight).job = none ∨ (Phase.finish job flight).job = some job := by
  cases flight with
  | none => exact .inl rfl
  | some flight => exact .inr rfl

/-- The same arrival, possibly rewritten since. -/
structure Job.Same (job job' : Job) : Prop where
  handler : job'.handler = job.handler
  key : job'.key = job.key
  sent : job'.sent = job.sent

/-- What a step does to the cache and its history. -/
inductive CacheMove (handlers : Nat → TargetHandler) (s t : State) (p : Phase) : Prop where
  | same (hcache : t.cache = s.cache) (hlog : t.log = s.log)
  | missed {job : Job} {now : Int} {w : ResponseWriter} {ttl : Int}
      (hcache : t.cache = (s.cache.streamCachedResponse now w job.key ttl).cache)
      (hlog : t.log = s.log)
  | answered {job : Job} {now : Int} {w : ResponseWriter} {ttl : Int} (hjob : p.job = some job)
      (hok : (s.cache.streamCachedResponse now w job.key ttl).result = .ok ())
      (hcache : t.cache = (s.cache.streamCachedResponse now w job.key ttl).cache)
      (hlog : t.log =
        .answered job (s.cache.streamCachedResponse now w job.key ttl).writer :: s.log)
  /-- Give it a response that passed the test. -/
  | stored {job : Job} {flight : Option Nat} {c : Captured} {w : Write}
      (hp : p = .proxied job flight (some c))
      (hmay : (handlers job.handler).mayStore job.request c = true) (hkey : w.key = job.key)
      (hcache : t.cache = (w.run s.cache).2)
      (hlog : t.log = .stored job c w (w.run s.cache).1 :: s.log)

/-- What a request that leaves has got: its job, and the flight of an owner. -/
def Phase.leaves : Phase → Option (Job × Option Nat)
  | .looking job | .joining job | .released job _ => some (job, none)
  | .fetching job flight | .proxied job flight _ | .written job flight => some (job, flight)
  | _ => none

section

variable (sha : Str → Key) (handlers : Nat → TargetHandler)

/-- What a step of a request does: to its job, and to the cache. -/
structure StepEffect (s t : State) (i : Nat) (p : Phase) (a : Step) (p' : Phase) : Prop where
  requests : t.requests = update s.requests i p'
  job : ∀ job', p'.job = some job' → (∃ job, p.job = some job ∧ job.Same job') ∨
    ∃ h r hooked, a = .arrive h r hooked ∧ p' = arrived sha handlers h r hooked
  proxied : ∀ job' flight c, p' = .proxied job' flight (some c) → ∃ job,
    p = .fetching job flight ∧ a = .fetch (some c) ∧
      job' = { job with request := (handlers job.handler).rewritten job.request }
  cache : CacheMove handlers s t p

/-- A step that reads the cache: what it finds, and where the request goes on without it. -/
inductive ReadsCache (s : State) : Phase → Step → Job → DiskCache.Streamed → Phase → Prop where
  /-- The first look. -/
  | lookup (job : Job) (now : Int) :
      ReadsCache s (.looking job) (.lookup now) job
        (serveFromCache (handlers job.handler).headers s.cache now job.key
          (handlers job.handler).cacheTTL) (.joining job)
  /-- The look of a waiting request whose flight has a response. -/
  | serve (job : Job) {flight : Nat} (now : Int) (hresp : s.resp flight = true) :
      ReadsCache s (.released job flight) (.serve now) job
        ((handlers job.handler).serveWaiter s.cache now job.key) (.fetching job none)

/-- Everything a step of a request can do: where it leads, and the state after it. -/
inductive Taken (s : State) (i : Nat) : Phase → Step → Phase → State → Prop where
  /-- The request arrives. -/
  | arrive (h : Nat) (r : Request) (hooked : Option Request) :
      Taken s i .idle (.arrive h r hooked) (arrived sha handlers h r hooked)
        (s.move i (arrived sha handlers h r hooked))
  /-- The cache answers it. -/
  | answer {p next : Phase} {a : Step} {job : Job} {r : DiskCache.Streamed}
      (hread : ReadsCache handlers s p a job r next) (hok : r.result = .ok ()) :
      Taken s i p a .done
        ({ s with cache := r.cache, log := .answered job r.writer :: s.log }.move i .done)
  /-- A stored status ends it. -/
  | panic {p next : Phase} {a : Step} {job : Job} {r : DiskCache.Streamed} {code : Nat}
      (hread : ReadsCache handlers s p a job r next)
      (herror : r.result = .error (.invalidStatus code)) :
      Taken s i p a .done ({ s with cache := r.cache }.move i .done)
  /-- The cache does not answer it. -/
  | miss {p next : Phase} {a : Step} {job : Job} {r : DiskCache.Streamed}
      {e : DiskCache.StreamError} (hread : ReadsCache handlers s p a job r next)
      (herror : r.result = .error e) (hother : ∀ code, e ≠ .invalidStatus code) :
      Taken s i p a next ({ s with cache := r.cache }.move i next)
  /-- It waits for the flight in the table. -/
  | wait {job : Job} {flight : Nat} (htable : s.flightMu job.flightKey = some flight) :
      Taken s i (.joining job) .join (.waiting job flight) (s.move i (.waiting job flight))
  /-- It puts a flight of its own into the table. -/
  | claim {job : Job} (hfree : s.flightMu job.flightKey = none) :
      Taken s i (.joining job) .join (.fetching job (some s.next))
        ({ s with
          flightMu := update s.flightMu job.flightKey (some s.next)
          next := s.next + 1 }.move i (.fetching job (some s.next)))
  /-- The channel of its flight is closed. -/
  | release {job : Job} {flight : Nat} :
      Taken s i (.waiting job flight) .receive (.released job flight)
        (s.move i (.released job flight))
  /-- Its flight has no response. -/
  | unserved {job : Job} {flight : Nat} {now : Int} (hresp : s.resp flight = false) :
      Taken s i (.released job flight) (.serve now) (.fetching job none)
        (s.move i (.fetching job none))
  /-- The client is sent elsewhere. -/
  | redirect {job job' : Job} {flight : Option Nat} {captured : Option Captured}
      (hjob : job' = { job with request := (handlers job.handler).rewritten job.request }) :
      Taken s i (.fetching job flight) (.fetch captured) (.finish job' flight)
        (s.move i (.finish job' flight))
  /-- The request is proxied. -/
  | proxy {job job' : Job} {flight : Option Nat} {captured : Option Captured}
      (hjob : job' = { job with request := (handlers job.handler).rewritten job.request }) :
      Taken s i (.fetching job flight) (.fetch captured) (.proxied job' flight captured)
        (s.move i (.proxied job' flight captured))
  /-- A response that passes the test is given to the cache. -/
  | store {job : Job} {flight : Option Nat} {c : Captured} {hooks : Hooks} {slot : Bool}
      {now : Int} {io : DiskCache.WriteOutcome} {w : Write}
      (hmay : (handlers job.handler).mayStore job.request c = true)
      (hw : w = writeFor (handlers job.handler) job c hooks now io) :
      Taken s i (.proxied job flight (some c)) (.store hooks slot now io) (.written job flight)
        ({ s with
          cache := (w.run s.cache).2
          log := .stored job c w (w.run s.cache).1 :: s.log }.move i (.written job flight))
  /-- No slot is free for it, or a plugin is against it. -/
  | skip {job : Job} {flight : Option Nat} {c : Captured} {hooks : Hooks} {slot : Bool}
      {now : Int} {io : DiskCache.WriteOutcome} :
      Taken s i (.proxied job flight (some c)) (.store hooks slot now io) (.written job flight)
        (s.move i (.written job flight))
  /-- The response does not pass the test. -/
  | unfit {job : Job} {flight : Option Nat} {c : Captured} {hooks : Hooks} {slot : Bool}
      {now : Int} {io : DiskCache.WriteOutcome} :
      Taken s i (.proxied job flight (some c)) (.store hooks slot now io) (.finish job flight)
        (s.move i (.finish job flight))
  /-- The owner records the response. -/
  | record {job : Job} {flight : Nat} (resp : Nat → Bool) :
      Taken s i (.written job (some flight)) .record (.leaving job flight)
        ({ s with resp := resp }.move i (.leaving job flight))
  /-- The request returns or panics. -/
  | leave {p : Phase} {job : Job} {flight : Option Nat} (hleaves : p.leaves = some (job, flight)) :
      Taken s i p .leave (.finish job flight) (s.move i (.finish job flight))
  /-- The deferred function finds a flight. -/
  | load {job : Job} {flight found : Nat} (htable : s.flightMu job.flightKey = some found) :
      Taken s i (.leaving job flight) .load (.closing job flight found)
        (s.move i (.closing job flight found))
  /-- The deferred function finds none. -/
  | lose {job : Job} {flight : Nat} (htable : s.flightMu job.flightKey = none) :
      Taken s i (.leaving job flight) .load (.deleting job flight)
        (s.move i (.deleting job flight))
  /-- The deferred function closes the channel. -/
  | close {job : Job} {flight found : Nat} :
      Taken s i (.closing job flight found) .close (.deleting job flight)
        ({ s with
          closes := if s.closes found = 0 then update s.closes found 1 else s.closes }.move
            i (.deleting job flight))
  /-- The deferred function deletes the key. -/
  | delete {job : Job} {flight : Nat} :
      Taken s i (.deleting job flight) .delete .done
        ({ s with flightMu := update s.flightMu job.flightKey none }.move i .done)

end

variable {sha : Str → Key} {handlers : Nat → TargetHandler}

variable {s t : State} {i : Nat} {p p' : Phase} {a : Step}

/-- A read of the cache is taken as its result says. -/
theorem State.read_taken {job : Job} {r : DiskCache.Streamed} {next : Phase}
    (hread : ReadsCache handlers s p a job r next) :
    ∃ p', Taken sha handlers s i p a p' (s.read i job r next) := by
  unfold State.read
  split
  · next hok => exact ⟨_, .answer hread hok⟩
  · next herror => exact ⟨_, .panic hread herror⟩
  · next hother herror => exact ⟨_, .miss hread herror hother⟩

/-- Every step is one of these. -/
theorem requestStep_taken (hstep : requestStep sha handlers s i p a = some t) :
    ∃ p', Taken sha handlers s i p a p' t := by
  unfold requestStep at hstep
  split at hstep
  case h_2 job now =>
    cases hstep
    exact State.read_taken (.lookup job now)
  case h_3 job =>
    split at hstep
    · next htable =>
      cases hstep
      exact ⟨_, .wait htable⟩
    · next hfree =>
      cases hstep
      exact ⟨_, .claim hfree⟩
  case h_4 job flight =>
    obtain ⟨-, hstep⟩ := Option.ite_none_left_eq_some.mp hstep
    cases hstep
    exact ⟨_, .release⟩
  case h_5 job flight now =>
    split at hstep
    · next hresp =>
      cases hstep
      exact State.read_taken (.serve job now hresp)
    · next hresp =>
      cases hstep
      exact ⟨_, .unserved (by simpa using hresp)⟩
  case h_6 job flight captured =>
    cases hstep
    split
    · exact ⟨_, .redirect rfl⟩
    · exact ⟨_, .proxy rfl⟩
  case h_7 job flight c hooks slot now io =>
    dsimp only at hstep
    split at hstep
    · next hmay =>
      split at hstep
      · cases hstep
        exact ⟨_, .store hmay rfl⟩
      · cases hstep
        exact ⟨_, .skip⟩
    · cases hstep
      exact ⟨_, .unfit⟩
  case h_15 job flight =>
    cases hstep
    split
    · next htable => exact ⟨_, .load htable⟩
    · next htable => exact ⟨_, .lose htable⟩
  case h_1 =>
    cases hstep
    exact ⟨_, .arrive _ _ _⟩
  case h_8 =>
    cases hstep
    exact ⟨_, .record _⟩
  case h_16 =>
    cases hstep
    exact ⟨_, .close⟩
  case h_17 =>
    cases hstep
    exact ⟨_, .delete⟩
  case h_12 job flight | h_13 job flight captured | h_14 job flight =>
    cases hstep
    exact ⟨_, .leave rfl⟩
  case h_9 job | h_10 job | h_11 job flight =>
    cases hstep
    exact ⟨_, @Taken.leave sha handlers s i _ job none rfl⟩
  case h_18 => cases hstep

/-- A step moves its request and no other. -/
theorem Taken.requests (h : Taken sha handlers s i p a p' t) :
    t.requests = update s.requests i p' := by
  cases h <;> rfl

/-- A read goes on with the job it began with, and not to the end of the proxy. -/
theorem ReadsCache.job {job : Job} {r : DiskCache.Streamed} {next : Phase}
    (hread : ReadsCache handlers s p a job r next) :
    p.job = some job ∧ next.job = some job ∧
      ∀ job' flight c, next ≠ .proxied job' flight (some c) := by
  cases hread <;> exact ⟨rfl, rfl, by simp⟩

/-- Both reads are calls of `StreamCachedResponse` for the key of the job. -/
theorem ReadsCache.exists_streamed {job : Job} {r : DiskCache.Streamed} {next : Phase}
    (hread : ReadsCache handlers s p a job r next) :
    ∃ now w ttl, r = s.cache.streamCachedResponse now w job.key ttl := by
  cases hread <;> exact ⟨_, _, _, rfl⟩

/-- A step that keeps the job, or ends it. -/
theorem StepEffect.of_job (hrequests : t.requests = update s.requests i p')
    (hjob : p'.job = none ∨ p'.job = p.job)
    (hproxied : ∀ job flight c, p' ≠ .proxied job flight (some c))
    (hcache : CacheMove handlers s t p) : StepEffect sha handlers s t i p a p' := by
  refine ⟨hrequests, ?_, fun job flight c hp' => absurd hp' (hproxied job flight c), hcache⟩
  intro job' hjob'
  rcases hjob with hnone | hsame
  · exact absurd (hnone.symm.trans hjob') (by simp)
  · exact .inl ⟨job', hsame ▸ hjob', rfl, rfl, rfl⟩

/-- The end of a request is not the end of the proxy. -/
theorem Phase.finish_ne_proxied (job : Job) (flight : Option Nat) (job' : Job)
    (flight' : Option Nat) (c : Captured) :
    Phase.finish job flight ≠ .proxied job' flight' (some c) := by
  cases flight <;> simp [Phase.finish]

/-- A request that has just arrived is not proxied. -/
theorem arrived_ne_proxied (h : Nat) (r : Request) (hooked : Option Request) (job : Job)
    (flight : Option Nat) (c : Captured) :
    arrived sha handlers h r hooked ≠ .proxied job flight (some c) := by
  cases hooked with
  | none => simp [arrived]
  | some r' =>
    simp only [arrived]
    split_ifs <;> simp

/-- The request that leaves keeps its job. -/
theorem Phase.job_of_leaves {job : Job} {flight : Option Nat}
    (hleaves : p.leaves = some (job, flight)) : p.job = some job := by
  cases p <;> simp_all [Phase.leaves, Phase.job]

/-- The effect of every step. -/
theorem Taken.effect (h : Taken sha handlers s i p a p' t) :
    StepEffect sha handlers s t i p a p' := by
  have hrequests := h.requests
  cases h with
  | arrive h r hooked =>
    exact ⟨hrequests, fun _ _ => .inr ⟨h, r, hooked, rfl, rfl⟩,
      fun job flight c heq => absurd heq (arrived_ne_proxied h r hooked job flight c),
      .same rfl rfl⟩
  | answer hread hok =>
    obtain ⟨now, w, ttl, rfl⟩ := hread.exists_streamed
    exact .of_job hrequests (.inl rfl) (by simp) (.answered hread.job.1 hok rfl rfl)
  | panic hread herror =>
    obtain ⟨now, w, ttl, rfl⟩ := hread.exists_streamed
    exact .of_job hrequests (.inl rfl) (by simp) (.missed rfl rfl)
  | miss hread herror hother =>
    obtain ⟨now, w, ttl, rfl⟩ := hread.exists_streamed
    obtain ⟨hjob, hnext, hproxied⟩ := hread.job
    exact .of_job hrequests (.inr (hnext.trans hjob.symm)) hproxied (.missed rfl rfl)
  | @redirect job job' flight captured hjob =>
    subst hjob
    refine ⟨hrequests, fun job' hjob' => .inl ⟨job, rfl, ?_⟩,
      fun _ _ _ heq => absurd heq (Phase.finish_ne_proxied _ _ _ _ _), .same rfl rfl⟩
    cases flight with
    | none => cases hjob'
    | some flight =>
      cases hjob'
      exact ⟨rfl, rfl, rfl⟩
  | @proxy job job' flight captured hjob =>
    subst hjob
    refine ⟨hrequests, fun job' hjob' => .inl ⟨job, rfl, ?_⟩, ?_, .same rfl rfl⟩
    · cases hjob'
      exact ⟨rfl, rfl, rfl⟩
    · rintro job' flight' c ⟨⟩
      exact ⟨job, rfl, rfl, rfl⟩
  | store hmay hw =>
    subst hw
    exact .of_job hrequests (.inr rfl) (by simp) (.stored rfl hmay rfl rfl rfl)
  | @unfit job flight =>
    exact .of_job hrequests (Phase.job_finish job flight) (Phase.finish_ne_proxied job flight)
      (.same rfl rfl)
  | @leave _ job flight hleaves =>
    exact .of_job hrequests
      ((Phase.job_finish job flight).imp_right (·.trans (Phase.job_of_leaves hleaves).symm))
      (Phase.finish_ne_proxied job flight) (.same rfl rfl)
  | delete => exact .of_job hrequests (.inl rfl) (by simp) (.same rfl rfl)
  | _ => exact .of_job hrequests (.inr rfl) (by simp) (.same rfl rfl)

/-- A handler with a cached location and no rules. -/
def plainHandler : TargetHandler :=
  ⟨str "a.example", true, [], 0, none, none, fun _ => none, false⟩

def getPage : Request := ⟨str "GET", str "/page", str "/page", ∅, []⟩

/-- A small response without headers. -/
def plainPage : Captured :=
  ⟨200, ⟨∅, Header.canonical_of_entries (by decide), Header.valued_of_entries (by decide)⟩,
    str "page"⟩

/-- A request arrives and looks into the cache. -/
def looks (i : Nat) (r : Request) : List (Nat × Step) :=
  [(i, .arrive 0 r (some r)), (i, .lookup 0)]

/-- A request comes to the flight table. -/
def comes (i : Nat) (r : Request) : List (Nat × Step) := looks i r ++ [(i, .join)]

/-- The owner of a flight fetches a response, stores it without plugins and leaves. -/
def fetches (i : Nat) (c : Captured) : List (Nat × Step) :=
  [(i, .fetch (some c)), (i, .store .absent true 0 ⟨true, true⟩), (i, .record), (i, .load),
    (i, .close), (i, .delete)]

end Peretum.Handler
