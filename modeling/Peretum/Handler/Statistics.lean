import Mathlib.Data.Finset.Card
import Peretum.Cache.Format
import Peretum.Handler.Purgeable

/-!
# Counting hits and misses

`ServeHTTP` counts a hit when the first look into the cache answers a request and a miss
when it does not. A request that misses and then waits for another one to fetch the same
response counts a hit as well, before it reads the response, if the other one has recorded
it. This file runs the two counters along with the requests and says what they add up to
when all requests are through.
-/

namespace Peretum.Handler

open Go Cache Function

namespace TargetHandler

/-- A request that is neither stopped nor passed on as gRPC, to a path that is cached. -/
def counts (th : TargetHandler) (r : Request) : Bool :=
  !isGRPCRequest r && (th.cache && !th.isCacheExcluded r.path)

/-- A preflight, which is answered before the cache is looked at. -/
def preflight (th : TargetHandler) (r : Request) : Bool :=
  th.corsEnabled && r.method == str "OPTIONS"

end TargetHandler

/-- A request has arrived and has not looked into the cache yet. -/
def Phase.unlooked : Phase → Bool
  | .looking _ => true
  | _ => false

/-- The number of requests that were answered from the cache. -/
def answeredCount (log : List Access) : Nat :=
  log.countP fun
    | .answered _ _ => true
    | .stored _ _ _ _ => false

section

variable (handlers : Nat → TargetHandler)

/-- The request of an arrival is counted among the requests. -/
def asks : Step → Bool
  | .arrive h _ (some r) => (handlers h).counts r
  | _ => false

/-- It is a preflight. -/
def asksPreflight : Step → Bool
  | .arrive h _ (some r) => (handlers h).counts r && (handlers h).preflight r
  | _ => false

/-- `RecordHit` after the first look. -/
def lookupHit (s : State) : Phase → Step → Bool
  | .looking job, .lookup now =>
      (serveFromCache (handlers job.handler).headers s.cache now job.key
        (handlers job.handler).cacheTTL).result.isOk
  | _, _ => false

/-- `RecordMiss` after the first look; a panic of `WriteHeader` comes before it. -/
def lookupMiss (s : State) : Phase → Step → Bool
  | .looking job, .lookup now =>
      match (serveFromCache (handlers job.handler).headers s.cache now job.key
        (handlers job.handler).cacheTTL).result with
      | .ok () => false
      | .error (.invalidStatus _) => false
      | .error _ => true
  | _, _ => false

/-- `RecordHit` of `serveWaiterFromFlight`, before the entry is read. A hook that panics
afterwards ends the request. -/
def waiterHit (s : State) : Phase → Step → Bool
  | .released _ flight, .serve _ => s.resp flight
  | .released _ flight, .leave => s.resp flight
  | _, _ => false

/-- Such a hit does not answer the request. -/
def waiterSpoiled (s : State) : Phase → Step → Bool
  | .released job flight, .serve now =>
      s.resp flight && !((handlers job.handler).serveWaiter s.cache now job.key).result.isOk
  | .released _ flight, .leave => s.resp flight
  | _, _ => false

end

/-- A server with its counters. -/
structure Counted where
  server : State
  /-- The hits that `Stats` reports. -/
  hits : Nat
  /-- The misses that `Stats` reports. -/
  misses : Nat
  /-- The requests that passed the hooks, to paths that are cached. -/
  requests : Nat
  preflights : Nat
  /-- The hits that were counted by waiting requests. -/
  shared : Nat
  /-- Those of them that did not answer the request. -/
  spoiled : Nat
  /-- The requests that have not looked into the cache yet. -/
  unlooked : Finset Nat

namespace Counted

/-- A server over an empty cache directory. -/
def init (maxSize maxAge : Int) : Counted := ⟨.init maxSize maxAge, 0, 0, 0, 0, 0, 0, ∅⟩

section

variable (sha : Str → Key) (handlers : Nat → TargetHandler)

/-- The counters after a step of a request. -/
def after (c : Counted) (i : Nat) (p : Phase) (a : Step) (t : State) : Counted where
  server := t
  hits := c.hits + (lookupHit handlers c.server p a).toNat + (waiterHit c.server p a).toNat
  misses := c.misses + (lookupMiss handlers c.server p a).toNat
  requests := c.requests + (asks handlers a).toNat
  preflights := c.preflights + (asksPreflight handlers a).toNat
  shared := c.shared + (waiterHit c.server p a).toNat
  spoiled := c.spoiled + (waiterSpoiled handlers c.server p a).toNat
  unlooked := if (t.requests i).unlooked then insert i c.unlooked else c.unlooked.erase i

/-- Between its arrival and its look into the cache, a request can neither return nor
panic. -/
def quits : Phase → Step → Bool
  | .looking _, .leave => true
  | _, _ => false

/-- One step of the server with its counters. -/
def step (c : Counted) : Nat × Step → Option Counted
  | (i, a) =>
      if quits (c.server.requests i) a then none
      else (requestStep sha handlers c.server i (c.server.requests i) a).map
        (c.after handlers i (c.server.requests i) a)

end

/-- All requests are through. -/
def Finished (c : Counted) : Prop :=
  ∀ i, c.server.requests i = .idle ∨ c.server.requests i = .done

/-- The counters add up to the requests, and the hits are the requests that were answered
from the cache. -/
def Accounted (c : Counted) : Prop :=
  c.hits + c.misses = c.requests ∧ c.hits = answeredCount c.server.log

/-- No preflight arrives, and no waiting request finds a response on its flight. -/
def Uncoalesced (handlers : Nat → TargetHandler) (c : Counted) : Nat × Step → Prop
  | (_, .arrive h r hooked) => asksPreflight handlers (.arrive h r hooked) = false
  | (i, .serve _) => ∀ job flight, c.server.requests i = .released job flight →
      c.server.resp flight = false
  | (i, .leave) => ∀ job flight, c.server.requests i = .released job flight →
      c.server.resp flight = false
  | _ => True

end Counted

section

variable (handlers : Nat → TargetHandler)

/-- What a step of a request adds to the counters. -/
structure Tallied (s t : State) (i : Nat) (p : Phase) (a : Step) (p' : Phase) : Prop where
  requests : t.requests = update s.requests i p'
  /-- A request that has arrived is a preflight or looks into the cache, and the look is
  counted once. -/
  looked : (lookupHit handlers s p a).toNat + (lookupMiss handlers s p a).toNat +
      (asksPreflight handlers a).toNat + p'.unlooked.toNat =
    p.unlooked.toNat + (asks handlers a).toNat
  answered : answeredCount t.log + (waiterSpoiled handlers s p a).toNat =
    answeredCount s.log + (lookupHit handlers s p a).toNat + (waiterHit s p a).toNat

end

variable {sha : Str → Key} {handlers : Nat → TargetHandler}

/-- Nothing is counted at this place. -/
def Phase.quiet : Phase → Bool
  | .idle | .looking _ | .released _ _ => false
  | _ => true

/-- The step is an arrival. -/
def Step.arrives : Step → Bool
  | .arrive _ _ _ => true
  | _ => false

variable {s : State}

theorem Tallied.of_quiet {t : State} {i : Nat} {p p' : Phase} {a : Step} (hquiet : p.quiet = true)
    (harrives : a.arrives = false) (hrequests : t.requests = update s.requests i p')
    (hlog : answeredCount t.log = answeredCount s.log) (hp' : p'.unlooked = false) :
    Tallied handlers s t i p a p' := by
  have ha : asks handlers a = false ∧ asksPreflight handlers a = false := by
    cases a with
    | arrive h r hooked => cases harrives
    | _ => exact ⟨rfl, rfl⟩
  have hp : p.unlooked = false ∧ lookupHit handlers s p a = false ∧
      lookupMiss handlers s p a = false ∧ waiterHit s p a = false ∧
      waiterSpoiled handlers s p a = false := by
    cases p with
    | idle | looking job | released job flight => cases hquiet
    | _ => exact ⟨rfl, rfl, rfl, rfl, rfl⟩
  obtain ⟨hlooked, hhit, hmiss, hwaiter, hspoiled⟩ := hp
  refine ⟨hrequests, ?_, ?_⟩
  · simp [ha, hlooked, hhit, hmiss, hp']
  · simp [hhit, hwaiter, hspoiled, hlog]

/-- The end of a request has looked into the cache. -/
theorem Phase.unlooked_finish (job : Job) (flight : Option Nat) :
    (Phase.finish job flight).unlooked = false := by
  cases flight <;> rfl

/-- A stored status is one that `WriteHeader` takes. -/
def StatusesValid (s : State) : Prop :=
  ∀ now w key ttl code,
    (s.cache.streamCachedResponse now w key ttl).result ≠ .error (.invalidStatus code)

/-- An arrival is a preflight, or looks into the cache, or is not counted. -/
theorem tallied_arrive (s : State) (i h : Nat) (r : Request) (hooked : Option Request) :
    Tallied handlers s (s.move i (arrived sha handlers h r hooked)) i .idle (.arrive h r hooked)
      (arrived sha handlers h r hooked) := by
  refine ⟨rfl, ?_, rfl⟩
  cases hooked with
  | none => rfl
  | some r' =>
    simp only [lookupHit, lookupMiss, asks, asksPreflight, arrived, TargetHandler.counts,
      TargetHandler.preflight]
    generalize isGRPCRequest r' = grpc
    generalize ((handlers h).corsEnabled && r'.method == str "OPTIONS") = preflight
    generalize ((handlers h).cache && !(handlers h).isCacheExcluded r'.path) = cached
    cases grpc <;> cases preflight <;> cases cached <;> rfl

/-- A read that answers a request is counted as a hit. -/
theorem tallied_answer {t : State} {i : Nat} {p next : Phase} {a : Step} {job : Job}
    {r : DiskCache.Streamed} (hread : ReadsCache handlers s p a job r next)
    (hok : r.result = .ok ()) (hrequests : t.requests = update s.requests i .done)
    (hlog : t.log = .answered job r.writer :: s.log) : Tallied handlers s t i p a .done := by
  have hcount : answeredCount t.log = answeredCount s.log + 1 := by simp [hlog, answeredCount]
  cases hread with
  | lookup _ now =>
    refine ⟨hrequests, ?_, ?_⟩
    · simp [lookupHit, lookupMiss, asks, asksPreflight, Phase.unlooked, hok, Except.isOk,
        Except.toBool]
    · simp [lookupHit, waiterHit, waiterSpoiled, hcount, hok, Except.isOk, Except.toBool]
  | serve _ now hresp =>
    refine ⟨hrequests, rfl, ?_⟩
    simp [lookupHit, waiterHit, waiterSpoiled, hcount, hresp, hok, Except.isOk, Except.toBool]

/-- A read that does not answer a request is counted as a miss at the first look. The hit that
a waiting request has counted is spoiled. -/
theorem tallied_miss {t : State} {i : Nat} {p next p' : Phase} {a : Step} {job : Job}
    {r : DiskCache.Streamed} {e : DiskCache.StreamError}
    (hread : ReadsCache handlers s p a job r next) (herror : r.result = .error e)
    (hvalid : p.unlooked = true → ∀ code, e ≠ .invalidStatus code)
    (hrequests : t.requests = update s.requests i p') (hlog : t.log = s.log)
    (hp' : p'.unlooked = false) : Tallied handlers s t i p a p' := by
  cases hread with
  | lookup _ now =>
    have hmiss : lookupMiss handlers s (.looking job) (.lookup now) = true := by
      simp only [lookupMiss, herror]
      split
      · next heq => cases heq
      · next code heq => exact absurd (Except.error.inj heq) (hvalid rfl code)
      · rfl
    refine ⟨hrequests, ?_, ?_⟩
    · rw [hp']
      simp [lookupHit, hmiss, asks, asksPreflight, Phase.unlooked, herror, Except.isOk,
        Except.toBool]
    · simp [lookupHit, waiterHit, waiterSpoiled, hlog, herror, Except.isOk, Except.toBool]
  | serve _ now hresp =>
    refine ⟨hrequests, ?_, ?_⟩
    · rw [hp']
      rfl
    · simp [lookupHit, waiterHit, waiterSpoiled, hlog, hresp, herror, Except.isOk, Except.toBool]

/-- A request that leaves counts nothing, unless it waited and has counted a hit that is spoiled
so. -/
theorem tallied_leave {t : State} {i : Nat} {p : Phase} {job : Job} {flight : Option Nat}
    (hquits : Counted.quits p .leave = false) (hleaves : p.leaves = some (job, flight))
    (hrequests : t.requests = update s.requests i (.finish job flight))
    (hlog : t.log = s.log) : Tallied handlers s t i p .leave (.finish job flight) := by
  have hlooked := Phase.unlooked_finish job flight
  cases p with
  | looking job => cases hquits
  | released job waited =>
    refine ⟨hrequests, ?_, ?_⟩
    · rw [hlooked]
      rfl
    · simp [lookupHit, waiterHit, waiterSpoiled, hlog]
  | idle | waiting | leaving | closing | deleting | done => cases hleaves
  | _ => exact .of_quiet rfl rfl hrequests (by rw [hlog]) hlooked

/-- Every step is counted, as long as no stored status ends a request. -/
theorem Taken.tallied {t : State} {i : Nat} {p p' : Phase} {a : Step} (hvalid : StatusesValid s)
    (hquits : Counted.quits p a = false) (h : Taken sha handlers s i p a p' t) :
    Tallied handlers s t i p a p' := by
  have hrequests := h.requests
  cases h with
  | arrive h r hooked => exact tallied_arrive s i h r hooked
  | answer hread hok => exact tallied_answer hread hok hrequests rfl
  | panic hread herror =>
    obtain ⟨now, w, ttl, rfl⟩ := hread.exists_streamed
    exact absurd herror (hvalid now w _ ttl _)
  | miss hread herror hother =>
    exact tallied_miss hread herror (fun _ => hother) hrequests rfl (by cases hread <;> rfl)
  | unserved hresp =>
    refine ⟨hrequests, rfl, ?_⟩
    simp [lookupHit, waiterHit, waiterSpoiled, hresp, State.move]
  | redirect hjob | unfit => exact .of_quiet rfl rfl hrequests rfl (Phase.unlooked_finish _ _)
  | leave hleaves => exact tallied_leave hquits hleaves hrequests rfl
  | _ => exact .of_quiet rfl rfl hrequests rfl rfl

/-- A read fails on a status only if the sidecar has one that `WriteHeader` refuses. -/
theorem exists_of_invalidStatus {d : DiskCache} {now : Int} {w : ResponseWriter} {key : Key}
    {ttl : Int} {code : Nat}
    (herror : (d.streamCachedResponse now w key ttl).result = .error (.invalidStatus code)) :
    ∃ info m, d.disk.lookup (cachePath key metaExt) = some info ∧
      readMetadata info.data = .ok m ∧ (m.statusCode < 100 ∨ 999 < m.statusCode) := by
  unfold DiskCache.streamCachedResponse at herror
  cases hinfo : d.disk.lookup (cachePath key metaExt) with
  | none => simp [hinfo] at herror
  | some info =>
    by_cases hstale : DiskCache.stale (d.ageLimit ttl) now info = true
    · simp [hinfo, hstale] at herror
    · cases hread : readMetadata info.data with
      | error e => simp [hinfo, hstale, hread] at herror
      | ok m =>
        by_cases hcode : m.statusCode < 100 ∨ 999 < m.statusCode
        · exact ⟨info, m, rfl, hread, hcode⟩
        · cases hbody : d.disk.lookup (cachePath key bodyExt) with
          | none | some file => simp [hinfo, hstale, hread, hcode, hbody] at herror

/-- Every status on disk is one that a response was stored with. -/
theorem statusesValid_of_sourced (hs : s.cache.Sourced fun key => (source key s.log).map Prod.snd) :
    StatusesValid s := by
  intro now w key ttl code herror
  obtain ⟨info, m, hinfo, hread, hcode⟩ := exists_of_invalidStatus herror
  obtain ⟨stored, hlast, hdata, -⟩ := hs key info hinfo
  obtain ⟨⟨job, last⟩, hsource, heq⟩ := Option.map_eq_some_iff.mp hlast
  obtain rfl : last = stored := heq
  obtain ⟨c, result, -, hstorable⟩ := stored_of_source hsource
  obtain ⟨hlow, hhigh⟩ := DiskCache.status_of_storable hstorable
  rw [hdata] at hread
  have hstatus := statusCode_of_readMetadata (by omega) hread
  omega

namespace Counted

/-- What every run keeps. -/
structure Balanced (c : Counted) : Prop where
  /-- The files come from the last stored calls. -/
  sourced : c.server.cache.Sourced fun key => (source key c.server.log).map Prod.snd
  unlooked : ∀ i, i ∈ c.unlooked ↔ (c.server.requests i).unlooked = true
  looked : c.hits + c.misses + c.preflights + c.unlooked.card = c.requests + c.shared
  answered : c.hits = answeredCount c.server.log + c.spoiled

theorem balanced_init (maxSize maxAge : Int) : (init maxSize maxAge).Balanced := by
  refine ⟨DiskCache.sourced_new maxSize maxAge _, fun i => ?_, rfl, rfl⟩
  simp [init, State.init, Phase.unlooked]

/-- The number of requests that have not looked yet changes with the one that moves. -/
theorem card_unlooked {c : Counted} {i : Nat} {p p' : Phase}
    (hunlooked : i ∈ c.unlooked ↔ p.unlooked = true) :
    (if p'.unlooked then insert i c.unlooked else c.unlooked.erase i).card + p.unlooked.toNat =
      c.unlooked.card + p'.unlooked.toNat := by
  cases hp : p.unlooked with
  | true =>
    have hmem := hunlooked.mpr hp
    have hpos := Finset.card_pos.mpr ⟨i, hmem⟩
    cases p'.unlooked with
    | true => simp [Finset.insert_eq_of_mem hmem]
    | false =>
      simp [Finset.card_erase_of_mem hmem]
      omega
  | false =>
    have hnotMem : i ∉ c.unlooked := fun hmem => by simp [hunlooked.mp hmem] at hp
    cases p'.unlooked with
    | true => simp [Finset.card_insert_of_notMem hnotMem]
    | false => simp [Finset.erase_eq_of_notMem hnotMem]

variable {c : Counted} {maxSize maxAge : Int}

theorem Balanced.step {c' : Counted} {a : Nat × Step} (hc : c.Balanced)
    (hstep : Counted.step sha handlers c a = some c') : c'.Balanced := by
  obtain ⟨i, a⟩ := a
  simp only [Counted.step] at hstep
  split at hstep
  · cases hstep
  · next hquits =>
    obtain ⟨t, ht, rfl⟩ := Option.map_eq_some_iff.mp hstep
    obtain ⟨p', htaken⟩ := requestStep_taken ht
    have htally := htaken.tallied (statusesValid_of_sourced hc.sourced) (by simpa using hquits)
    have hp' : t.requests i = p' := by rw [htally.requests, update_self]
    have hcard := @card_unlooked c i _ p' (hc.unlooked i)
    have hlooked := htally.looked
    have hanswered := htally.answered
    have hbefore := hc.looked
    have hhits := hc.answered
    refine ⟨sourced_step (a := (i, a)) hc.sourced ht, fun j => ?_, ?_, ?_⟩
    · simp only [after, hp']
      by_cases hj : j = i
      · subst hj
        rw [hp']
        cases p'.unlooked <;> simp
      · rw [htally.requests, update_of_ne hj, ← hc.unlooked j]
        cases p'.unlooked <;> simp [hj]
    · simp only [after, hp']
      omega
    · simp only [after]
      omega

theorem balanced_of_reaches {guard : Counted → Nat × Step → Prop}
    (hreach : Runs.Reaches (Counted.step sha handlers) guard (init maxSize maxAge) c) :
    c.Balanced :=
  hreach.invariant (fun _ _ _ hc _ hstep => hc.step hstep) (balanced_init maxSize maxAge)

/-- When all requests are through, all have looked into the cache. -/
theorem Balanced.unlooked_eq_empty (hc : c.Balanced) (hdone : c.Finished) : c.unlooked = ∅ := by
  refine Finset.eq_empty_of_forall_notMem fun i hi => ?_
  have hlooking := (hc.unlooked i).mp hi
  rcases hdone i with hidle | hdone
  · rw [hidle] at hlooking
    cases hlooking
  · rw [hdone] at hlooking
    cases hlooking

/-- When all requests are through, the counters add up exactly if as many preflights came
as waiting requests found a response on their flight, and each of these was answered. -/
theorem accounted_iff {maxSize maxAge : Int} {c : Counted}
    (hreach : Runs.Reaches (Counted.step sha handlers) Runs.Unrestricted (init maxSize maxAge) c)
    (hdone : c.Finished) : c.Accounted ↔ c.preflights = c.shared ∧ c.spoiled = 0 := by
  have hc := balanced_of_reaches hreach
  have hlooked := hc.looked
  have hanswered := hc.answered
  rw [hc.unlooked_eq_empty hdone, Finset.card_empty] at hlooked
  unfold Accounted
  omega

theorem waiterSpoiled_of_waiterHit {s : State} {p : Phase} {a : Step}
    (hhit : waiterHit s p a = false) : waiterSpoiled handlers s p a = false := by
  unfold waiterSpoiled
  split
  · next job flight now =>
    have hresp : s.resp flight = false := hhit
    rw [hresp, Bool.false_and]
  · exact hhit
  · rfl

/-- Without preflights and without shared responses, the counters of a run have none of
them. -/
theorem uncoalesced_of_reaches
    (hreach : Runs.Reaches (Counted.step sha handlers) (Uncoalesced handlers)
      (init maxSize maxAge) c) : c.preflights = 0 ∧ c.shared = 0 ∧ c.spoiled = 0 := by
  refine hreach.invariant (fun c a c' (hc : c.preflights = 0 ∧ c.shared = 0 ∧ c.spoiled = 0)
    hguard hstep => ?_) ⟨rfl, rfl, rfl⟩
  obtain ⟨i, a⟩ := a
  simp only [Counted.step] at hstep
  split at hstep
  · cases hstep
  · obtain ⟨t, ht, rfl⟩ := Option.map_eq_some_iff.mp hstep
    have hpreflight : asksPreflight handlers a = false := by
      cases a with
      | arrive h r hooked => exact hguard
      | _ => rfl
    have hhit : waiterHit c.server (c.server.requests i) a = false := by
      cases hp : c.server.requests i with
      | released job flight =>
        cases a with
        | serve now | leave => exact hguard job flight hp
        | _ => rfl
      | _ => rfl
    simp [after, hpreflight, hhit, waiterSpoiled_of_waiterHit hhit, hc]

/-- In every run in which no preflight arrives at a cached path and no waiting request
finds a response on its flight, the hits and misses add up to the requests when all are
through, and the hits are the requests that were answered from the cache. -/
theorem accounted_of_uncoalesced {maxSize maxAge : Int} {c : Counted}
    (hreach : Runs.Reaches (Counted.step sha handlers) (Uncoalesced handlers)
      (init maxSize maxAge) c) (hdone : c.Finished) : c.Accounted := by
  obtain ⟨hpreflights, hshared, hspoiled⟩ := uncoalesced_of_reaches hreach
  have hunrestricted : Runs.Reaches (Counted.step sha handlers) Runs.Unrestricted
      (init maxSize maxAge) c := hreach.mono fun _ _ _ => trivial
  exact (accounted_iff hunrestricted hdone).mpr ⟨hpreflights.trans hshared.symm, hspoiled⟩

theorem requests_of_exec {c' : Counted} {schedule : List (Nat × Step)}
    (hexec : Runs.exec (Counted.step sha handlers) c schedule = some c') {j : Nat}
    (hj : ∀ a ∈ schedule, a.1 ≠ j) : c'.server.requests j = c.server.requests j := by
  induction schedule generalizing c with
  | nil =>
    cases hexec
    rfl
  | cons a schedule ih =>
    obtain ⟨c₁, hstep, hrest⟩ := Option.bind_eq_some_iff.mp hexec
    rw [ih hrest fun b hb => hj b (List.mem_cons_of_mem a hb)]
    have hne : j ≠ a.1 := (hj a List.mem_cons_self).symm
    simp only [Counted.step] at hstep
    split at hstep
    · cases hstep
    · obtain ⟨t, ht, rfl⟩ := Option.map_eq_some_iff.mp hstep
      obtain ⟨p', htaken⟩ := requestStep_taken ht
      simp only [after, htaken.requests, update_of_ne hne]

theorem finished_of_two {schedule : List (Nat × Step)}
    (hexec : Runs.exec (Counted.step sha handlers) (init maxSize maxAge) schedule = some c)
    (htwo : ∀ i ∈ schedule.map Prod.fst, i = 0 ∨ i = 1) (hzero : c.server.requests 0 = .done)
    (hone : c.server.requests 1 = .done) : c.Finished := by
  intro i
  by_cases hi : i = 0 ∨ i = 1
  · rcases hi with rfl | rfl
    · exact .inr hzero
    · exact .inr hone
  · refine .inl (requests_of_exec hexec fun a ha heq => hi ?_)
    rw [← heq]
    exact htwo a.1 (List.mem_map_of_mem ha)

/-- Two requests for a page, of which one fetches it and the other waits. -/
def coalesced : List (Nat × Step) :=
  comes 0 getPage ++ comes 1 getPage ++ fetches 0 plainPage ++ [(1, .receive), (1, .serve 0)]

def coalescedState : Counted :=
  (Runs.exec (Counted.step (fun _ => zeroKey) fun _ => plainHandler) (init 0 0) coalesced).get
    (by decide)

/-- Two requests, one of them answered from the cache, count one hit and two misses. -/
theorem coalescedState_not_accounted :
    Runs.Reaches (Counted.step (fun _ => zeroKey) fun _ => plainHandler) Runs.Unrestricted
        (init 0 0) coalescedState ∧
      coalescedState.Finished ∧ coalescedState.requests = 2 ∧ coalescedState.hits = 1 ∧
      coalescedState.misses = 2 ∧ ¬ coalescedState.Accounted := by
  have hexec : Runs.exec (Counted.step (fun _ => zeroKey) fun _ => plainHandler) (init 0 0)
      coalesced = some coalescedState := (Option.some_get _).symm
  exact ⟨Runs.reaches_of_exec hexec (Runs.admitted_unrestricted _ _ _),
    finished_of_two hexec (by decide) rfl rfl, by decide, by decide, by decide,
    by unfold Accounted; decide⟩

/-- A request fetches a page, and another one asks for it afterwards. -/
def consecutive : List (Nat × Step) := comes 0 getPage ++ fetches 0 plainPage ++ looks 1 getPage

def consecutiveState : Counted :=
  (Runs.exec (Counted.step (fun _ => zeroKey) fun _ => plainHandler) (init 0 0) consecutive).get
    (by decide)

/-- Two requests, one of them answered from the cache, count one hit and one miss. -/
theorem consecutiveState_accounted :
    consecutiveState.requests = 2 ∧ consecutiveState.Finished ∧ consecutiveState.Accounted := by
  have hexec : Runs.exec (Counted.step (fun _ => zeroKey) fun _ => plainHandler) (init 0 0)
      consecutive = some consecutiveState := (Option.some_get _).symm
  have hdone : consecutiveState.Finished := finished_of_two hexec (by decide) rfl rfl
  refine ⟨by decide, hdone, accounted_of_uncoalesced (Runs.reaches_of_exec hexec ?_) hdone⟩
  refine Runs.admitted_of_forall _ _ ?_
  simp [consecutive, comes, looks, fetches, Uncoalesced, asksPreflight, TargetHandler.preflight,
    TargetHandler.corsEnabled, plainHandler]

end Counted

end Peretum.Handler
