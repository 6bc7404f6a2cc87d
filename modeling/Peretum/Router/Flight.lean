import Mathlib.Logic.Function.Basic
import Peretum.Runs
import Peretum.Cluster.Lru

/-!
# Materializing targets on demand

In lazy mode a request compiles the handler of its host from the target store and
leaves it in an LRU cache. `FlightTable` lets one request per host do the work
while the others wait. Config events write the store and then drop the compiled
handler. This file embeds requests and events as processes over the shared
store, cache and flight table, and finds out when an applied update can be
shadowed by a handler compiled from an older config.

The two critical sections of `materialize` are single steps. Other parties can
touch only the LRU cache while its mutex is held, and what they do there can be
ordered before or after the section.
-/

namespace Peretum.Router

open Cluster Function

variable {K D H : Type} [DecidableEq K]

/-- Why a request gets no handler. -/
inductive FlightError where
  /-- The resolver finds no target for the host. -/
  | notFound
  | load
  /-- `errMaterializeFailed`: a follower finds nothing in the cache. -/
  | materializeFailed
  /-- The caller's context is done. -/
  | canceled
  deriving DecidableEq, Repr

/-- Where a request is. Flights are named by the number of their channel. -/
inductive Caller (K D H : Type) where
  | idle
  /-- The resolver found the host in the store. -/
  | resolved (key : K)
  /-- Nothing was cached on the fast path, `materialize` comes next. -/
  | missed (key : K)
  /-- Owner of a flight whose load has not read the store. -/
  | claimed (key : K) (call : Nat)
  /-- Owner of a flight whose load has read a config and compiles it. -/
  | loading (key : K) (call : Nat) (data : D)
  /-- Owner of a flight whose load returned, with the config it compiled. -/
  | loaded (key : K) (call : Nat) (result : Option (D × H))
  | waiting (key : K) (call : Nat)
  | done (key : K) (result : Except FlightError H)

/-- What a config event does to the rows of its hostnames. -/
inductive Change (D : Type) where
  /-- `applyTargetUpdate` stores a config. -/
  | update (data : D)
  /-- `applyTargetDelete` removes the row. -/
  | delete

/-- The row a change leaves in the store. -/
def Change.row : Change D → Option D
  | .update data => some data
  | .delete => none

/-- Where the handling of a config event is. -/
inductive Event (K D : Type) where
  | idle
  /-- The store is written next for the first of the hostnames left. -/
  | applying (hosts : List K) (change : Change D)
  /-- The store was written for a hostname, its handler is dropped next. -/
  | wrote (host : K) (rest : List K) (change : Change D)

/-- The lazy router with its requests and events. -/
structure State (K D H : Type) where
  lru : LRUCache K H
  store : K → Option D
  /-- `FlightTable.calls`. -/
  calls : K → Option Nat
  nextCall : Nat
  /-- How often each channel was closed. -/
  closes : Nat → Nat
  callers : Nat → Caller K D H
  events : Nat → Event K D

/-- A router over a store, before any request or event. -/
def State.init (capacity : Int) (store : K → Option D) : State K D H :=
  ⟨.new capacity, store, fun _ => none, 0, fun _ => 0, fun _ => .idle, fun _ => .idle⟩

/-- The steps of a request. -/
inductive CallerStep (K : Type) where
  /-- The request starts and the resolver looks up its host. -/
  | resolve (key : K)
  /-- The fast path of `LazyHandler.ServeHTTP` reads the cache. -/
  | lookup
  /-- The first critical section of `materialize`. -/
  | enter
  /-- `materializeTarget` reads the store. -/
  | readStore
  /-- `materializeTarget` decodes and compiles the config. -/
  | compile
  | failLoad
  /-- The second critical section: publish, forget the flight, wake the followers. -/
  | publish
  /-- A follower finds its channel closed. -/
  | wake
  /-- The context of a follower is done. -/
  | cancel

/-- The steps of an event. -/
inductive EventStep (K D : Type) where
  /-- The event arrives for some hostnames. -/
  | receive (hosts : List K) (change : Change D)
  | writeStore (ok : Bool)
  | dropHandler

/-- A step of one party. -/
inductive Action (K D : Type) where
  | caller (i : Nat) (a : CallerStep K)
  | event (e : Nat) (a : EventStep K D)

namespace State

/-- The router after a `Get` on its cache. -/
def touched (s : State K D H) (key : K) : State K D H := { s with lru := (s.lru.get key).2 }

/-- Move a request to its next place. -/
def setCaller (s : State K D H) (i : Nat) (c : Caller K D H) : State K D H :=
  { s with callers := update s.callers i c }

/-- Move an event to its next place. -/
def setEvent (s : State K D H) (e : Nat) (p : Event K D) : State K D H :=
  { s with events := update s.events e p }

end State

/-- A step of a request at the place it is. -/
def callerStep (build : D → Option H) (s : State K D H) (i : Nat) :
    Caller K D H → CallerStep K → Option (State K D H)
  | .idle, .resolve key =>
      some (s.setCaller i
        (if (s.store key).isSome then .resolved key else .done key (.error .notFound)))
  | .resolved key, .lookup =>
      match (s.lru.get key).1 with
      | some h => some ((s.touched key).setCaller i (.done key (.ok h)))
      | none => some ((s.touched key).setCaller i (.missed key))
  | .missed key, .enter =>
      match (s.lru.get key).1, s.calls key with
      | some h, _ => some ((s.touched key).setCaller i (.done key (.ok h)))
      | none, some call => some ((s.touched key).setCaller i (.waiting key call))
      | none, none => some ({ s.touched key with
          calls := update s.calls key (some s.nextCall)
          nextCall := s.nextCall + 1 }.setCaller i (.claimed key s.nextCall))
  | .claimed key call, .readStore =>
      match s.store key with
      | none => some (s.setCaller i (.loaded key call none))
      | some data => some (s.setCaller i (.loading key call data))
  | .loading key call data, .compile =>
      some (s.setCaller i (.loaded key call ((build data).map fun h => (data, h))))
  | .claimed key call, .failLoad => some (s.setCaller i (.loaded key call none))
  | .loading key call _, .failLoad => some (s.setCaller i (.loaded key call none))
  | .loaded key call result, .publish =>
      let lru := match result with
        | some (_, h) => s.lru.put key h
        | none => s.lru
      some ({ s with
        lru := lru
        calls := update s.calls key none
        closes := update s.closes call (s.closes call + 1) }.setCaller i
          (.done key (match result with | some (_, h) => .ok h | none => .error .load)))
  | .waiting key call, .wake =>
      if s.closes call = 0 then none
      else match (s.lru.get key).1 with
        | some h => some ((s.touched key).setCaller i (.done key (.ok h)))
        | none => some ((s.touched key).setCaller i (.done key (.error .materializeFailed)))
  | .waiting key _, .cancel => some (s.setCaller i (.done key (.error .canceled)))
  | _, _ => none

/-- A step of an event at the place it is. A failed store write ends an update; a
deletion logs it and goes on. -/
def eventStep (s : State K D H) (e : Nat) : Event K D → EventStep K D → Option (State K D H)
  | .idle, .receive (host :: rest) change => some (s.setEvent e (.applying (host :: rest) change))
  | .applying (host :: rest) change, .writeStore true =>
      some ({ s with store := update s.store host change.row }.setEvent e
        (.wrote host rest change))
  | .applying _ (.update _), .writeStore false => some (s.setEvent e .idle)
  | .applying (host :: rest) .delete, .writeStore false =>
      some (s.setEvent e (.wrote host rest .delete))
  | .wrote host rest change, .dropHandler =>
      some ({ s with lru := (s.lru.delete host).2 }.setEvent e
        (if rest = [] then .idle else .applying rest change))
  | _, _ => none

/-- One step of the system. -/
def step (build : D → Option H) (s : State K D H) : Action K D → Option (State K D H)
  | .caller i a => callerStep build s i (s.callers i) a
  | .event e a => eventStep s e (s.events e) a

/-- The config an unpublished load works with. -/
def Caller.holds : Caller K D H → Option (K × D)
  | .loading key _ data => some (key, data)
  | .loaded key _ (some (data, _)) => some (key, data)
  | _ => none

/-- A load that returned a handler compiled it from the config it read. -/
def Caller.Compiled (build : D → Option H) : Caller K D H → Prop
  | .loaded _ _ (some (data, h)) => build data = some h
  | _ => True

/-- What a step of a request does to the store, the events and the cached values. -/
structure CallerEffect (build : D → Option H) (s t : State K D H) (i : Nat)
    (p c : Caller K D H) : Prop where
  store : t.store = s.store
  events : t.events = s.events
  callers : t.callers = update s.callers i c
  /-- A handler comes from the config the load holds. -/
  compiled : p.Compiled build → c.Compiled build
  /-- A config the load holds is the one it held or the one in the store. -/
  holds : ∀ key data, c.holds = some (key, data) →
    p.holds = some (key, data) ∨ s.store key = some data
  cached : ∀ key h, t.lru.find key = some h → s.lru.find key = some h ∨
    ∃ call data, p = .loaded key call (some (data, h))

variable {build : D → Option H} {s t : State K D H} {i e : Nat}

/-- A request that publishes nothing leaves the cached values alone. -/
private theorem callerEffect_of_find {p c : Caller K D H} (hstore : t.store = s.store)
    (hevents : t.events = s.events) (hcallers : t.callers = update s.callers i c)
    (hcompiled : c.Compiled build) (hholds : ∀ key data, c.holds = some (key, data) →
      p.holds = some (key, data) ∨ s.store key = some data)
    (hfind : ∀ k, t.lru.find k = s.lru.find k) : CallerEffect build s t i p c :=
  ⟨hstore, hevents, hcallers, fun _ => hcompiled, hholds,
    fun k _ h => .inl (by rwa [hfind k] at h)⟩

theorem callerStep_effect {p : Caller K D H} {a : CallerStep K}
    (hstep : callerStep build s i p a = some t) : ∃ c, CallerEffect build s t i p c := by
  unfold callerStep at hstep
  split at hstep
  case h_1 key =>
    cases hstep
    refine ⟨_, callerEffect_of_find rfl rfl rfl ?_ ?_ (fun _ => rfl)⟩
    · split <;> trivial
    · split <;> simp [Caller.holds]
  case h_2 key =>
    split at hstep <;> cases hstep <;>
      exact ⟨_, callerEffect_of_find rfl rfl rfl trivial (by simp [Caller.holds])
        (LRUCache.find_get s.lru key)⟩
  case h_3 key =>
    split at hstep <;> cases hstep <;>
      exact ⟨_, callerEffect_of_find rfl rfl rfl trivial (by simp [Caller.holds])
        (LRUCache.find_get s.lru key)⟩
  case h_4 key call =>
    split at hstep <;> cases hstep
    · exact ⟨_, callerEffect_of_find rfl rfl rfl trivial (by simp [Caller.holds]) (fun _ => rfl)⟩
    · next data hdata =>
      refine ⟨_, callerEffect_of_find rfl rfl rfl trivial ?_ (fun _ => rfl)⟩
      intro key' data' h
      obtain ⟨rfl, rfl⟩ : key = key' ∧ data = data' := by simpa [Caller.holds] using h
      exact .inr hdata
  case h_5 key call data =>
    cases hstep
    refine ⟨_, callerEffect_of_find rfl rfl rfl ?_ ?_ (fun _ => rfl)⟩
    · cases hbuild : build data <;> simp [Caller.Compiled, hbuild]
    · cases build data <;> simp [Caller.holds]
  case h_8 key call result =>
    cases hstep
    refine ⟨_, rfl, rfl, rfl, fun _ => trivial, by simp [Caller.holds], ?_⟩
    intro k h hfind
    cases result with
    | none => exact .inl hfind
    | some r =>
      by_cases hk : k = key
      · subst hk
        obtain rfl : r.2 = h := by simpa [State.setCaller] using hfind
        exact .inr ⟨call, r.1, rfl⟩
      · exact .inl (LRUCache.find_of_find_put hk hfind)
  case h_9 key call =>
    split at hstep
    · cases hstep
    · split at hstep <;> cases hstep <;>
        exact ⟨_, callerEffect_of_find rfl rfl rfl trivial (by simp [Caller.holds])
          (LRUCache.find_get s.lru key)⟩
  case h_11 => cases hstep
  all_goals
    cases hstep
    exact ⟨_, callerEffect_of_find rfl rfl rfl trivial (by simp [Caller.holds]) (fun _ => rfl)⟩

/-- The event has written the store and not yet dropped the handler of the host. -/
def Event.owes (host : K) : Event K D → Prop
  | .wrote host' _ _ => host' = host
  | _ => False

/-- Everything a step of an event can do: come and go, write the row of a host it
then owes, or pay by dropping the handler. -/
theorem eventStep_cases {p : Event K D} {a : EventStep K D} (hstep : eventStep s e p a = some t) :
    t.callers = s.callers ∧ ∃ p', t.events = update s.events e p' ∧
      ((t.store = s.store ∧ t.lru = s.lru ∧ ∀ k, ¬ p.owes k) ∨
        (∃ host, p'.owes host ∧ (∀ k, k ≠ host → t.store k = s.store k) ∧ t.lru = s.lru ∧
          ∀ k, ¬ p.owes k) ∨
        (∃ host rest change, a = .dropHandler ∧ p = .wrote host rest change ∧
          t.store = s.store ∧ t.lru = (s.lru.delete host).2)) := by
  unfold eventStep at hstep
  split at hstep
  case h_2 host rest change =>
    cases hstep
    refine ⟨rfl, _, rfl, .inr (.inl ⟨host, rfl, ?_, rfl, fun _ h => h⟩)⟩
    intro k hk
    exact update_of_ne hk _ _
  case h_5 host rest change =>
    cases hstep
    exact ⟨rfl, _, rfl, .inr (.inr ⟨host, rest, change, rfl, rfl, rfl, rfl⟩)⟩
  case h_6 => cases hstep
  all_goals
    cases hstep
    exact ⟨rfl, _, rfl, .inl ⟨rfl, rfl, fun _ h => h⟩⟩

/-- Everything compiled or being compiled for the host comes from its current row. -/
structure Settled (build : D → Option H) (s : State K D H) (key : K) : Prop where
  cached : ∀ h, s.lru.find key = some h → ∃ data, s.store key = some data ∧ build data = some h
  loads : ∀ i data, (s.callers i).holds = some (key, data) → s.store key = some data

/-- The invariant: a host is settled unless an event owes it a drop. -/
structure Fresh (build : D → Option H) (s : State K D H) : Prop where
  compiled : ∀ i, (s.callers i).Compiled build
  /-- Nothing stale goes unnoticed. -/
  settled : ∀ key, (∃ e, (s.events e).owes key) ∨ Settled build s key

/-- The schedules without a lost invalidation: when an event drops a handler, no
unpublished load of the host holds a config other than the current one. -/
def NoStaleLoad (s : State K D H) : Action K D → Prop
  | .event e .dropHandler => ∀ host rest change, s.events e = .wrote host rest change →
      ∀ i data, (s.callers i).holds = some (host, data) → s.store host = some data
  | _ => True

theorem fresh_init (build : D → Option H) (capacity : Int) (store : K → Option D) :
    Fresh build (State.init capacity store) :=
  ⟨fun _ => trivial, fun key => .inr ⟨by simp [State.init], by simp [State.init, Caller.holds]⟩⟩

theorem Fresh.caller (hs : Fresh build s) {a : CallerStep K}
    (hstep : callerStep build s i (s.callers i) a = some t) : Fresh build t := by
  obtain ⟨c, heffect⟩ := callerStep_effect hstep
  constructor
  · rw [heffect.callers]
    exact (Function.forall_update_iff s.callers fun _ c => c.Compiled build).mpr
      ⟨heffect.compiled (hs.compiled i), fun j _ => hs.compiled j⟩
  · intro key
    rcases hs.settled key with ⟨e, howes⟩ | hsettled
    · exact .inl ⟨e, by rwa [heffect.events]⟩
    · refine .inr ⟨?_, ?_⟩
      · intro h hfind
        rw [heffect.store]
        rcases heffect.cached key h hfind with hold | ⟨call, data, hp⟩
        · exact hsettled.cached h hold
        · -- The handler was just published by a load that still held the current row.
          have hbuild := hs.compiled i
          rw [hp] at hbuild
          exact ⟨data, hsettled.loads i data (by rw [hp]; rfl), hbuild⟩
      · intro j data hholds
        rw [heffect.callers] at hholds
        rw [heffect.store]
        by_cases hj : j = i
        · subst hj
          rw [update_self] at hholds
          rcases heffect.holds key data hholds with hold | hrow
          · exact hsettled.loads j data hold
          · exact hrow
        · rw [update_of_ne hj] at hholds
          exact hsettled.loads j data hholds

/-- An event that owes a host nothing and leaves its row alone, and its handler at most
dropped, keeps the host settled. -/
theorem Fresh.settled_event (hs : Fresh build s) {p' : Event K D}
    (hevents : t.events = update s.events e p') (hcallers : t.callers = s.callers)
    {key : K} (hfree : ¬ (s.events e).owes key) (hstore : t.store key = s.store key)
    (hfind : ∀ h, t.lru.find key = some h → s.lru.find key = some h) :
    (∃ j, (t.events j).owes key) ∨ Settled build t key := by
  rcases hs.settled key with ⟨j, hj⟩ | hsettled
  · have hne : j ≠ e := fun h => hfree (h ▸ hj)
    exact .inl ⟨j, by rw [hevents, update_of_ne hne]; exact hj⟩
  · right
    constructor
    · intro h hcached
      rw [hstore]
      exact hsettled.cached h (hfind h hcached)
    · rw [hcallers, hstore]
      exact hsettled.loads

theorem Fresh.event (hs : Fresh build s) {a : EventStep K D} (hguard : NoStaleLoad s (.event e a))
    (hstep : eventStep s e (s.events e) a = some t) : Fresh build t := by
  obtain ⟨hcallers, p', hevents, hcases⟩ := eventStep_cases hstep
  refine ⟨by rw [hcallers]; exact hs.compiled, ?_⟩
  intro key
  rcases hcases with ⟨hstore, hlru, hfree⟩ | ⟨host, howes, hstore, hlru, hfree⟩ |
    ⟨host, rest, change, rfl, hp, hstore, hlru⟩
  · exact hs.settled_event hevents hcallers (hfree key) (by rw [hstore]) (by simp [hlru])
  · by_cases hk : key = host
    · exact .inl ⟨e, by rw [hevents, update_self, hk]; exact howes⟩
    · exact hs.settled_event hevents hcallers (hfree key) (hstore key hk) (by simp [hlru])
  · by_cases hk : key = host
    · -- The handler is gone, and the guard speaks for the loads on their way.
      subst hk
      refine .inr ⟨by simp [hlru], ?_⟩
      intro i data hholds
      rw [hcallers] at hholds
      rw [hstore]
      exact hguard key rest change hp i data hholds
    · have hfree : ¬ (s.events e).owes key := by
        rw [hp]
        exact fun h => hk h.symm
      refine hs.settled_event hevents hcallers hfree (by rw [hstore]) ?_
      intro h hfind
      rwa [hlru, LRUCache.find_delete, if_neg hk] at hfind

theorem Fresh.step (s : State K D H) (a : Action K D) (t : State K D H) (hs : Fresh build s)
    (hguard : NoStaleLoad s a) (hstep : Router.step build s a = some t) : Fresh build t := by
  cases a with
  | caller i a => exact hs.caller hstep
  | event e a => exact hs.event hguard hstep

/-- The request owns a load that has not been published. -/
def Caller.loads : Caller K D H → Bool
  | .claimed .. | .loading .. | .loaded .. => true
  | _ => false

/-- No load and no event is in progress. -/
structure Quiescent (s : State K D H) : Prop where
  callers : ∀ i, (s.callers i).loads = false
  events : ∀ e, s.events e = .idle

/-- Every cached handler was compiled from the current row of its host. -/
def UpToDate (build : D → Option H) (s : State K D H) : Prop :=
  ∀ host h, s.lru.find host = some h → ∃ data, s.store host = some data ∧ build data = some h

/-- In every run in which no drop misses a stale load, an applied update is never
shadowed: whenever nothing is in progress, every cached handler was compiled from
the current row of its host. -/
theorem upToDate_of_noStaleLoad {build : D → Option H} {capacity : Int} {store : K → Option D}
    {s : State K D H}
    (hreach : Runs.Reaches (step build) NoStaleLoad (State.init capacity store) s)
    (hquiet : Quiescent s) : UpToDate build s := by
  have hfresh := hreach.invariant Fresh.step (fresh_init build capacity store)
  intro host h hfind
  rcases hfresh.settled host with ⟨e, howes⟩ | hsettled
  · rw [hquiet.events e] at howes
    exact howes.elim
  · exact hsettled.cached h hfind

/-- A store with one host and its first config. -/
def oneHost (host : Go.Str) : Option Go.Str :=
  if host = Go.str "a.example" then some (Go.str "v1") else none

/-- A request for the host up to the moment its load has read the store. -/
def openRequest (i : Nat) : List (Action Go.Str Go.Str) :=
  [.caller i (.resolve (Go.str "a.example")), .caller i .lookup, .caller i .enter,
    .caller i .readStore]

/-- The rest of a request that has read the store. -/
def closeRequest (i : Nat) : List (Action Go.Str Go.Str) := [.caller i .compile, .caller i .publish]

def updateHost : List (Action Go.Str Go.Str) :=
  [.event 0 (.receive [Go.str "a.example"] (.update (Go.str "v2"))), .event 0 (.writeStore true),
    .event 0 .dropHandler]

/-- The update lands between the read and the publication of a load. -/
def shadowedState : State Go.Str Go.Str Go.Str :=
  (Runs.exec (step some) (State.init 8 oneHost)
    (openRequest 0 ++ updateHost ++ closeRequest 0)).get (by decide)

/-- The update lands after the publication, and another request follows. -/
def refreshedState : State Go.Str Go.Str Go.Str :=
  (Runs.exec (step some) (State.init 8 oneHost)
    (openRequest 0 ++ closeRequest 0 ++ updateHost ++ openRequest 1 ++ closeRequest 1)).get
      (by decide)

/-- A load that overlaps an update leaves the handler of the old config in the cache
after both are done, while the store has the new config. -/
theorem shadowedState_not_upToDate :
    Runs.Reaches (step some) Runs.Unrestricted (State.init 8 oneHost) shadowedState ∧
    Quiescent shadowedState ∧
    shadowedState.store (Go.str "a.example") = some (Go.str "v2") ∧
    shadowedState.lru.find (Go.str "a.example") = some (Go.str "v1") ∧
    ¬ UpToDate some shadowedState := by
  refine ⟨Runs.reaches_exec _,
    ⟨?_, ?_⟩, rfl, rfl, ?_⟩
  · intro i
    match i with
    | 0 => rfl
    | i + 1 => rfl
  · intro e
    match e with
    | 0 => rfl
    | e + 1 => rfl
  · intro hfresh
    obtain ⟨data, hrow, hbuild⟩ := hfresh (Go.str "a.example") (Go.str "v1") rfl
    cases hbuild
    exact absurd hrow (by decide)

theorem refreshedState_admitted : Runs.Admitted (step some) NoStaleLoad (State.init 8 oneHost)
    (openRequest 0 ++ closeRequest 0 ++ updateHost ++ openRequest 1 ++ closeRequest 1) := by
  refine .cons trivial rfl (.cons trivial rfl (.cons trivial rfl (.cons trivial rfl
    (.cons trivial rfl (.cons trivial rfl (.cons trivial rfl (.cons trivial rfl (.cons ?_ rfl
    (.cons trivial rfl (.cons trivial rfl (.cons trivial rfl (.cons trivial rfl (.cons trivial rfl
    (.cons trivial rfl trivial))))))))))))))
  intro host rest change _ i data hholds
  match i with
  | 0 => exact absurd hholds.symm (Option.some_ne_none (host, data))
  | i + 1 => exact absurd hholds.symm (Option.some_ne_none (host, data))

/-- The run that updates between two requests ends with the new handler. -/
theorem refreshedState_upToDate : UpToDate some refreshedState ∧
    refreshedState.lru.find (Go.str "a.example") = some (Go.str "v2") := by
  refine ⟨upToDate_of_noStaleLoad (Runs.reaches_get
    refreshedState_admitted) ⟨?_, ?_⟩, rfl⟩
  · intro i
    match i with
    | 0 => rfl
    | 1 => rfl
    | i + 2 => rfl
  · intro e
    match e with
    | 0 => rfl
    | e + 1 => rfl

end Peretum.Router
