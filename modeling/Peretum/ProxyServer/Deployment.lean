import Peretum.Edge.Convergence
import Peretum.ProxyServer.Reload

/-!
# From the directory to the request

A lazy edge with a control plane serves what it finds in its target store, and keeps the
targets it has compiled in the LRU cache. The messages of the stream change the store and
drop the compiled targets they replace, while requests look targets up, compile them and
put them into the cache. This file puts the control plane, the stream, the consumer and
the requests of an edge together: once everything published is applied, every request is
served by the directory.
-/

namespace Peretum.ProxyServer

open Go Config Cluster Router Edge Waf

variable {F : Type}

/-- A control plane and an edge that serves requests. -/
structure Deployment (F : Type) where
  live : Live (TargetFields F) (Target F)
  /-- The targets that are compiled and not yet in the cache. -/
  loads : List (Str × Target F)

/-- The steps of a deployment. -/
inductive DeploymentAction where
  | live (a : LiveAction)
  /-- A request looks its hostname up in the cache. -/
  | lookup (hostname : Str)
  /-- A request reads the row of its hostname and compiles it. -/
  | load (hostname : Str)
  /-- A compiled target is put into the cache. -/
  | put (i : Nat)

/-- `materializeTarget` on an edge. -/
def materialize (codec : Codec (TargetFields F)) (edge : Edge.ProxyServer (Target F))
    (hostname : Str) : Option (Target F) :=
  edge.targetStore.bind fun store => materializeTarget codec store hostname

/-- The deployment with another cache on the edge. -/
def Deployment.cache (s : Deployment F) (lru : LRUCache Str (Target F)) : Deployment F :=
  { s with live := { s.live with edge := { s.live.edge with lazyLRU := lru } } }

/-- One step of the deployment. -/
def deploymentStep (codec : Codec (TargetFields F)) (s : Deployment F) :
    DeploymentAction → Option (Deployment F)
  | .live a => (liveStep codec s.live a).map fun live => { s with live := live }
  | .lookup hostname => some (s.cache (s.live.edge.lazyLRU.get hostname).2)
  | .load hostname =>
      some { s with
        loads := s.loads ++ ((materialize codec s.live.edge hostname).map (hostname, ·)).toList }
  | .put i => (s.loads[i]?).map fun load =>
      { s.cache (s.live.edge.lazyLRU.put load.1 load.2) with loads := s.loads.eraseIdx i }

/-- A compiled target is put into the cache only if its row has not changed since. -/
def NothingStale (codec : Codec (TargetFields F)) (s : Deployment F) : DeploymentAction → Prop
  | .live a => NotOvertaken codec s.live a
  | .put i => ∀ load, s.loads[i]? = some load →
      materialize codec s.live.edge load.1 = some load.2
  | _ => True

/-- The compiled targets of an edge are those of its store. -/
def FreshEdge (codec : Codec (TargetFields F)) (edge : Edge.ProxyServer (Target F)) : Prop :=
  ∀ store, edge.targetStore = some store → Fresh codec store edge.lazyLRU

variable {codec : Codec (TargetFields F)} {s : Deployment F} {edge : Edge.ProxyServer (Target F)}
  {store : Map Str Str} {lru : LRUCache Str (Target F)}

/-- A row may change when the compiled target of its hostname is dropped. -/
theorem Fresh.delete (hfresh : Fresh codec store lru) {name : Str} {store' : Map Str Str}
    (hsame : ∀ host, host ≠ name → store'.lookup host = store.lookup host) :
    Fresh codec store' (lru.delete name).2 := by
  intro host t hfind
  rw [LRUCache.find_delete] at hfind
  split at hfind
  · cases hfind
  · next hne =>
    rw [materializeTarget, hsame host hne]
    exact hfresh host t hfind

theorem freshEdge_putAll {serverName data : Str} {fails : Nat → Bool} {hosts : List Str}
    (hfresh : Fresh codec store lru) :
    FreshEdge codec (putAll serverName data fails hosts store lru).2 := by
  induction hosts generalizing fails store lru with
  | nil =>
    rintro _ ⟨⟩
    exact hfresh
  | cons host hosts ih =>
    rw [putAll]
    split
    · rintro _ ⟨⟩
      exact hfresh
    · exact ih (hfresh.delete fun other hne => AList.lookup_insert_ne hne)

theorem FreshEdge.applyTargetEvent (hfresh : FreshEdge codec edge) (fails : Nat → Bool)
    (e : TargetEvent) : FreshEdge codec (applyTargetEvent codec fails edge e).2 := by
  obtain ⟨targetStore, lru⟩ := edge
  cases targetStore with
  | none =>
    -- Without a store nothing is changed.
    have hsame : (Edge.applyTargetEvent codec fails ⟨none, lru⟩ e).2 = ⟨none, lru⟩ := by
      unfold Edge.applyTargetEvent
      split
      · rfl
      · split <;> rfl
    rw [hsame]
    exact hfresh
  | some store =>
    have hstore : Fresh codec store lru := hfresh store rfl
    unfold Edge.applyTargetEvent
    split
    · rintro _ ⟨⟩
      refine hstore.delete fun host hne => ?_
      split
      · rfl
      · exact AList.lookup_erase_ne hne
    · split
      · exact hfresh
      · next target _ =>
        unfold applyTargetUpdate
        dsimp only
        generalize (if target.names = [] then parseServerNames e.serverName else target.names) =
          names
        split
        · exact hfresh
        · split
          · exact hfresh
          · exact freshEdge_putAll hstore

theorem FreshEdge.put (hfresh : FreshEdge codec edge) {hostname : Str} {t : Target F}
    (hload : materialize codec edge hostname = some t) :
    FreshEdge codec { edge with lazyLRU := edge.lazyLRU.put hostname t } := by
  intro store hstore host u hfind
  by_cases hhost : host = hostname
  · subst hhost
    rw [LRUCache.find_put_self] at hfind
    rw [materialize, show edge.targetStore = some store from hstore] at hload
    exact hload.trans hfind
  · exact hfresh store hstore host u (LRUCache.find_of_find_put hhost hfind)

/-- A step of control plane and consumer changes the edge only by applying an event. -/
theorem edge_liveStep {s t : Live (TargetFields F) (Target F)} {a : LiveAction}
    (hstep : liveStep codec s a = some t) :
    t.edge = s.edge ∨ ∃ fails e, t.edge = (applyTargetEvent codec fails s.edge e).2 := by
  cases a with
  | beginSync order dir =>
    simp only [liveStep] at hstep
    split at hstep
    · split at hstep
      · exact .inl (Option.some.inj hstep ▸ rfl)
      · cases hstep
    · cases hstep
  | publish | endSync =>
    simp only [liveStep] at hstep
    split at hstep
    · exact .inl (Option.some.inj hstep ▸ rfl)
    · cases hstep
  | deliver host fails ackSent | redeliver host fails ackSent =>
    simp only [liveStep] at hstep
    split at hstep
    · next m _ =>
      obtain ⟨-, hstep⟩ := Option.ite_none_right_eq_some.mp hstep
      exact .inr ⟨fails, m.event, Option.some.inj hstep ▸ rfl⟩
    · cases hstep

/-- What holds in every state of a deployment. -/
structure Deployed (codec : Codec (TargetFields F)) (s : Deployment F) : Prop where
  stream : StreamInv codec s.live
  edge : EdgeInv codec s.live
  fresh : FreshEdge codec s.live.edge

theorem Deployed.step (hcodec : codec.Lossless) (s : Deployment F) (a : DeploymentAction)
    (t : Deployment F) (hs : Deployed codec s) (hguard : NothingStale codec s a)
    (hstep : deploymentStep codec s a = some t) : Deployed codec t := by
  cases a with
  | live a =>
    obtain ⟨live, hlive, rfl⟩ := Option.map_eq_some_iff.mp hstep
    obtain ⟨hstream, hedge⟩ := liveInv_step hcodec _ a live ⟨hs.stream, hs.edge⟩ hguard hlive
    refine ⟨hstream, hedge, ?_⟩
    rcases edge_liveStep hlive with hsame | ⟨fails, e, happly⟩
    · exact hsame ▸ hs.fresh
    · exact happly ▸ hs.fresh.applyTargetEvent fails e
  | lookup hostname =>
    cases hstep
    refine ⟨{ hs.stream with }, { hs.edge with }, fun store hstore host t hfind => ?_⟩
    exact hs.fresh store hstore host t ((LRUCache.find_get ..).symm.trans hfind)
  | load hostname =>
    cases hstep
    exact ⟨hs.stream, hs.edge, hs.fresh⟩
  | put i =>
    obtain ⟨load, hload, rfl⟩ := Option.map_eq_some_iff.mp hstep
    exact ⟨{ hs.stream with }, { hs.edge with }, hs.fresh.put (hguard load hload)⟩

/-- The control plane has published its last sync and the edge has applied every retained
message. -/
structure Deployment.Settled (s : Deployment F) : Prop where
  left : s.live.left = none
  applied : ∀ host m, s.live.retained.lookup host = some m → s.live.applied m.seq = true

end Peretum.ProxyServer
