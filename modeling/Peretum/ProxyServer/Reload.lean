import Peretum.Edge.Replay
import Peretum.ProxyServer.Wiring

/-!
# Reloads and restarts without a control plane

Without NATS the targets come from the config directory. In eager mode every start and
every reload builds the routing table anew. In lazy mode the routing table is the
target store on disk, which is seeded from the directory when it is empty and never
again, and compiled targets stay in the LRU cache. This file embeds whole histories of
starts, reloads and requests, and shows when each request gets the current config.
-/

namespace Peretum.ProxyServer

open Go Config Cluster Router

variable {F : Type}

/-- What serves requests: a routing table, or the store with a cache of compiled
targets. -/
inductive Mode (F : Type) where
  | eager (wiring : Wiring F)
  | lazy (lru : LRUCache Str (Target F))

/-- A running process. -/
structure Process (F : Type) where
  /-- The targets of the directory it has read last. -/
  targets : List (Target F)
  mode : Mode F

/-- A target store on disk and the process, if one runs. -/
structure Installation (F : Type) where
  store : Map Str Str
  process : Option (Process F)

variable (codec : Codec (TargetFields F)) (unicode : Str → Str)

/-- The loop of `ensureLazyStore`: a target that cannot be encoded is skipped. -/
def seedTarget (store : Map Str Str) (t : Target F) : Map Str Str :=
  match codec.marshalYAML t with
  | none => store
  | some data => t.names.foldl (fun m hostname => m.insert hostname data) store

/-- `ensureLazyStore` without a NATS URI: a store that holds a target is used as it is. -/
def ensureLazyStore (targets : List (Target F)) (store : Map Str Str) : Map Str Str :=
  if store.entries = [] then targets.foldl (seedTarget codec) store else store

/-- `buildLazyHostRouter`: a lazy handler is known by its hostname. -/
def buildLazyHostRouter (store : Map Str Str) : HostRouter Str :=
  ⟨∅, none, some fun host => if (store.lookup host).isSome then some host else none⟩

/-- `materializeTarget`, for patterns that compile. -/
def materializeTarget (store : Map Str Str) (hostname : Str) : Option (Target F) :=
  ((store.lookup hostname).bind codec.unmarshalYAML).filter TargetConfig.parses

/-- `LazyHandler.ServeHTTP` up to the compiled target. -/
def lazyTarget (store : Map Str Str) (lru : LRUCache Str (Target F)) (hostname : Str) :
    Option (Target F) × LRUCache Str (Target F) :=
  match lru.get hostname with
  | (some t, lru) => (some t, lru)
  | (none, lru) =>
      match materializeTarget codec store hostname with
      | none => (none, lru)
      | some t => (some t, lru.put hostname t)

/-- What becomes of a request. -/
inductive Handling (F : Type) where
  | target (t : Target F)
  /-- A single location handles it, because its host is unknown. -/
  | location (t : Target F) (loc : LocationConfig F)
  /-- The target of its host cannot be compiled. -/
  | failed
  | notFound

/-- The target that serves the request. -/
def Handling.servedBy : Handling F → Option (Target F)
  | .target t => some t
  | .location t _ => some t
  | .failed => none
  | .notFound => none

/-- What handles the request belongs to a target with a property, if anything does. -/
def Handling.Among (P : Target F → Prop) : Handling F → Prop
  | .target t => P t
  | .location t loc => P t ∧ loc ∈ t.rest.locations
  | .failed => True
  | .notFound => True

variable {t : Target F}

theorem Handling.Among.servedBy {P : Target F → Prop} {h : Handling F} (hh : h.Among P)
    (hserved : h.servedBy = some t) : P t := by
  cases h with
  | target u =>
    cases hserved
    exact hh
  | location u loc =>
    cases hserved
    exact hh.1
  | failed | notFound => cases hserved

theorem Handling.Among.mono {P Q : Target F → Prop} (hPQ : ∀ t, P t → Q t) {h : Handling F}
    (hh : h.Among P) : h.Among Q := by
  cases h with
  | target t => exact hPQ t hh
  | location t loc => exact ⟨hPQ t hh.1, hh.2⟩
  | failed | notFound => trivial

/-- A request in eager mode. -/
def eagerHandling (w : Wiring F) (host : Str) : Handling F :=
  match w.router.route unicode host with
  | some (.target tch) => .target tch.target
  | some (.location h) => .location h.target h.location
  | none => .notFound

/-- A request in lazy mode. -/
def lazyHandling (store : Map Str Str) (lru : LRUCache Str (Target F)) (host : Str) :
    Handling F × LRUCache Str (Target F) :=
  match (buildLazyHostRouter store).route unicode host with
  | none => (.notFound, lru)
  | some hostname =>
      match lazyTarget codec store lru hostname with
      | (some t, lru) => (.target t, lru)
      | (none, lru) => (.failed, lru)

/-- What becomes of a request with this `Host` header, and the mode after it. -/
def Process.serve (store : Map Str Str) (p : Process F) (host : Str) : Handling F × Process F :=
  match p.mode with
  | .eager w => (eagerHandling unicode w host, p)
  | .lazy lru =>
      let r := lazyHandling codec unicode store lru host
      (r.1, { p with mode := .lazy r.2 })

/-- What happens to an installation. -/
inductive HistoryAction where
  | startEager (dir : Directory)
  /-- A process starts in lazy mode with this `lru_size`. -/
  | startLazy (lruSize : Int) (dir : Directory)
  /-- `reloadFrom`. -/
  | reload (dir : Directory)
  | request (host : Str)

/-- One step of an installation. A start ends the process before it. A directory that
does not load stops a start and makes a reload fail. -/
def historyStep (s : Installation F) : HistoryAction → Option (Installation F)
  | .startEager dir =>
      match loadTargets codec dir with
      | .error _ => none
      | .ok targets => some { s with process := some ⟨targets, .eager (wire 0 targets)⟩ }
  | .startLazy lruSize dir =>
      match loadTargets codec dir with
      | .error _ => none
      | .ok targets =>
          some ⟨ensureLazyStore codec targets s.store,
            some ⟨targets, .lazy (.new (if lruSize ≤ 0 then 1000 else lruSize))⟩⟩
  | .reload dir =>
      match s.process, loadTargets codec dir with
      | some p, .ok targets =>
          match p.mode with
          | .eager w => some { s with process := some ⟨targets, .eager (wire w.next targets)⟩ }
          -- The router keeps its resolver, and neither the store nor the cache changes.
          | .lazy lru => some { s with process := some ⟨targets, .lazy lru⟩ }
      | _, _ => none
  | .request host =>
      match s.process with
      | none => none
      | some p => some { s with process := some (p.serve codec unicode s.store host).2 }

/-- The hostname, without a trailing dot, is claimed by this target alone. -/
structure ClaimedOnlyBy (targets : List (Target F)) (n : Str) (t : Target F) : Prop where
  dns : DNSName n
  mem : t ∈ targets
  claims : n ∈ t.names
  only : ∀ u ∈ targets, n ∈ u.names → u = t

/-- Requests are handled by the current directory. -/
structure Process.Current (store : Map Str Str) (p : Process F) : Prop where
  /-- A request for a hostname of exactly one target is handled with its config. -/
  handled : ∀ n t, ClaimedOnlyBy p.targets n t → ∀ host, HostFor n host →
    (p.serve codec unicode store host).1 = .target t
  /-- A request for a hostname without a target is not served by a removed target. -/
  unclaimed : ∀ n, DNSName n → (∀ t ∈ p.targets, n ∉ t.names) →
    (∀ t ∈ p.targets, defaultHostname ∉ t.names) → ∀ host, HostFor n host →
    ∀ t, (p.serve codec unicode store host).1.servedBy = some t → t ∈ p.targets

/-- Requests to the process, if one runs, are handled by the current directory. -/
def Installation.Current (s : Installation F) : Prop :=
  ∀ p, s.process = some p → p.Current codec unicode s.store

/-- The targets of a directory fit the routing table of eager mode: a hostname of one
target is the whole of its `server_name`, in lower case, and the target parses. -/
def FitsEager (targets : List (Target F)) : Prop :=
  ∀ n t, ClaimedOnlyBy targets n t → t.serverName = n ∧ n.map lowerByte = n ∧ t.parses = true

/-- The targets of a directory fit the store: a hostname of one target is in lower case,
and the target parses. -/
def FitsLazy (targets : List (Target F)) : Prop :=
  ∀ n t, ClaimedOnlyBy targets n t → n.map lowerByte = n ∧ t.parses = true

/-- The store holds what seeding an empty one with these targets gives. -/
def Seeded (targets : List (Target F)) (store : Map Str Str) : Prop :=
  ∀ host, store.lookup host = Edge.wantedRow codec targets host

/-- The directory of a start or reload fits the mode, and in lazy mode the store is empty
at a start or holds the same directory already. -/
def Effective (s : Installation F) : HistoryAction → Prop
  | .startEager dir => ∀ targets, loadTargets codec dir = .ok targets → FitsEager targets
  | .startLazy _ dir => ∀ targets, loadTargets codec dir = .ok targets →
      FitsLazy targets ∧ (s.store.entries = [] ∨ Seeded codec targets s.store)
  | .reload dir => ∀ targets, loadTargets codec dir = .ok targets →
      ∀ p, s.process = some p →
        match p.mode with
        | .eager _ => FitsEager targets
        | .lazy _ => FitsLazy targets ∧ Seeded codec targets s.store
  | .request _ => True

theorem ClaimedOnlyBy.owner_eq {targets : List (Target F)} {n : Str}
    (hclaimed : ClaimedOnlyBy targets n t) : owner targets n = some t := by
  obtain ⟨u, hu⟩ := Option.isSome_iff_exists.mp
    (owner_isSome_iff.mpr ⟨t, hclaimed.mem, hclaimed.claims⟩)
  obtain ⟨hmem, hclaims⟩ := mem_of_owner hu
  rw [hu, hclaimed.only u hmem hclaims]

/-- A request in lower case for a DNS name looks up the name. -/
theorem ClaimedOnlyBy.normalizeHost_eq {targets : List (Target F)} {n host : Str}
    (hclaimed : ClaimedOnlyBy targets n t) (hlower : n.map lowerByte = n) (unicode : Str → Str)
    (hhost : HostFor n host) : normalizeHost unicode host = n := by
  rw [normalizeHost_of_dnsName unicode hclaimed.dns hhost, hlower]

section Eager

variable {targets : List (Target F)} {w : Wiring F} {unicode : Str → Str}

/-- A routing table hands the requests for a hostname to its target. -/
theorem Routed.handled (hw : Routed targets w) (hfits : FitsEager targets) {n host : Str}
    {t : Target F} (hclaimed : ClaimedOnlyBy targets n t) (hhost : HostFor n host) :
    eagerHandling unicode w host = .target t := by
  obtain ⟨hname, hlower, hparses⟩ := hfits n t hclaimed
  obtain ⟨h, hh⟩ := Option.isSome_iff_exists.mp (hw.built t hclaimed.mem hparses)
  obtain ⟨u, hu, lb, huname, -, rfl⟩ := hw.entry _ h hh
  -- The entry belongs to a target of the same name, which claims the hostname too.
  obtain rfl : u = t := by
    refine hclaimed.only u hu ?_
    have hclaims := hclaimed.claims
    rwa [TargetConfig.names, ← huname] at hclaims
  rw [hname] at hh
  unfold eagerHandling HostRouter.route HostRouter.lookup
  rw [hclaimed.normalizeHost_eq hlower unicode hhost]
  simp only [Wiring.router, hh]
  rfl

theorem Routed.entry_of_lookup (hw : Routed targets w) {name : Str} {h : HostHandler F}
    (hlookup : w.router.lookup name = some h) :
    ∃ t ∈ targets, ∃ lb, t.serverName = name ∧ t.parses = true ∧ h = .target (compiled lb t) := by
  refine hw.entry name h ?_
  simp only [HostRouter.lookup, Wiring.router, Option.bind_none] at hlookup
  split at hlookup
  · next h' hh' => exact hh'.trans hlookup
  · cases hlookup

theorem Routed.among (hw : Routed targets w) (unicode : Str → Str) (host : Str) :
    (eagerHandling unicode w host).Among (· ∈ targets) := by
  unfold eagerHandling
  split
  · next tch hroute =>
    rcases HostRouter.route_cases hroute with hh | hh | hh
    · obtain ⟨t, ht, lb, -, -, heq⟩ := hw.entry_of_lookup hh
      cases heq
      exact ht
    · obtain ⟨t, ht, lb, -, -, heq⟩ := hw.entry_of_lookup hh
      cases heq
      exact ht
    · obtain ⟨t, -, loc, -, lb, heq⟩ := hw.fallback _ hh
      cases heq
  · next th hroute =>
    rcases HostRouter.route_cases hroute with hh | hh | hh
    · obtain ⟨t, -, lb, -, -, heq⟩ := hw.entry_of_lookup hh
      cases heq
    · obtain ⟨t, -, lb, -, -, heq⟩ := hw.entry_of_lookup hh
      cases heq
    · obtain ⟨t, ht, loc, hloc, lb, heq⟩ := hw.fallback _ hh
      cases heq
      exact ⟨ht, hloc⟩
  · trivial

end Eager

section Lazy

variable {codec : Codec (TargetFields F)} {targets : List (Target F)} {store : Map Str Str}
  {lru : LRUCache Str (Target F)} {unicode : Str → Str}

/-- These targets can be written and read again. -/
def Writable (codec : Codec (TargetFields F)) (targets : List (Target F)) : Prop :=
  ∀ t ∈ targets, ∃ data, codec.marshalYAML t = some data ∧ codec.unmarshalYAML data = some t

/-- Compiled targets are those of the store. -/
def Fresh (codec : Codec (TargetFields F)) (store : Map Str Str) (lru : LRUCache Str (Target F)) :
    Prop :=
  ∀ host t, lru.find host = some t → materializeTarget codec store host = some t

theorem writable_of_loadTargets (hcodec : codec.Rereads) {dir : Directory}
    (hload : loadTargets codec dir = .ok targets) : Writable codec targets := by
  intro t ht
  obtain ⟨data, hdata⟩ := exists_data_of_mem_loadTargets hload ht
  exact hcodec data t hdata

theorem lookup_seed (hwritable : Writable codec targets) (store : Map Str Str) (host : Str) :
    (targets.foldl (seedTarget codec) store).lookup host =
      (Edge.wantedRow codec targets host).or (store.lookup host) := by
  induction targets generalizing store with
  | nil => simp [Edge.wantedRow, owner]
  | cons t targets ih =>
    obtain ⟨data, hdata, -⟩ := hwritable t List.mem_cons_self
    have hrest : Writable codec targets := fun u hu => hwritable u (List.mem_cons_of_mem t hu)
    rw [List.foldl_cons, ih hrest, seedTarget, hdata]
    simp only [Edge.wantedRow, owner_cons, Map.lookup_foldl_insert_const]
    cases howner : owner targets host with
    | some u =>
      obtain ⟨data', hdata', -⟩ := hrest u (mem_of_owner howner).1
      simp [hdata']
    | none =>
      by_cases hname : host ∈ t.names
      · simp [hname, hdata]
      · simp [hname]

/-- A store that is empty or holds the directory holds it after `ensureLazyStore`. -/
theorem seeded_ensureLazyStore (hwritable : Writable codec targets)
    (hstore : store.entries = [] ∨ Seeded codec targets store) :
    Seeded codec targets (ensureLazyStore codec targets store) := by
  intro host
  by_cases hempty : store.entries = []
  · have hnone : store.lookup host = none := by
      obtain rfl : store = ∅ := AList.ext hempty
      rfl
    rw [ensureLazyStore, if_pos hempty, lookup_seed hwritable, hnone, Option.or_none]
  · rw [ensureLazyStore, if_neg hempty]
    exact hstore.resolve_left hempty host

theorem lazyTarget_fst (hfresh : Fresh codec store lru) (hostname : Str) :
    (lazyTarget codec store lru hostname).1 = materializeTarget codec store hostname := by
  have hget := lru.get_fst hostname
  unfold lazyTarget
  split
  · next t lru' heq =>
    rw [heq] at hget
    exact (hfresh hostname t hget.symm).symm
  · split
    · next hnone => exact hnone.symm
    · next t ht => exact ht.symm

variable {hostname host : Str} {t : Target F}

theorem find_lazyTarget (hfind : (lazyTarget codec store lru hostname).2.find host = some t) :
    lru.find host = some t ∨ materializeTarget codec store host = some t := by
  have hget : ∀ k, (lru.get hostname).2.find k = lru.find k := fun k => lru.find_get hostname k
  unfold lazyTarget at hfind
  split at hfind
  · next heq =>
    rw [heq] at hget
    exact .inl (hget host ▸ hfind)
  · next heq =>
    rw [heq] at hget
    split at hfind
    · exact .inl (hget host ▸ hfind)
    · next t' ht' =>
      by_cases hhost : host = hostname
      · subst hhost
        rw [LRUCache.find_put_self] at hfind
        exact .inr (ht'.trans hfind)
      · have hold := LRUCache.find_of_find_put hhost hfind
        exact .inl (hget host ▸ hold)

/-- The cache only gains what was compiled from the store, whatever becomes of a request. -/
theorem find_lazyHandling {request : Str}
    (hfind : (lazyHandling codec unicode store lru request).2.find host = some t) :
    lru.find host = some t ∨ materializeTarget codec store host = some t := by
  unfold lazyHandling at hfind
  split at hfind
  · exact .inl hfind
  · next hostname _ =>
    have hcache : (lazyTarget codec store lru hostname).2.find host = some t := by
      split at hfind <;> simp_all
    exact find_lazyTarget hcache

/-- A target that is compiled for a request comes from the cache or from the store. -/
theorem source_of_lazyTarget (htarget : (lazyTarget codec store lru hostname).1 = some t) :
    lru.find hostname = some t ∨ materializeTarget codec store hostname = some t := by
  have hget := lru.get_fst hostname
  unfold lazyTarget at htarget
  split at htarget
  · next heq =>
    rw [heq] at hget
    exact .inl (hget.symm.trans htarget)
  · split at htarget
    · cases htarget
    · next ht => exact .inr (ht.trans htarget)

theorem among_lazyHandling (codec : Codec (TargetFields F)) (unicode : Str → Str)
    (store : Map Str Str) (lru : LRUCache Str (Target F)) (host : Str) :
    (lazyHandling codec unicode store lru host).1.Among fun t =>
      ∃ hostname, lru.find hostname = some t ∨ materializeTarget codec store hostname = some t := by
  unfold lazyHandling
  split
  · trivial
  · next hostname _ =>
    split
    · next t _ heq => exact ⟨hostname, source_of_lazyTarget (congrArg Prod.fst heq)⟩
    · trivial

/-- A request keeps the cache fresh, whatever becomes of it. -/
theorem Fresh.lazyHandling_snd (hfresh : Fresh codec store lru) (host : Str) :
    Fresh codec store (lazyHandling codec unicode store lru host).2 :=
  fun k t hfind => (find_lazyHandling hfind).elim (hfresh k t) id

theorem Seeded.materializeTarget_eq (hseeded : Seeded codec targets store)
    (hwritable : Writable codec targets) (howner : owner targets hostname = some t) :
    materializeTarget codec store hostname = if t.parses then some t else none := by
  obtain ⟨data, hdata, hread⟩ := hwritable t (mem_of_owner howner).1
  simp [materializeTarget, hseeded hostname, Edge.wantedRow, howner, hdata, hread, Option.filter]

theorem Seeded.exists_owner (hseeded : Seeded codec targets store)
    (hrow : (store.lookup hostname).isSome) : ∃ t, owner targets hostname = some t := by
  rw [hseeded hostname, Edge.wantedRow] at hrow
  cases howner : owner targets hostname with
  | none => simp [howner] at hrow
  | some t => exact ⟨t, rfl⟩

/-- A store that holds the directory has a row for the only target that claims a hostname. -/
theorem Seeded.route_eq (hseeded : Seeded codec targets store) (hwritable : Writable codec targets)
    {n : Str} (hclaimed : ClaimedOnlyBy targets n t) (hlower : n.map lowerByte = n)
    (hhost : HostFor n host) : (buildLazyHostRouter store).route unicode host = some n := by
  obtain ⟨data, hdata, -⟩ := hwritable t hclaimed.mem
  have hrow : store.lookup n = some data := by
    rw [hseeded n, Edge.wantedRow, hclaimed.owner_eq, Option.bind_some, hdata]
  simp [HostRouter.route, HostRouter.lookup, buildLazyHostRouter,
    hclaimed.normalizeHost_eq hlower unicode hhost, hrow]

/-- A store that holds the directory hands the requests for a hostname to its target. -/
theorem Seeded.handled (hseeded : Seeded codec targets store) (hwritable : Writable codec targets)
    (hfresh : Fresh codec store lru) (hfits : FitsLazy targets) {n : Str}
    (hclaimed : ClaimedOnlyBy targets n t) (hhost : HostFor n host) :
    (lazyHandling codec unicode store lru host).1 = .target t := by
  obtain ⟨hlower, hparses⟩ := hfits n t hclaimed
  have hroute : (buildLazyHostRouter store).route unicode host = some n :=
    hseeded.route_eq hwritable hclaimed hlower hhost
  have htarget : (lazyTarget codec store lru n).1 = some t := by
    rw [lazyTarget_fst hfresh, hseeded.materializeTarget_eq hwritable hclaimed.owner_eq,
      if_pos hparses]
  simp only [lazyHandling, hroute]
  split <;> simp_all

theorem Seeded.mem_of_materializeTarget (hseeded : Seeded codec targets store)
    (hwritable : Writable codec targets)
    (htarget : materializeTarget codec store hostname = some t) : t ∈ targets := by
  have hrow : (store.lookup hostname).isSome := by
    obtain ⟨hread, -⟩ := Option.filter_eq_some_iff.mp htarget
    obtain ⟨data, hdata, -⟩ := Option.bind_eq_some_iff.mp hread
    simp [hdata]
  obtain ⟨u, hu⟩ := hseeded.exists_owner hrow
  rw [hseeded.materializeTarget_eq hwritable hu] at htarget
  obtain ⟨-, heq⟩ := Option.ite_none_right_eq_some.mp htarget
  cases heq
  exact (mem_of_owner hu).1

theorem Seeded.among (hseeded : Seeded codec targets store) (hwritable : Writable codec targets)
    (hfresh : Fresh codec store lru) (host : Str) :
    (lazyHandling codec unicode store lru host).1.Among (· ∈ targets) := by
  refine (among_lazyHandling codec unicode store lru host).mono ?_
  rintro t ⟨hostname, hsource⟩
  exact hseeded.mem_of_materializeTarget hwritable (hsource.elim (hfresh hostname t) id)

end Lazy

/-- The process serves the directory it has read last. -/
def Process.Settled (codec : Codec (TargetFields F)) (store : Map Str Str) (p : Process F) : Prop :=
  match p.mode with
  | .eager w => Routed p.targets w ∧ FitsEager p.targets
  | .lazy lru => Writable codec p.targets ∧ Seeded codec p.targets store ∧
      FitsLazy p.targets ∧ Fresh codec store lru

section Histories

variable {codec : Codec (TargetFields F)} {unicode : Str → Str}
  {store : Map Str Str} {p : Process F} {P : Target F → Prop}

theorem Process.Settled.current (hp : p.Settled codec store) : p.Current codec unicode store := by
  obtain ⟨targets, mode⟩ := p
  cases mode with
  | eager w =>
    obtain ⟨hrouted, hfits⟩ := hp
    exact ⟨fun n t hclaimed host hhost => hrouted.handled hfits hclaimed hhost,
      fun n _ _ _ host _ t hserved => (hrouted.among unicode host).servedBy hserved⟩
  | lazy lru =>
    obtain ⟨hwritable, hseeded, hfits, hfresh⟩ := hp
    exact ⟨fun n t hclaimed host hhost => hseeded.handled hwritable hfresh hfits hclaimed hhost,
      fun n _ _ _ host _ t hserved => (hseeded.among hwritable hfresh host).servedBy hserved⟩

/-- In eager mode requests are handled by the current directory if and only if it fits the
routing table. -/
theorem eager_current_iff (n : Nat) (targets : List (Target F)) (store : Map Str Str) :
    (⟨targets, .eager (wire n targets)⟩ : Process F).Current codec unicode store ↔
      FitsEager targets := by
  have hrouted := routed_wire n targets
  constructor
  · intro hcurrent host t hclaimed
    -- The entry for the hostname itself already shows what its key must be.
    have hentry : ∀ {name tch}, (wire n targets).router.lookup name = some (.target tch) →
        tch.target = t → t.serverName = name ∧ t.parses = true := by
      intro name tch hlookup htarget
      obtain ⟨u, -, lb, hname, hparses, heq⟩ := hrouted.entry_of_lookup hlookup
      cases heq
      obtain rfl : u = t := htarget
      exact ⟨hname, hparses⟩
    have hhandled := hcurrent.handled host t hclaimed host (hostFor_self host)
    change eagerHandling unicode (wire n targets) host = .target t at hhandled
    obtain ⟨hname, hparses⟩ : t.serverName = host.map lowerByte ∧ t.parses = true := by
      unfold eagerHandling at hhandled
      split at hhandled
      · next tch hroute =>
        have htarget : tch.target = t := Handling.target.inj hhandled
        rcases HostRouter.route_cases hroute with hlookup | hlookup | hlookup
        · rw [normalizeHost_of_dnsName unicode hclaimed.dns (hostFor_self host)] at hlookup
          exact hentry hlookup htarget
        · obtain ⟨hname, hparses⟩ := hentry hlookup htarget
          have hclaims := hclaimed.claims
          rw [TargetConfig.names, hname] at hclaims
          obtain rfl : host = defaultHostname := List.mem_singleton.mp hclaims
          exact ⟨hname, hparses⟩
        · obtain ⟨u, -, loc, -, lb, heq⟩ := hrouted.fallback _ hlookup
          cases heq
      · cases hhandled
      · cases hhandled
    have hclaims := hclaimed.claims
    rw [TargetConfig.names, hname, parseServerNames_of_dnsName hclaimed.dns.lower] at hclaims
    have hlower := List.mem_singleton.mp hclaims
    exact ⟨hname.trans hlower.symm, hlower.symm, hparses⟩
  · intro hfits
    exact Process.Settled.current ⟨hrouted, hfits⟩

theorem Process.Settled.serve (hp : p.Settled codec store) (host : Str) :
    (p.serve codec unicode store host).2.Settled codec store := by
  obtain ⟨targets, mode⟩ := p
  cases mode with
  | eager w => exact hp
  | lazy lru =>
    obtain ⟨hwritable, hseeded, hfits, hfresh⟩ := hp
    exact ⟨hwritable, hseeded, hfits, hfresh.lazyHandling_snd host⟩

theorem historyStep_cases {s s' : Installation F} {a : HistoryAction}
    (hstep : historyStep codec unicode s a = some s') :
    (∃ dir targets, a = .startEager dir ∧ loadTargets codec dir = .ok targets ∧
      s' = ⟨s.store, some ⟨targets, .eager (wire 0 targets)⟩⟩) ∨
    (∃ lruSize dir targets, a = .startLazy lruSize dir ∧ loadTargets codec dir = .ok targets ∧
      s' = ⟨ensureLazyStore codec targets s.store,
        some ⟨targets, .lazy (.new (if lruSize ≤ 0 then 1000 else lruSize))⟩⟩) ∨
    (∃ dir targets p, a = .reload dir ∧ loadTargets codec dir = .ok targets ∧
      s.process = some p ∧
      ((∃ w, p.mode = .eager w ∧ s' = ⟨s.store, some ⟨targets, .eager (wire w.next targets)⟩⟩) ∨
        ∃ lru, p.mode = .lazy lru ∧ s' = ⟨s.store, some ⟨targets, .lazy lru⟩⟩)) ∨
    ∃ host p, a = .request host ∧ s.process = some p ∧
      s' = ⟨s.store, some (p.serve codec unicode s.store host).2⟩ := by
  cases a with
  | startEager dir =>
    simp only [historyStep] at hstep
    split at hstep
    · cases hstep
    · next targets hload =>
      cases hstep
      exact .inl ⟨dir, targets, rfl, hload, rfl⟩
  | startLazy lruSize dir =>
    simp only [historyStep] at hstep
    split at hstep
    · cases hstep
    · next targets hload =>
      cases hstep
      exact .inr (.inl ⟨lruSize, dir, targets, rfl, hload, rfl⟩)
  | reload dir =>
    simp only [historyStep] at hstep
    split at hstep
    · next p targets hp hload =>
      refine .inr (.inr (.inl ⟨dir, targets, p, rfl, hload, hp, ?_⟩))
      split at hstep
      · next w hmode =>
        cases hstep
        exact .inl ⟨w, hmode, rfl⟩
      · next lru hmode =>
        cases hstep
        exact .inr ⟨lru, hmode, rfl⟩
    · cases hstep
  | request host =>
    simp only [historyStep] at hstep
    split at hstep
    · cases hstep
    · next p hp =>
      cases hstep
      exact .inr (.inr (.inr ⟨host, p, rfl, hp, rfl⟩))

theorem settled_step (hcodec : codec.Rereads) (s : Installation F) (a : HistoryAction)
    (s' : Installation F) (hs : ∀ p, s.process = some p → p.Settled codec s.store)
    (hguard : Effective codec s a) (hstep : historyStep codec unicode s a = some s') :
    ∀ p, s'.process = some p → p.Settled codec s'.store := by
  rcases historyStep_cases hstep with ⟨dir, targets, rfl, hload, rfl⟩ |
    ⟨lruSize, dir, targets, rfl, hload, rfl⟩ | ⟨dir, targets, old, rfl, hload, hold, hreload⟩ |
    ⟨host, old, rfl, hold, rfl⟩
  · rintro p ⟨⟩
    exact ⟨routed_wire 0 targets, hguard targets hload⟩
  · rintro p ⟨⟩
    obtain ⟨hfits, hstore⟩ := hguard targets hload
    have hwritable := writable_of_loadTargets hcodec hload
    refine ⟨hwritable, seeded_ensureLazyStore hwritable hstore, hfits, ?_⟩
    intro host t hfind
    simp at hfind
  · have hfits := hguard targets hload old hold
    have hsettled := hs old hold
    unfold Process.Settled at hsettled
    rcases hreload with ⟨w, hmode, rfl⟩ | ⟨lru, hmode, rfl⟩
    · rintro p ⟨⟩
      rw [hmode] at hfits
      exact ⟨routed_wire w.next targets, hfits⟩
    · rintro p ⟨⟩
      rw [hmode] at hfits hsettled
      exact ⟨writable_of_loadTargets hcodec hload, hfits.2, hfits.1, hsettled.2.2.2⟩
  · rintro p ⟨⟩
    exact (hs old hold).serve host

/-- In every history in which each directory fits the mode and no start or reload in lazy
mode finds another directory in the store, requests are handled by the current
directory. -/
theorem current_of_effective (hcodec : codec.Rereads) (store : Map Str Str) {s : Installation F}
    (hreach : Runs.Reaches (historyStep codec unicode) (Effective codec) ⟨store, none⟩ s) :
    s.Current codec unicode := by
  intro p hp
  have hsettled : ∀ p, s.process = some p → p.Settled codec s.store :=
    hreach.invariant (settled_step hcodec) (by rintro p ⟨⟩)
  exact (hsettled p hp).current

end Histories

/-- A target for `a.com` that balances in this way. -/
def versioned (lbAlgorithm : String) : Target Unit :=
  ⟨str "a.com", [⟨str "http://10.0.0.1", 1, none⟩], str lbAlgorithm, []⟩

/-- Two versions of a target, written as their balancing. -/
def versionCodec : Codec (TargetFields Unit) where
  marshalJSON _ := none
  unmarshalJSON _ := none
  marshalYAML t := some t.rest.lbAlgorithm
  unmarshalYAML data :=
    if data = str "maglev" then some (versioned "maglev")
    else if data = str "round_robin" then some (versioned "round_robin")
    else none

/-- The directory with one version. -/
def versionDir (lbAlgorithm : String) : Directory :=
  some [⟨str "a.yaml", false, some (str lbAlgorithm)⟩]

/-- In lazy mode a reload of a changed directory has no effect, and neither has a
restart. -/
theorem changed_directory_not_current :
    ∃ s, Runs.exec (historyStep versionCodec id) ⟨∅, none⟩
        [.startLazy 8 (versionDir "maglev"), .reload (versionDir "round_robin")] = some s ∧
      (∃ p, s.process = some p ∧ ClaimedOnlyBy p.targets (str "a.com") (versioned "round_robin") ∧
        (p.serve versionCodec id s.store (str "a.com")).1 = .target (versioned "maglev")) ∧
      ¬ s.Current versionCodec id ∧
      ∃ s', historyStep versionCodec id s (.startLazy 8 (versionDir "round_robin")) = some s' ∧
        ¬ s'.Current versionCodec id := by
  have hclaimed : ClaimedOnlyBy [versioned "round_robin"] (str "a.com") (versioned "round_robin") :=
    ⟨⟨by decide, List.all_eq_true.mp (by decide), by decide⟩, List.mem_cons_self, by decide,
      fun u hu _ => List.mem_singleton.mp hu⟩
  refine ⟨_, rfl, ⟨_, rfl, hclaimed, rfl⟩, ?_, _, rfl, ?_⟩
  · intro hcurrent
    have hhandled := (hcurrent _ rfl).handled _ _ hclaimed _ (hostFor_self _)
    exact absurd (Handling.target.inj hhandled) (by decide)
  · intro hcurrent
    have hhandled := (hcurrent _ rfl).handled _ _ hclaimed _ (hostFor_self _)
    exact absurd (Handling.target.inj hhandled) (by decide)

theorem versionCodec_rereads : versionCodec.Rereads := by
  intro data t hread
  simp only [versionCodec] at hread
  split at hread
  · cases hread
    exact ⟨_, rfl, rfl⟩
  · split at hread
    · cases hread
      exact ⟨_, rfl, rfl⟩
    · cases hread

theorem versionDir_fits {lbAlgorithm : String} {targets : List (Target Unit)}
    (htargets : [versioned lbAlgorithm] = targets) : FitsEager targets := by
  subst htargets
  intro n t hclaimed
  obtain rfl := List.mem_singleton.mp hclaimed.mem
  obtain rfl : n = str "a.com" := List.mem_singleton.mp hclaimed.claims
  exact ⟨rfl, by decide, rfl⟩

/-- A changed directory takes effect in eager mode, and in lazy mode on an empty store. -/
theorem changed_directory_current :
    ∃ s, Runs.exec (historyStep versionCodec id) ⟨∅, none⟩
        [.startEager (versionDir "maglev"), .reload (versionDir "round_robin"),
          .startLazy 8 (versionDir "round_robin"), .request (str "A.com:80"),
          .reload (versionDir "round_robin")] = some s ∧
      s.Current versionCodec id := by
  have hadmitted : Runs.Admitted (historyStep versionCodec id) (Effective versionCodec) ⟨∅, none⟩
      [.startEager (versionDir "maglev"), .reload (versionDir "round_robin"),
        .startLazy 8 (versionDir "round_robin"), .request (str "A.com:80"),
        .reload (versionDir "round_robin")] := by
    have hlazy : ∀ {targets}, [versioned "round_robin"] = targets → FitsLazy targets :=
      fun htargets n t hclaimed => (versionDir_fits htargets n t hclaimed).2
    refine .cons ?_ rfl (.cons ?_ rfl (.cons ?_ rfl (.cons trivial rfl (.cons ?_ rfl trivial))))
    · intro targets hload
      exact versionDir_fits (Except.ok.inj hload)
    · rintro targets hload p ⟨⟩
      exact versionDir_fits (Except.ok.inj hload)
    · intro targets hload
      exact ⟨hlazy (Except.ok.inj hload), .inl rfl⟩
    · rintro targets hload p ⟨⟩
      refine ⟨hlazy (Except.ok.inj hload), ?_⟩
      obtain rfl : [versioned "round_robin"] = targets := Except.ok.inj hload
      have hwritable : Writable versionCodec [versioned "round_robin"] :=
        fun t ht => ⟨_, rfl, by rw [List.mem_singleton.mp ht]; rfl⟩
      exact seeded_ensureLazyStore hwritable (.inl rfl)
  exact ⟨_, rfl, current_of_effective versionCodec_rereads ∅ (Runs.reaches_of_exec rfl hadmitted)⟩

end Peretum.ProxyServer
