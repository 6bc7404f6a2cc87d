import Peretum.ProxyServer.Reload

/-!
# Eager and lazy routing

The same list of targets can be served in two ways. Eager mode keys its routing table by
the whole `server_name` of a target, lazy mode writes a row for every hostname in it.
Below both stand the fallbacks of the router. This file follows a request for a hostname
through either router and shows when the two hand it to the same target.
-/

namespace Peretum.ProxyServer

open Go Config Cluster Router

variable {F : Type}

/-- Both modes hand the request to a target, and it is the same one. -/
def SameTarget (eager lazy : Handling F) : Prop :=
  ∃ t, eager.servedBy = some t ∧ lazy.servedBy = some t

/-- The cache of compiled targets after some requests. -/
def cacheAfter (codec : Codec (TargetFields F)) (unicode : Str → Str) (store : Map Str Str)
    (lruSize : Int) (earlier : List Str) : LRUCache Str (Target F) :=
  earlier.foldl (fun lru host => (lazyHandling codec unicode store lru host).2) (.new lruSize)

/-- The first target that parses and has a location for every path. Its location is the
handler for other hosts in eager mode. -/
def fallbackTarget (targets : List (Target F)) : Option (Target F) :=
  targets.find? fun t => t.parses && t.rest.locations.any (·.path = str "/")

/-- The routing table of eager mode leads a request for a hostname of this target to it:
the hostname is the whole `server_name`, or no target is named `_default` and this one is
the first with a location for every path. -/
def ReachedEagerly (targets : List (Target F)) (n : Str) (t : Target F) : Prop :=
  t.parses = true ∧ (t.serverName = n ∨
    (∀ u ∈ targets, u.serverName = defaultHostname → u.parses = false) ∧
      fallbackTarget targets = some t)

/-- The target a handler belongs to. -/
def HostHandler.owner : HostHandler F → Target F
  | .target tch => tch.target
  | .location h => h.target

theorem isSome_defaultLoc (lb : Nat) (t : Target F) :
    (compiled lb t).defaultLoc.isSome = t.rest.locations.any (·.path = str "/") := by
  rw [Bool.eq_iff_iff]
  simp [compiled]

theorem owner_defaultHandler_wire (n : Nat) (targets : List (Target F)) :
    (wire n targets).defaultHandler.map HostHandler.owner = fallbackTarget targets := by
  induction targets using List.reverseRecOn with
  | nil => rfl
  | append_singleton targets t ih =>
    rw [wire_append_singleton, fallbackTarget, List.find?_append, ← fallbackTarget, ← ih]
    cases ht : t.parses with
    | false =>
      rw [wireTarget_of_not_parses _ ht]
      simp [ht]
    | true =>
      rw [wireTarget_of_parses _ ht]
      have hloc := isSome_defaultLoc (wire n targets).next t
      cases hold : (wire n targets).defaultHandler with
      | some h => simp
      | none =>
        cases hnew : (compiled (wire n targets).next t).defaultLoc with
        | none =>
          rw [hnew, Option.isSome_none] at hloc
          simp [ht, ← hloc]
        | some h =>
          rw [hnew, Option.isSome_some] at hloc
          have howner : h.target = t := by
            have hmem := List.mem_of_find?_eq_some hnew
            obtain ⟨loc, -, hh⟩ := List.mem_map.mp hmem
            rw [← hh]
          simp [ht, ← hloc, HostHandler.owner, howner]

section Eager

variable {targets : List (Target F)} {n host : Str} {t : Target F}

/-- The target that serves a request in eager mode owns the handler that is found. -/
theorem servedBy_eagerHandling (unicode : Str → Str) (w : Wiring F) (host : Str) :
    (eagerHandling unicode w host).servedBy =
      (w.router.route unicode host).map HostHandler.owner := by
  unfold eagerHandling
  cases w.router.route unicode host with
  | none => rfl
  | some h => cases h <;> rfl

/-- The table has an entry for a name exactly if a target that parses has this name. -/
theorem lookup_wire_eq_none_iff (k : Nat) (name : Str) :
    (wire k targets).router.lookup name = none ↔
      ∀ u ∈ targets, u.serverName = name → u.parses = false := by
  have hrouted := routed_wire k targets
  constructor
  · intro hnone u hu hname
    by_contra hparses
    have hsome := hrouted.built u hu (by simpa using hparses)
    rw [hname] at hsome
    simp only [HostRouter.lookup, Wiring.router] at hnone
    split at hnone
    · cases hnone
    · next hempty => simp [hempty] at hsome
  · intro hall
    by_contra hne
    obtain ⟨h, hh⟩ := Option.ne_none_iff_exists'.mp hne
    obtain ⟨u, hu, -, hname, hparses, -⟩ := hrouted.entry_of_lookup hh
    rw [hall u hu hname] at hparses
    cases hparses

theorem owner_of_lookup_wire {k : Nat} {name : Str} {h : HostHandler F}
    (hlookup : (wire k targets).router.lookup name = some h) :
    h.owner ∈ targets ∧ h.owner.serverName = name ∧ h.owner.parses = true := by
  obtain ⟨u, hu, lb, hname, hparses, heq⟩ := (routed_wire k targets).entry_of_lookup hlookup
  rw [heq]
  exact ⟨hu, hname, hparses⟩

/-- In eager mode a request for a hostname of one target is served by it exactly if the
routing table leads there. -/
theorem eager_servedBy_iff (unicode : Str → Str) (k : Nat) (hclaimed : ClaimedOnlyBy targets n t)
    (hlower : n.map lowerByte = n) (hhost : HostFor n host) :
    (eagerHandling unicode (wire k targets) host).servedBy = some t ↔
      ReachedEagerly targets n t := by
  rw [servedBy_eagerHandling, HostRouter.route, hclaimed.normalizeHost_eq hlower unicode hhost]
  -- A target whose whole name is the hostname claims it.
  have hwhole : ∀ u ∈ targets, u.serverName = n → u = t := by
    intro u hu hname
    apply hclaimed.only u hu
    rw [TargetConfig.names, hname, parseServerNames_of_dnsName hclaimed.dns]
    exact List.mem_singleton_self n
  have hother : (wire k targets).router.lookup n = none →
      t.parses = true → t.serverName ≠ n := by
    intro hnone hparses hname
    rw [(lookup_wire_eq_none_iff k n).mp hnone t hclaimed.mem hname] at hparses
    cases hparses
  cases hentry : (wire k targets).router.lookup n with
  | some h =>
    obtain ⟨hmem, hname, hparses⟩ := owner_of_lookup_wire hentry
    have howner := hwhole h.owner hmem hname
    rw [howner] at hname hparses
    exact iff_of_true (by simp [howner]) ⟨hparses, .inl hname⟩
  | none =>
    cases hdefault : (wire k targets).router.lookup defaultHostname with
    | some h =>
      obtain ⟨hmem, hname, hparses⟩ := owner_of_lookup_wire hdefault
      refine iff_of_false ?_ ?_
      · intro hserved
        have howner : h.owner = t := by simpa using hserved
        rw [howner] at hname hparses
        -- A target named `_default` has no other hostname.
        have hclaims := hclaimed.claims
        rw [TargetConfig.names, hname] at hclaims
        have hn : n = defaultHostname := List.mem_singleton.mp hclaims
        exact hother hentry hparses (hname.trans hn.symm)
      · rintro ⟨htparses, hname' | ⟨hnone, -⟩⟩
        · exact hother hentry htparses hname'
        · rw [hnone h.owner hmem hname] at hparses
          cases hparses
    | none =>
      have hnone := (lookup_wire_eq_none_iff k defaultHostname).mp hdefault
      have hfallback : ((wire k targets).router.defaultHandler).map HostHandler.owner =
          fallbackTarget targets := owner_defaultHandler_wire k targets
      simp only [hfallback]
      constructor
      · intro hserved
        have hparses := List.find?_some hserved
        rw [Bool.and_eq_true] at hparses
        exact ⟨hparses.1, .inr ⟨hnone, hserved⟩⟩
      · rintro ⟨htparses, hname | ⟨-, hserved⟩⟩
        · exact absurd hname (hother hentry htparses)
        · exact hserved

end Eager

section Lazy

variable {codec : Codec (TargetFields F)} {targets : List (Target F)} {unicode : Str → Str}
  {n host : Str} {t : Target F}

theorem fresh_cacheAfter (store : Map Str Str) (lruSize : Int) (earlier : List Str) :
    Fresh codec store (cacheAfter codec unicode store lruSize earlier) := by
  induction earlier using List.reverseRecOn with
  | nil =>
    intro k u hfind
    simp [cacheAfter] at hfind
  | append_singleton earlier request ih =>
    rw [cacheAfter, List.foldl_append]
    exact ih.lazyHandling_snd request

/-- In lazy mode a request for a hostname of one target is served by it exactly if it
parses. -/
theorem lazy_servedBy_eq (hwritable : Writable codec targets) {store : Map Str Str}
    (hseeded : Seeded codec targets store) {lru : LRUCache Str (Target F)}
    (hfresh : Fresh codec store lru) (hclaimed : ClaimedOnlyBy targets n t)
    (hlower : n.map lowerByte = n) (hhost : HostFor n host) :
    (lazyHandling codec unicode store lru host).1.servedBy =
      if t.parses then some t else none := by
  have hroute : (buildLazyHostRouter store).route unicode host = some n :=
    hseeded.route_eq hwritable hclaimed hlower hhost
  have htarget : (lazyTarget codec store lru n).1 = if t.parses then some t else none := by
    rw [lazyTarget_fst hfresh, hseeded.materializeTarget_eq hwritable hclaimed.owner_eq]
  simp only [lazyHandling, hroute]
  rw [← htarget]
  split
  · next heq => simp [heq, Handling.servedBy]
  · next heq => simp [heq, Handling.servedBy]

end Lazy

/-- Both modes hand a request for a lower-case hostname of one target to the same target
if and only if the routing table of eager mode leads to the one that claims it. -/
theorem sameTarget_iff {codec : Codec (TargetFields F)} {targets : List (Target F)}
    (hwritable : Writable codec targets) (unicode : Str → Str) {n host : Str} {t : Target F}
    (hclaimed : ClaimedOnlyBy targets n t) (hlower : n.map lowerByte = n) (hhost : HostFor n host)
    (k : Nat) (lruSize : Int) (earlier : List Str) :
    SameTarget (eagerHandling unicode (wire k targets) host)
        (lazyHandling codec unicode (ensureLazyStore codec targets ∅)
          (cacheAfter codec unicode (ensureLazyStore codec targets ∅) lruSize earlier) host).1 ↔
      ReachedEagerly targets n t := by
  have hseeded : Seeded codec targets (ensureLazyStore codec targets ∅) :=
    seeded_ensureLazyStore hwritable (.inl AList.empty_entries)
  have hfresh : Fresh codec (ensureLazyStore codec targets ∅)
      (cacheAfter codec unicode (ensureLazyStore codec targets ∅) lruSize earlier) :=
    fresh_cacheAfter _ lruSize earlier
  rw [SameTarget, lazy_servedBy_eq hwritable hseeded hfresh hclaimed hlower hhost,
    ← eager_servedBy_iff unicode k hclaimed hlower hhost]
  constructor
  · rintro ⟨u, heager, hu⟩
    obtain ⟨-, heq⟩ := Option.ite_none_right_eq_some.mp hu
    rw [heager, ← heq]
  · intro heager
    refine ⟨t, heager, ?_⟩
    rw [if_pos ((eager_servedBy_iff unicode k hclaimed hlower hhost).mp heager).1]

def listedTarget : Target Unit := ⟨str "a.com, b.com", [⟨str "http://10.0.0.1", 1, none⟩], [], []⟩

/-- Another target, with a location for every path. -/
def catchAllTarget : Target Unit :=
  ⟨str "c.com", [⟨str "http://10.0.0.2", 1, none⟩], [],
    [⟨str "/", str "prefix", [], none, none, none, none⟩]⟩

/-- The two targets, written as their names. -/
def nameCodec : Codec (TargetFields Unit) where
  marshalJSON _ := none
  unmarshalJSON _ := none
  marshalYAML t := some t.serverName
  unmarshalYAML data :=
    if data = str "a.com, b.com" then some listedTarget
    else if data = str "c.com" then some catchAllTarget
    else none

theorem writable_nameCodec : Writable nameCodec [listedTarget, catchAllTarget] := by
  intro t ht
  simp only [List.mem_cons, List.not_mem_nil, or_false] at ht
  rcases ht with rfl | rfl
  · exact ⟨str "a.com, b.com", by decide, by decide⟩
  · exact ⟨str "c.com", by decide, by decide⟩

/-- Each hostname of the two targets is a DNS name in lower case, and belongs to one. -/
theorem claimed_of_mem_names {t : Target Unit} (ht : t ∈ [listedTarget, catchAllTarget]) {n : Str}
    (hn : n ∈ t.names) :
    ClaimedOnlyBy [listedTarget, catchAllTarget] n t ∧ n.map lowerByte = n := by
  have hlisted : listedTarget.names = [str "a.com", str "b.com"] := by decide
  have hcatchAll : catchAllTarget.names = [str "c.com"] := by decide
  have hdns : DNSName n ∧ n.map lowerByte = n := by
    have hmem : n ∈ [str "a.com", str "b.com", str "c.com"] := by
      simp only [List.mem_cons, List.not_mem_nil, or_false] at ht
      rcases ht with rfl | rfl
      · rw [hlisted] at hn
        exact List.mem_append_left [str "c.com"] hn
      · rw [hcatchAll] at hn
        exact List.mem_append_right [str "a.com", str "b.com"] hn
    simp only [List.mem_cons, List.not_mem_nil, or_false] at hmem
    rcases hmem with rfl | rfl | rfl
    · exact ⟨⟨by decide, List.all_eq_true.mp (by decide), by decide⟩, by decide⟩
    · exact ⟨⟨by decide, List.all_eq_true.mp (by decide), by decide⟩, by decide⟩
    · exact ⟨⟨by decide, List.all_eq_true.mp (by decide), by decide⟩, by decide⟩
  refine ⟨⟨hdns.1, ht, hn, ?_⟩, hdns.2⟩
  have hapart : ∀ m ∈ [str "a.com", str "b.com"], m ∉ [str "c.com"] := by decide
  intro u hu hclaims
  simp only [List.mem_cons, List.not_mem_nil, or_false] at ht hu
  rcases ht with rfl | rfl <;> rcases hu with rfl | rfl
  · rfl
  · exact absurd (hcatchAll ▸ hclaims) (hapart n (hlisted ▸ hn))
  · exact absurd (hcatchAll ▸ hn) (hapart n (hlisted ▸ hclaims))
  · rfl

/-- A request for a hostname of the first target goes to the second one in eager mode. -/
theorem listedTarget_not_sameTarget :
    Writable nameCodec [listedTarget, catchAllTarget] ∧
    ClaimedOnlyBy [listedTarget, catchAllTarget] (str "a.com") listedTarget ∧
    (eagerHandling id (wire 0 [listedTarget, catchAllTarget]) (str "a.com")).servedBy =
      some catchAllTarget ∧
    (lazyHandling nameCodec id (ensureLazyStore nameCodec [listedTarget, catchAllTarget] ∅)
      (.new 8) (str "a.com")).1.servedBy = some listedTarget ∧
    ¬ SameTarget (eagerHandling id (wire 0 [listedTarget, catchAllTarget]) (str "a.com"))
      (lazyHandling nameCodec id (ensureLazyStore nameCodec [listedTarget, catchAllTarget] ∅)
        (.new 8) (str "a.com")).1 := by
  have heager : (eagerHandling id (wire 0 [listedTarget, catchAllTarget]) (str "a.com")).servedBy =
      some catchAllTarget := by decide
  have hlazy : (lazyHandling nameCodec id
      (ensureLazyStore nameCodec [listedTarget, catchAllTarget] ∅) (.new 8)
        (str "a.com")).1.servedBy =
      some listedTarget := by decide
  refine ⟨writable_nameCodec, (claimed_of_mem_names List.mem_cons_self (by decide)).1,
    heager, hlazy,
    ?_⟩
  rintro ⟨t, ht, ht'⟩
  have hsame : some catchAllTarget = some listedTarget := by
    rw [← heager, ← hlazy, ht, ht']
  exact absurd hsame (by decide)

/-- A request for the only hostname of the second target goes to it in both modes. -/
theorem catchAllTarget_sameTarget :
    SameTarget (eagerHandling id (wire 0 [listedTarget, catchAllTarget]) (str "C.com:80"))
      (lazyHandling nameCodec id (ensureLazyStore nameCodec [listedTarget, catchAllTarget] ∅)
        (cacheAfter nameCodec id (ensureLazyStore nameCodec [listedTarget, catchAllTarget] ∅) 8
          [str "a.com"]) (str "C.com:80")).1 := by
  obtain ⟨hclaimed, hlower⟩ :=
    claimed_of_mem_names (List.mem_cons_of_mem listedTarget List.mem_cons_self)
      (show str "c.com" ∈ catchAllTarget.names by decide)
  have hdigits : (str "80").all (fun b => 0x30 ≤ b && b ≤ 0x39) = true := by decide
  have hhost : HostFor (str "c.com") (str "C.com:80") := by
    refine ⟨str "C.com", [], str ":80", by decide, .inl rfl, .inr ⟨str "80", by decide, ?_⟩,
      by decide⟩
    intro b hb
    simpa using List.all_eq_true.mp hdigits b hb
  exact (sameTarget_iff writable_nameCodec id hclaimed hlower hhost 0 8 [str "a.com"]).mpr
    ⟨by decide, .inl (by decide)⟩

end Peretum.ProxyServer
