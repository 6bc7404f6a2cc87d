import Peretum.Config
import Peretum.Cluster.Lru
import Peretum.Cluster.Stream

/-!
# Applying target events on an edge

An edge writes the config of an event to its target store under every hostname
the config claims, and drops the handlers compiled for them. This file embeds
`applyTargetEvent` with its error paths. The store operations of one call are
numbered, and an argument says which of them fail.
-/

namespace Peretum.Edge

open Go Config Cluster

variable {R H : Type}

/-- The parts of the proxy server an event touches. -/
structure ProxyServer (H : Type) where
  targetStore : Option (Map Str Str)
  lazyLRU : LRUCache Str H

/-- The errors of `applyTargetEvent`. -/
inductive ApplyError where
  /-- "unmarshal config for %s" -/
  | unmarshal (serverName : Str)
  /-- "target store not initialized" -/
  | noStore
  /-- "target %q has no server_name" -/
  | noServerName (serverName : Str)
  /-- "marshal target %s" -/
  | marshal (serverName : Str)
  /-- "store target %s for hostname %s" -/
  | store (serverName hostname : Str)
  deriving DecidableEq, Repr

/-- The stored config of a hostname. -/
def ProxyServer.row (ps : ProxyServer H) (host : Str) : Option Str :=
  ps.targetStore.bind (fun store => store.lookup host)

/-- The loop of `applyTargetUpdate` over the hostnames left. -/
def putAll (serverName data : Str) : (Nat → Bool) → List Str → Map Str Str → LRUCache Str H →
    Except ApplyError Unit × ProxyServer H
  | _, [], store, lru => (.ok (), ⟨some store, lru⟩)
  | fails, host :: hosts, store, lru =>
      if fails 0 then (.error (.store serverName host), ⟨some store, lru⟩)
      else putAll serverName data (fun i => fails (i + 1)) hosts (store.insert host data)
        (lru.delete host).2

def applyTargetUpdate (codec : Codec R) (fails : Nat → Bool) (serverName : Str)
    (target : TargetConfig R) (ps : ProxyServer H) : Except ApplyError Unit × ProxyServer H :=
  match ps.targetStore with
  | none => (.error .noStore, ps)
  | some store =>
      let names := if target.names = [] then parseServerNames serverName else target.names
      if names = [] then (.error (.noServerName serverName), ps)
      else match codec.marshalYAML target with
        | none => (.error (.marshal serverName), ps)
        | some data => putAll serverName data fails names store ps.lazyLRU

/-- `applyTargetDelete`: a store that fails is logged only. -/
def applyTargetDelete (fails : Nat → Bool) (name : Str) (ps : ProxyServer H) : ProxyServer H :=
  match ps.targetStore with
  | none => ps
  | some store =>
      ⟨some (if fails 0 then store else store.erase name), (ps.lazyLRU.delete name).2⟩

def applyTargetEvent (codec : Codec R) (fails : Nat → Bool) (ps : ProxyServer H) (e : TargetEvent) :
    Except ApplyError Unit × ProxyServer H :=
  if e.deleted then (.ok (), applyTargetDelete fails e.serverName ps)
  else match e.config.bind codec.unmarshalJSON with
    | none => (.error (.unmarshal e.serverName), ps)
    | some target => applyTargetUpdate codec fails e.serverName target ps

/-- No store operation fails. -/
def noFailure (_ : Nat) : Bool := false

/-- The loop returns nil when no write fails. -/
theorem putAll_noFailure (serverName data : Str) (hosts : List Str) (store : Map Str Str)
    (lru : LRUCache Str H) : (putAll serverName data noFailure hosts store lru).1 = .ok () := by
  induction hosts generalizing store lru with
  | nil => rfl
  | cons host hosts ih => exact ih _ _

/-- The loop writes its config under some of the hostnames, and under all of them
when it returns nil. -/
theorem row_putAll {serverName data : Str} {fails : Nat → Bool} {hosts : List Str}
    {store : Map Str Str} {lru : LRUCache Str H} :
    ∃ written, written ⊆ hosts ∧
      ((putAll serverName data fails hosts store lru).1 = .ok () → written = hosts) ∧
      ∀ host, (putAll serverName data fails hosts store lru).2.row host =
        if host ∈ written then some data else store.lookup host := by
  induction hosts generalizing fails store lru with
  | nil => exact ⟨[], by simp, by simp, by simp [putAll, ProxyServer.row]⟩
  | cons h hosts ih =>
    rw [putAll]
    cases hfail : fails 0 with
    | true => exact ⟨[], by simp, by simp, by simp [ProxyServer.row]⟩
    | false =>
      obtain ⟨written, hsub, hall, hrow⟩ := @ih (fun i => fails (i + 1)) (store.insert h data)
        (lru.delete h).2
      refine ⟨h :: written, List.cons_subset_cons h hsub, ?_, ?_⟩
      · intro hok
        rw [hall (by simpa using hok)]
      · intro host
        simp only [Bool.false_eq_true, if_false, hrow host, List.mem_cons]
        by_cases hhost : host = h
        · subst hhost
          simp
        · rw [AList.lookup_insert_ne hhost]
          simp [hhost]

theorem row_applyTargetDelete {ps : ProxyServer H} {store : Map Str Str}
    (hstore : ps.targetStore = some store) (fails : Nat → Bool) (name host : Str) :
    (applyTargetDelete fails name ps).row host =
      if fails 0 = false ∧ host = name then none else ps.row host := by
  unfold applyTargetDelete ProxyServer.row
  rw [hstore]
  cases fails 0 with
  | true => simp
  | false =>
    by_cases hhost : host = name
    · subst hhost
      simp
    · simp [hhost, AList.lookup_erase_ne hhost]

theorem targetStore_applyTargetEvent {codec : Codec R} {fails : Nat → Bool} {ps : ProxyServer H}
    {e : TargetEvent} (hstore : ps.targetStore.isSome) :
    (applyTargetEvent codec fails ps e).2.targetStore.isSome := by
  have hputAll : ∀ hosts fails store (lru : LRUCache Str H) serverName data,
      (putAll serverName data fails hosts store lru).2.targetStore.isSome := by
    intro hosts
    induction hosts with
    | nil => simp [putAll]
    | cons host hosts ih =>
      intro fails store lru serverName data
      rw [putAll]
      split
      · rfl
      · exact ih _ _ _ _ _
  obtain ⟨store, hsome⟩ := Option.isSome_iff_exists.mp hstore
  unfold applyTargetEvent
  split
  · simp [applyTargetDelete, hsome]
  · split
    · exact hstore
    · next t _ =>
      unfold applyTargetUpdate
      rw [hsome]
      generalize (if t.names = [] then parseServerNames e.serverName else t.names) = names
      dsimp only
      split
      · exact hstore
      · split
        · exact hstore
        · exact hputAll _ _ _ _ _ _

/-- An update whose config names its hostnames writes the encoded config under some
of them, and under all of them when it returns nil or no write fails. -/
theorem row_applyTargetEvent_upsert {codec : Codec R} {fails : Nat → Bool} {ps : ProxyServer H}
    {store : Map Str Str} (hstore : ps.targetStore = some store) {name data yaml : Str}
    {t : TargetConfig R} (hjson : codec.unmarshalJSON data = some t) (hnames : t.names ≠ [])
    (hyaml : codec.marshalYAML t = some yaml) :
    ∃ written, written ⊆ t.names ∧
      ((applyTargetEvent codec fails ps (.upsert name data)).1 = .ok () → written = t.names) ∧
      (fails = noFailure → written = t.names) ∧
      ∀ host, (applyTargetEvent codec fails ps (.upsert name data)).2.row host =
        if host ∈ written then some yaml else ps.row host := by
  have happly : applyTargetEvent codec fails ps (.upsert name data) =
      putAll name yaml fails t.names store ps.lazyLRU := by
    simp [applyTargetEvent, TargetEvent.upsert, hjson, applyTargetUpdate, hstore, hnames, hyaml]
  rw [happly]
  have hrow : ∀ host, ps.row host = store.lookup host := by simp [ProxyServer.row, hstore]
  obtain ⟨written, hsub, hall, hput⟩ := @row_putAll H name yaml fails t.names store ps.lazyLRU
  refine ⟨written, hsub, hall, ?_, by simpa only [hrow] using hput⟩
  rintro rfl
  exact hall (putAll_noFailure name yaml t.names store ps.lazyLRU)

end Peretum.Edge
