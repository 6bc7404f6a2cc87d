import Mathlib.Data.Nat.ModEq
import Mathlib.Data.Nat.Prime.Basic
import Mathlib.Tactic.NormNum.Prime
import Peretum.Claiming
import Peretum.Go.Crc32
import Peretum.LoadBalancer.Selectors

/-!
# Maglev hashing

A request is hashed into a table whose cells name upstreams. The healthy upstreams
claim the cells in turns, each in the order of a permutation of its own that is derived
from two checksums of its URL. The table is built again before the first choice
after an upstream became healthy or unhealthy. A build indexes past the end of a
permutation when it has no cell left; this file shows that it does not when the second
checksum of no healthy upstream is divisible by the size of the table.
-/

namespace Peretum.LoadBalancer

open Go

def maglevTableSize : Nat := 65537

theorem prime_maglevTableSize : Nat.Prime maglevTableSize := by
  unfold maglevTableSize
  norm_num

/-- The permutation of an upstream; the arithmetic stays below the word size. -/
def permutation (url : Str) (j : Nat) : Nat :=
  ((checksumIEEE (url ++ str "1")).toNat + j * (checksumIEEE (url ++ str "2")).toNat) %
    maglevTableSize

theorem permutation_injOn {url : Str}
    (hurl : (checksumIEEE (url ++ str "2")).toNat % maglevTableSize ≠ 0) :
    Set.InjOn (permutation url) (Finset.range maglevTableSize) := by
  intro j hj k hk hsame
  have hj' : j < maglevTableSize := by simpa using hj
  have hk' : k < maglevTableSize := by simpa using hk
  have hcoprime : Nat.gcd maglevTableSize (checksumIEEE (url ++ str "2")).toNat = 1 := by
    rw [← Nat.coprime_iff_gcd_eq_one, prime_maglevTableSize.coprime_iff_not_dvd]
    exact fun hdvd => hurl (Nat.mod_eq_zero_of_dvd hdvd)
  have hmod : j * (checksumIEEE (url ++ str "2")).toNat ≡
      k * (checksumIEEE (url ++ str "2")).toNat [MOD maglevTableSize] :=
    Nat.ModEq.add_left_cancel' _ hsame
  exact Nat.ModEq.eq_of_lt_of_lt (Nat.ModEq.cancel_right_of_coprime hcoprime hmod) hj' hk'

structure Maglev where
  upstreams : List Upstream
  table : Option (Nat → Nat)
  /-- The table is to be built again. -/
  dirty : Bool

namespace Maglev

/-- The cells the upstreams claim; nothing if a permutation is exhausted. -/
def fillTable (upstreams : List Upstream) : Option (Nat → Nat) :=
  (Claiming.fill maglevTableSize
    (fun i => permutation ((upstreams[i]?).elim [] Upstream.url))
    ((List.range upstreams.length).filter (healthyAt upstreams))
    maglevTableSize .init).map Claiming.State.table

/-- `buildTableLocked`. -/
def buildTable (m : Maglev) : Option Maglev :=
  if m.upstreams.any Upstream.healthy then
    (fillTable m.upstreams).map fun table => { m with table := some table }
  else some m

/-- `NewMaglev`. -/
def new (upstreams : List Upstream) : Option Maglev :=
  buildTable ⟨allHealthy upstreams, none, false⟩

/-- The lazy build at the start of `Next`. -/
def refresh (m : Maglev) : Option Maglev :=
  if m.dirty then m.buildTable.map fun m => { m with dirty := false } else some m

/-- The loop of `Next` when the upstream of the cell is unhealthy. -/
def firstHealthy (upstreams : List Upstream) : Option Nat :=
  match upstreams.findIdx? Upstream.healthy with
  | some i => some i
  | none => probeCandidate upstreams

/-- `Next` after the lazy build; nothing if the cell names no upstream. -/
def choose (m : Maglev) (path rawQuery : Str) : Option (Option Nat) :=
  if m.upstreams = [] then some none
  else
    match m.table with
    | none => some none
    | some table =>
        let idx := table ((checksumIEEE (path ++ rawQuery)).toNat % maglevTableSize)
        (m.upstreams[idx]?).map fun u =>
          if u.healthy then some idx else firstHealthy m.upstreams

/-- `Next`; nothing if it indexes past the end of a slice. -/
def next (m : Maglev) (path rawQuery : Str) : Option (Option Nat × Maglev) :=
  m.refresh.bind fun m => (m.choose path rawQuery).map fun result => (result, m)

/-- `MarkHealthy` with `setHealth`: only a change is recorded. -/
def markHealthy (m : Maglev) (url : Str) (healthy : Bool) (now : Int) : Maglev :=
  match m.upstreams.find? (·.url = url) with
  | none => m
  | some u =>
      if u.healthy = healthy then m
      else { m with
        upstreams := LoadBalancer.markHealthy url healthy now m.upstreams, dirty := true }

/-- There is a table unless there are no upstreams, and its cells name upstreams. -/
structure Built (m : Maglev) : Prop where
  table : m.upstreams ≠ [] → m.table.isSome
  cells : ∀ table, m.table = some table → ∀ cell, table cell < m.upstreams.length

theorem built_of_fillTable {upstreams : List Upstream} {table : Nat → Nat}
    (hhealthy : upstreams.any Upstream.healthy = true) (hfill : fillTable upstreams = some table)
    (dirty : Bool) : Built ⟨upstreams, some table, dirty⟩ := by
  have hne : upstreams ≠ [] := by
    rintro rfl
    cases hhealthy
  obtain ⟨s, hs, rfl⟩ := Option.map_eq_some_iff.mp hfill
  refine ⟨fun _ => rfl, ?_⟩
  intro table htable cell
  cases htable
  refine Claiming.table_of_fill (p := (· < upstreams.length)) (List.length_pos_of_ne_nil hne)
    (fun i hi => ?_) hs cell
  simpa using (List.mem_filter.mp hi).1

variable {m t : Maglev}

theorem Built.buildTable (hm : m.Built) (hbuild : m.buildTable = some t) :
    t.Built ∧ t.upstreams = m.upstreams := by
  unfold Maglev.buildTable at hbuild
  split at hbuild
  · next hhealthy =>
    obtain ⟨table, hfill, rfl⟩ := Option.map_eq_some_iff.mp hbuild
    exact ⟨built_of_fillTable hhealthy hfill m.dirty, rfl⟩
  · cases hbuild
    exact ⟨hm, rfl⟩

theorem built_new {upstreams : List Upstream} (hnew : new upstreams = some m) :
    m.Built ∧ m.upstreams = allHealthy upstreams ∧ m.dirty = false := by
  unfold new Maglev.buildTable at hnew
  split at hnew
  · next hhealthy =>
    obtain ⟨table, hfill, rfl⟩ := Option.map_eq_some_iff.mp hnew
    exact ⟨built_of_fillTable hhealthy hfill false, rfl, rfl⟩
  · next hdown =>
    cases hnew
    refine ⟨⟨fun hne => absurd ?_ hdown, nofun⟩, rfl, rfl⟩
    obtain ⟨u, hu⟩ := List.exists_mem_of_ne_nil _ hne
    refine List.any_eq_true.mpr ⟨u, hu, ?_⟩
    obtain ⟨v, -, rfl⟩ := List.mem_map.mp hu
    rfl

/-- `MarkHealthy` keeps the table. -/
theorem Built.markHealthy (hm : m.Built) (url : Str) (healthy : Bool) (now : Int) :
    (m.markHealthy url healthy now).Built ∧
      (m.markHealthy url healthy now).upstreams.map Upstream.url =
        m.upstreams.map Upstream.url := by
  unfold Maglev.markHealthy
  split
  · exact ⟨hm, rfl⟩
  · split
    · exact ⟨hm, rfl⟩
    · have hurls := map_url_markHealthy url healthy now m.upstreams
      have hlength : (LoadBalancer.markHealthy url healthy now m.upstreams).length =
          m.upstreams.length := by simpa using congrArg List.length hurls
      refine ⟨⟨fun hne => hm.table ?_, fun table htable cell => ?_⟩, hurls⟩
      · intro hempty
        refine hne (List.length_eq_zero_iff.mp ?_)
        rw [hlength, hempty]
        rfl
      · rw [hlength]
        exact hm.cells table htable cell

/-- The first healthy upstream, or else the candidate, meets the contract. -/
theorem selects_firstHealthy (upstreams : List Upstream) :
    Selects upstreams (firstHealthy upstreams) := by
  unfold firstHealthy
  split
  · next i hfind =>
    refine selects_of_healthyAt ?_
    obtain ⟨hlt, hhealthy, -⟩ := List.findIdx?_eq_some_iff_getElem.mp hfind
    simpa [healthyAt, hlt] using hhealthy
  · next hfind =>
    refine selects_probeCandidate fun v hv => ?_
    simpa using List.findIdx?_eq_none_iff.mp hfind v hv

/-- The choice after the build meets the contract. -/
theorem Built.choose_spec (hm : m.Built) (path rawQuery : Str) :
    ∃ result, m.choose path rawQuery = some result ∧ Selects m.upstreams result := by
  unfold choose
  split
  · next hempty => exact ⟨none, rfl, hempty⟩
  · next hne =>
    obtain ⟨table, htable⟩ := Option.isSome_iff_exists.mp (hm.table hne)
    rw [htable]
    dsimp only
    have hlt := hm.cells table htable ((checksumIEEE (path ++ rawQuery)).toNat % maglevTableSize)
    rw [List.getElem?_eq_getElem hlt]
    refine ⟨_, rfl, ?_⟩
    dsimp only
    split
    · next hhealthy => exact ⟨_, List.getElem?_eq_getElem hlt, .inl hhealthy⟩
    · exact selects_firstHealthy m.upstreams

/-- The lazy build keeps the upstreams and leaves a good table. -/
theorem Built.refresh (hm : m.Built) (hrefresh : m.refresh = some t) :
    t.Built ∧ t.upstreams = m.upstreams := by
  unfold Maglev.refresh at hrefresh
  split at hrefresh
  · obtain ⟨u, hbuild, rfl⟩ := Option.map_eq_some_iff.mp hrefresh
    obtain ⟨hu, hupstreams⟩ := hm.buildTable hbuild
    exact ⟨⟨hu.table, hu.cells⟩, hupstreams⟩
  · cases hrefresh
    exact ⟨hm, rfl⟩

/-- `Next` meets the contract and keeps the table good. -/
theorem Built.next_spec {path rawQuery : Str} {result : Option Nat} (hm : m.Built)
    (hnext : m.next path rawQuery = some (result, t)) :
    Selects m.upstreams result ∧ t.Built ∧ t.upstreams = m.upstreams := by
  obtain ⟨u, hrefresh, hu⟩ := Option.bind_eq_some_iff.mp hnext
  obtain ⟨hbuilt, hupstreams⟩ := hm.refresh hrefresh
  obtain ⟨chosen, hchoose, hselects⟩ := hbuilt.choose_spec path rawQuery
  obtain ⟨rfl, rfl⟩ : chosen = result ∧ u = t := by simpa [hchoose] using hu
  exact ⟨hupstreams ▸ hselects, hbuilt, hupstreams⟩

theorem buildTable_isSome (hurls : ∀ u ∈ m.upstreams, u.healthy = true →
      (checksumIEEE (u.url ++ str "2")).toNat % maglevTableSize ≠ 0) : m.buildTable.isSome := by
  unfold buildTable
  split
  · next hhealthy =>
    rw [Option.isSome_map]
    have hlists : Claiming.Enumerates maglevTableSize
        (fun i => permutation ((m.upstreams[i]?).elim [] Upstream.url))
        ((List.range m.upstreams.length).filter (healthyAt m.upstreams)) := by
      intro i hi
      obtain ⟨u, hu, hup⟩ := (Option.any_eq_true _ _).mp (List.mem_filter.mp hi).2
      dsimp only
      rw [hu]
      refine ⟨fun j _ => Nat.mod_lt _ prime_maglevTableSize.pos, ?_⟩
      exact permutation_injOn (hurls u (List.mem_of_getElem? hu) hup)
    have hne : healthyIndices m.upstreams ≠ [] := healthyIndices_ne_nil_iff.mpr hhealthy
    rw [fillTable, Option.isSome_map]
    exact Claiming.paid_init.fill_isSome hlists hne (Nat.le_add_left _ _)
  · rfl

end Maglev

end Peretum.LoadBalancer
