import Peretum.Claiming.Standard
import Peretum.LoadBalancer.Selection

/-!
# The table of maglev

`buildTableLocked` marks a free slot by 0, which is also the index of the first upstream.
This file says when a build ends, how the slots are shared out, and when the table is the
one that the standard population gives, with a mark of its own for free slots.
-/

namespace Peretum.LoadBalancer

open Go

/-- `permutations`: the probe sequences of the upstreams. -/
def permutations (upstreams : List Upstream) (i : Nat) : Nat → Nat :=
  permutation ((upstreams[i]?).elim [] Upstream.url)

/-- The second checksum of an upstream, by which its probe sequence advances. -/
def stride (upstreams : List Upstream) (i : Nat) : Nat :=
  (checksumIEEE (((upstreams[i]?).elim [] Upstream.url) ++ str "2")).toNat

/-- The probe sequence of an upstream visits every slot. -/
def VisitsAll (upstreams : List Upstream) (i : Nat) : Prop :=
  ∀ slot < maglevTableSize, ∃ j < maglevTableSize, permutations upstreams i j = slot

variable {upstreams : List Upstream} {i : Nat}

theorem permutations_lt (upstreams : List Upstream) (i j : Nat) :
    permutations upstreams i j < maglevTableSize := Nat.mod_lt _ prime_maglevTableSize.pos

/-- A probe sequence stays at its first slot if the table size divides its stride. -/
theorem stuck_of_stride (hstride : stride upstreams i % maglevTableSize = 0) :
    Claiming.Stuck (permutations upstreams) i := by
  intro j
  obtain ⟨q, hq⟩ := Nat.dvd_of_mod_eq_zero hstride
  unfold stride at hq
  rw [permutations, permutation, permutation, hq, Nat.mul_left_comm, Nat.add_mul_mod_self_left,
    Nat.zero_mul, Nat.add_zero]

theorem injOn_of_stride (hstride : stride upstreams i % maglevTableSize ≠ 0) :
    Set.InjOn (permutations upstreams i) (Finset.range maglevTableSize) :=
  permutation_injOn hstride

theorem stuck_iff :
    Claiming.Stuck (permutations upstreams) i ↔ stride upstreams i % maglevTableSize = 0 := by
  refine ⟨fun hstuck => ?_, stuck_of_stride⟩
  by_contra hstride
  have hzero : 0 ∈ Finset.range maglevTableSize := by simp [maglevTableSize]
  have hone : 1 ∈ Finset.range maglevTableSize := by simp [maglevTableSize]
  exact absurd (injOn_of_stride hstride hone hzero (hstuck 1)) (by decide)

theorem visitsAll_iff : VisitsAll upstreams i ↔ stride upstreams i % maglevTableSize ≠ 0 := by
  constructor
  · intro hvisits hstride
    have hstuck := stuck_of_stride hstride
    obtain ⟨j, -, hj⟩ := hvisits 0 (by decide)
    obtain ⟨k, -, hk⟩ := hvisits 1 (by decide)
    rw [hstuck] at hj hk
    omega
  · intro hstride slot hslot
    have hsurj : Set.SurjOn (permutations upstreams i) (Finset.range maglevTableSize)
        (Finset.range maglevTableSize) :=
      Finset.surjOn_of_injOn_of_card_le _
        (fun j _ => by simpa using permutations_lt upstreams i j) (injOn_of_stride hstride)
        (Nat.le_refl _)
    obtain ⟨j, hj, hslot⟩ := hsurj (by simpa using hslot : slot ∈ _)
    exact ⟨j, by simpa using hj, hslot⟩

theorem enumerates_of_visitsAll (hvisits : ∀ i ∈ healthyIndices upstreams, VisitsAll upstreams i) :
    Claiming.Enumerates maglevTableSize (permutations upstreams) (healthyIndices upstreams) := by
  intro i hi
  have hstride := visitsAll_iff.mp (hvisits i hi)
  exact ⟨fun j _ => permutations_lt upstreams i j, injOn_of_stride hstride⟩

namespace Maglev

variable {m : Maglev}

theorem buildTable_eq (hhealthy : m.upstreams.any Upstream.healthy = true) :
    m.buildTable = (Claiming.fill maglevTableSize (permutations m.upstreams)
      (healthyIndices m.upstreams) maglevTableSize .init).map
        fun s => { m with table := some s.table } := by
  rw [buildTable, if_pos hhealthy, fillTable, Option.map_map]
  rfl

/-- At every turn of an upstream whose probe sequence does not advance, its slot is still free
after the turns before, those of the first upstream left out. -/
def Spared (upstreams : List Upstream) : Prop :=
  ∀ before i after,
    Claiming.schedule (healthyIndices upstreams) maglevTableSize = before ++ i :: after →
    stride upstreams i % maglevTableSize = 0 →
    ∃ s, Claiming.round maglevTableSize (permutations upstreams) (before.filter (· != 0)) .init =
        some s ∧
      s.table (permutations upstreams i 0) = 0

/-- A build with a healthy upstream ends without an index beyond a permutation just when
every upstream whose probe sequence does not advance is spared. -/
theorem buildTable_isSome_iff (hhealthy : m.upstreams.any Upstream.healthy = true) :
    m.buildTable.isSome ↔ Spared m.upstreams := by
  rw [buildTable_eq hhealthy, Option.isSome_map,
    Claiming.fill_isSome_iff (healthyIndices_ne_nil_iff.mpr hhealthy)]
  · simp only [Claiming.Spared, stuck_iff, Spared]
  · intro i _
    by_cases hstride : stride m.upstreams i % maglevTableSize = 0
    · exact .inl (stuck_of_stride hstride)
    · exact .inr ⟨fun j _ => permutations_lt m.upstreams i j, injOn_of_stride hstride⟩

/-- Three upstreams are spared, since all their sequences advance. -/
theorem threeUpstreams_builds :
    (⟨threeUpstreams, none, false⟩ : Maglev).buildTable.isSome = true := by
  have hstride : ∀ i ∈ healthyIndices threeUpstreams,
      stride threeUpstreams i % maglevTableSize ≠ 0 := by decide +kernel
  refine (buildTable_isSome_iff (m := ⟨threeUpstreams, none, false⟩) (by decide)).mpr ?_
  intro before i after hturns hzero
  have hi : i ∈ healthyIndices threeUpstreams := by
    apply Claiming.mem_of_mem_schedule
    rw [hturns]
    simp
  exact absurd hzero (hstride i hi)

/-- A build fails if the sequence of a healthy upstream other than the first does not advance,
unless the healthy upstreams are more than half as many as the slots. -/
theorem buildTable_eq_none (hi : i ≠ 0) (hmem : i ∈ healthyIndices m.upstreams)
    (hstride : stride m.upstreams i % maglevTableSize = 0)
    (hfew : 2 * (healthyIndices m.upstreams).length ≤ maglevTableSize) : m.buildTable = none := by
  have hhealthy := healthyIndices_ne_nil_iff.mp (List.ne_nil_of_mem hmem)
  rw [buildTable_eq hhealthy,
    Claiming.fill_eq_none_of_stuck (stuck_of_stride hstride) hi hmem hfew]
  rfl

/-- Two upstreams, the second with a checksum that the table size divides. -/
def secondStuck : List Upstream := [⟨str "http://a", 1, true, 0⟩, ⟨str "http://b279", 1, true, 0⟩]

/-- A balancer for these upstreams cannot be constructed. -/
theorem new_secondStuck :
    secondStuck.any Upstream.healthy = true ∧ new secondStuck = none := by
  refine ⟨by decide, ?_⟩
  have hstride : stride (Maglev.mk (allHealthy secondStuck) none false).upstreams 1 %
      maglevTableSize = 0 := by decide +kernel
  have hfew : 2 * (healthyIndices (allHealthy secondStuck)).length ≤ maglevTableSize := by
    decide +kernel
  exact buildTable_eq_none (by decide) (by decide) hstride hfew

/-- The slots of an upstream. -/
def slots (table : Nat → Nat) (i : Nat) : Finset Nat :=
  (Finset.range maglevTableSize).filter fun slot => table slot = i

/-- When all probe sequences visit every slot, the finished table names a healthy upstream in
every slot, and two healthy upstreams have equally many slots, up to one. -/
theorem buildTable_balanced (hhealthy : m.upstreams.any Upstream.healthy = true)
    (hvisits : ∀ i ∈ healthyIndices m.upstreams, VisitsAll m.upstreams i) :
    ∃ table, m.buildTable = some { m with table := some table } ∧
      (∀ slot < maglevTableSize, healthyAt m.upstreams (table slot) = true) ∧
      ∀ i ∈ healthyIndices m.upstreams, ∀ j ∈ healthyIndices m.upstreams,
        (slots table i).card ≤ (slots table j).card + 1 := by
  have hne := healthyIndices_ne_nil_iff.mpr hhealthy
  have hmaps : ∀ i ∈ healthyIndices m.upstreams, ∀ j < maglevTableSize,
      permutations m.upstreams i j < maglevTableSize :=
    fun i _ j _ => permutations_lt m.upstreams i j
  obtain ⟨s, hs⟩ := Option.isSome_iff_exists.mp
    (Claiming.paid_init.fill_isSome (enumerates_of_visitsAll hvisits) hne (Nat.le_add_left _ _))
  have hslots : ∀ i, slots s.table i = Claiming.held maglevTableSize s (· == i) := by
    simp [slots, Claiming.held]
  refine ⟨s.table, ?_, fun slot hslot => ?_, fun i hi j hj => ?_⟩
  · rw [buildTable_eq hhealthy, hs]
    rfl
  · exact (List.mem_filter.mp (Claiming.table_mem_of_fill hne hmaps hs hslot)).2
  · rw [hslots, hslots]
    exact Claiming.card_held_le hne (List.nodup_range.filter _) hmaps hs hi hj

/-- The table for three upstreams is balanced. -/
theorem threeUpstreams_balanced :
    ∃ table, (⟨threeUpstreams, none, false⟩ : Maglev).buildTable =
        some ⟨threeUpstreams, some table, false⟩ ∧
      (slots table 0).card ≤ (slots table 2).card + 1 := by
  have hstride : ∀ i ∈ healthyIndices threeUpstreams,
      stride threeUpstreams i % maglevTableSize ≠ 0 := by decide +kernel
  obtain ⟨table, hbuild, -, hshares⟩ :=
    buildTable_balanced (m := ⟨threeUpstreams, none, false⟩) (by decide)
      fun i hi => visitsAll_iff.mpr (hstride i hi)
  exact ⟨table, hbuild, hshares 0 (by decide) 2 (by decide)⟩

/-- The standard population over the healthy upstreams. -/
def standardTable (upstreams : List Upstream) : Option Claiming.State :=
  Claiming.standard maglevTableSize (permutations upstreams) (healthyIndices upstreams)

/-- When all probe sequences visit every slot, both tables can be built, and they are the same
just when in the standard population no healthy upstream but the first comes across a slot
that the first has claimed. -/
theorem buildTable_eq_standard_iff (hhealthy : m.upstreams.any Upstream.healthy = true)
    (hvisits : ∀ i ∈ healthyIndices m.upstreams, VisitsAll m.upstreams i) :
    ∃ table reference, m.buildTable = some { m with table := some table } ∧
      standardTable m.upstreams = some reference ∧
      ((∀ slot < maglevTableSize, reference.holder slot = some (table slot)) ↔
        ∀ i ∈ healthyIndices m.upstreams, i ≠ 0 → ∀ j < reference.position i,
          reference.holder (permutations m.upstreams i j) ≠ some 0) := by
  have hne := healthyIndices_ne_nil_iff.mpr hhealthy
  have hlists := enumerates_of_visitsAll hvisits
  obtain ⟨s, hs⟩ := Option.isSome_iff_exists.mp
    (Claiming.paid_init.fill_isSome hlists hne (Nat.le_add_left _ _))
  obtain ⟨r, hr⟩ := Option.isSome_iff_exists.mp (Claiming.standard_isSome hne hlists)
  refine ⟨s.table, r, ?_, hr, ?_⟩
  · rw [buildTable_eq hhealthy, hs]
    rfl
  · exact Claiming.eq_standard_iff hne (fun i hi => (hlists i hi).1) hs hr

/-- The first of three upstreams is down. -/
def firstDown : List Upstream :=
  [⟨str "http://a", 1, false, 0⟩, ⟨str "http://b", 1, true, 0⟩, ⟨str "http://c", 1, true, 0⟩]

/-- Without the first upstream, the others have the standard table. -/
theorem firstDown_standard :
    ∃ table reference, (⟨firstDown, none, false⟩ : Maglev).buildTable =
        some ⟨firstDown, some table, false⟩ ∧
      standardTable firstDown = some reference ∧
      ∀ slot < maglevTableSize, reference.holder slot = some (table slot) := by
  have hstride : ∀ i ∈ healthyIndices firstDown,
      stride firstDown i % maglevTableSize ≠ 0 := by decide +kernel
  obtain ⟨table, reference, hbuild, hstandard, hsame⟩ :=
    buildTable_eq_standard_iff (m := ⟨firstDown, none, false⟩) (by decide)
      fun i hi => visitsAll_iff.mpr (hstride i hi)
  refine ⟨table, reference, hbuild, hstandard, hsame.mpr fun i _ _ j _ hheld => ?_⟩
  have hmem : 0 ∈ healthyIndices firstDown := Claiming.mem_of_holder hstandard hheld
  exact absurd hmem (by decide)

/-- Two upstreams whose probe sequences start at the same slot. -/
def sharedStart : List Upstream :=
  [⟨str "http://10.0.0.8", 1, true, 0⟩, ⟨str "http://10.0.1.168", 1, true, 0⟩]

/-- Both sequences visit every slot. The first slot of both goes to the second upstream, and
in the standard table to the first. -/
theorem sharedStart_differs :
    (∀ i ∈ healthyIndices sharedStart, VisitsAll sharedStart i) ∧
    ∃ table reference, (⟨sharedStart, none, false⟩ : Maglev).buildTable =
        some ⟨sharedStart, some table, false⟩ ∧
      standardTable sharedStart = some reference ∧
      table 15338 = 1 ∧ reference.holder 15338 = some 0 := by
  have hstride : ∀ i ∈ healthyIndices sharedStart,
      stride sharedStart i % maglevTableSize ≠ 0 := by decide +kernel
  have hvisits : ∀ i ∈ healthyIndices sharedStart, VisitsAll sharedStart i :=
    fun i hi => visitsAll_iff.mpr (hstride i hi)
  have hindices : healthyIndices sharedStart = [0, 1] := by decide
  have hslot : permutations sharedStart 0 0 = 15338 := by decide +kernel
  have hslot' : permutations sharedStart 1 0 = 15338 := by decide +kernel
  have hlists := enumerates_of_visitsAll hvisits
  refine ⟨hvisits, ?_⟩
  rw [hindices] at hlists
  obtain ⟨s, hs⟩ := Option.isSome_iff_exists.mp
    (Claiming.paid_init.fill_isSome hlists (List.cons_ne_nil _ _)
      (Nat.le_add_left maglevTableSize _))
  obtain ⟨r, hr⟩ := Option.isSome_iff_exists.mp
    (Claiming.standard_isSome (List.cons_ne_nil _ _) hlists)
  have hheld := Claiming.table_of_shared (by decide) (hslot'.trans hslot.symm)
    (by simp [maglevTableSize]) hs hr
  rw [hslot] at hheld
  refine ⟨s.table, r, ?_, ?_, hheld⟩
  · rw [buildTable_eq (m := ⟨sharedStart, none, false⟩) (by decide), hindices, hs]
    rfl
  · rw [standardTable, hindices]
    exact hr

end Maglev

end Peretum.LoadBalancer
