import Peretum.Go.Header
import Peretum.OrderedStore

/-!
# The store of the targets

`internal/cluster/targetstore.go` keeps the targets' configurations and the global one in one
ordered store of byte strings, apart by the beginnings of their keys. The database is an ordered
store whose operations succeed. The state of the component is a map of the targets and an optional
global configuration; this is what the answers show after any calls.
-/

namespace Go.Bytes

/-- Bytes in their numerical order. -/
scoped instance byteOrder : LinearOrder UInt8 where
  le_refl a := UInt8.le_refl a
  le_trans _ _ _ := UInt8.le_trans
  le_antisymm _ _ := UInt8.le_antisymm
  le_total a b := UInt8.le_total a b
  lt_iff_le_not_ge a b := by
    rw [UInt8.lt_iff_toNat_lt, UInt8.le_iff_toNat_le, UInt8.le_iff_toNat_le]
    omega
  toDecidableLE := inferInstance
  toDecidableEq := inferInstance
  toDecidableLT := inferInstance

end Go.Bytes

namespace Peretum.Cluster

open Go OrderedStore
open scoped Go.Bytes

def hostKeyPrefix : Str := str "h/"

def globalKey : Str := str "g"

structure TargetStore where
  db : Store Str Str

namespace TargetStore

/-- `OpenTargetStore` in an empty directory. -/
def openTargetStore : TargetStore := ⟨.empty⟩

/-- `get`: a copy of the value, if there is one. -/
def get (ts : TargetStore) (key : Str) : Option Str := ts.db.get key

def putGlobal (ts : TargetStore) (data : Str) : TargetStore := ⟨ts.db.set globalKey data⟩

def getGlobal (ts : TargetStore) : Option Str := ts.get globalKey

/-- `PutTargetByHost`. -/
def putTargetByHost (ts : TargetStore) (hostname data : Str) : TargetStore :=
  ⟨ts.db.set (hostKeyPrefix ++ hostname) data⟩

def getTargetByHost (ts : TargetStore) (hostname : Str) : Option Str :=
  ts.get (hostKeyPrefix ++ hostname)

def hasTargetByHost (ts : TargetStore) (hostname : Str) : Bool :=
  match ts.db.get (hostKeyPrefix ++ hostname) with
  | none => false
  | some _ => true

def inHostPrefix (key : Str) : Bool := hasPrefix key hostKeyPrefix

def hasAnyTarget (ts : TargetStore) : Bool :=
  match ts.db.seekGE hostKeyPrefix with
  | [] => false
  | e :: _ => inHostPrefix e.1

/-- `DeleteTargetByHost`. -/
def deleteTargetByHost (ts : TargetStore) (hostname : Str) : TargetStore :=
  ⟨ts.db.delete (hostKeyPrefix ++ hostname)⟩

/-- The loop of `ListHosts` over what the iterator still finds. -/
def listHostsFrom : List (Str × Str) → List Str → List Str
  | [], hosts => hosts
  | e :: iter, hosts =>
      if inHostPrefix e.1 then
        listHostsFrom iter (hosts ++ [trimPrefix e.1 hostKeyPrefix])
      else hosts

def listHosts (ts : TargetStore) : List Str := listHostsFrom (ts.db.seekGE hostKeyPrefix) []

end TargetStore

/-- A call that changes the store. -/
inductive StoreCall where
  | putTargetByHost (hostname data : Str)
  | deleteTargetByHost (hostname : Str)
  | putGlobal (data : Str)

/-- The store after a call. -/
def TargetStore.call (ts : TargetStore) : StoreCall → TargetStore
  | .putTargetByHost hostname data => ts.putTargetByHost hostname data
  | .deleteTargetByHost hostname => ts.deleteTargetByHost hostname
  | .putGlobal data => ts.putGlobal data

/-- The store after calls. -/
def TargetStore.calls (ts : TargetStore) (cs : List StoreCall) : TargetStore :=
  cs.foldl TargetStore.call ts

/-- The targets after a call. -/
def StoreCall.targets (m : Map Str Str) : StoreCall → Map Str Str
  | .putTargetByHost hostname data => m.insert hostname data
  | .deleteTargetByHost hostname => m.erase hostname
  | .putGlobal _ => m

/-- The global configuration that a call stores. -/
def StoreCall.global : StoreCall → Option Str
  | .putGlobal data => some data
  | _ => none

/-- The map of the latest puts and deletes. -/
def latestTargets (cs : List StoreCall) : Map Str Str := cs.foldl StoreCall.targets ∅

/-- The latest global configuration. -/
def latestGlobal (cs : List StoreCall) : Option Str := (cs.filterMap StoreCall.global).getLast?

/-! ### Keys -/

theorem hostKey_ne_globalKey (hostname : Str) : hostKeyPrefix ++ hostname ≠ globalKey := by
  intro heq
  have hlength := congrArg List.length heq
  rw [List.length_append] at hlength
  change 2 + hostname.length = 1 at hlength
  omega

theorem hostKey_inj {h h' : Str} : hostKeyPrefix ++ h = hostKeyPrefix ++ h' ↔ h = h' :=
  List.append_right_inj hostKeyPrefix

theorem inHostPrefix_iff {key : Str} :
    TargetStore.inHostPrefix key = true ↔ hostKeyPrefix <+: key := hasPrefix_iff

/-! ### The state of a store -/

/-- A store has these targets and this global configuration. -/
structure Holds (ts : TargetStore) (targets : Map Str Str) (global : Option Str) : Prop where
  targets_eq : ∀ hostname, ts.getTargetByHost hostname = targets.lookup hostname
  global_eq : ts.getGlobal = global

namespace Holds

variable {ts : TargetStore} {targets : Map Str Str} {global : Option Str}

theorem putTargetByHost (h : Holds ts targets global) (hostname data : Str) :
    Holds (ts.putTargetByHost hostname data) (targets.insert hostname data) global where
  targets_eq other := by
    refine (ts.db.get_set _ data _).trans ?_
    by_cases hother : other = hostname
    · rw [if_pos (hostKey_inj.mpr hother), hother, AList.lookup_insert]
    · rw [if_neg (mt hostKey_inj.mp hother), AList.lookup_insert_ne hother]
      exact h.targets_eq other
  global_eq := by
    refine (ts.db.get_set _ data _).trans ?_
    rw [if_neg (hostKey_ne_globalKey hostname).symm]
    exact h.global_eq

theorem deleteTargetByHost (h : Holds ts targets global) (hostname : Str) :
    Holds (ts.deleteTargetByHost hostname) (targets.erase hostname) global where
  targets_eq other := by
    refine (ts.db.get_delete _ _).trans ?_
    by_cases hother : other = hostname
    · rw [if_pos (hostKey_inj.mpr hother), hother, AList.lookup_erase]
    · rw [if_neg (mt hostKey_inj.mp hother), AList.lookup_erase_ne hother]
      exact h.targets_eq other
  global_eq := by
    refine (ts.db.get_delete _ _).trans ?_
    rw [if_neg (hostKey_ne_globalKey hostname).symm]
    exact h.global_eq

theorem putGlobal (h : Holds ts targets global) (data : Str) :
    Holds (ts.putGlobal data) targets (some data) where
  targets_eq hostname := by
    refine (ts.db.get_set _ data _).trans ?_
    rw [if_neg (hostKey_ne_globalKey hostname)]
    exact h.targets_eq hostname
  global_eq := (ts.db.get_set _ data _).trans (if_pos rfl)

theorem call (h : Holds ts targets global) (c : StoreCall) :
    Holds (ts.call c) (c.targets targets) (c.global.or global) := by
  cases c with
  | putTargetByHost hostname data => exact h.putTargetByHost hostname data
  | deleteTargetByHost hostname => exact h.deleteTargetByHost hostname
  | putGlobal data => exact h.putGlobal data

theorem calls (h : Holds ts targets global) (cs : List StoreCall) :
    Holds (ts.calls cs) (cs.foldl StoreCall.targets targets) ((latestGlobal cs).or global) := by
  induction cs generalizing ts targets global with
  | nil => exact h
  | cons c cs ih =>
    have hrest := ih (h.call c)
    have hlatest : (latestGlobal cs).or (c.global.or global) =
        (latestGlobal (c :: cs)).or global := by
      unfold latestGlobal
      cases hc : c.global with
      | none => rw [List.filterMap_cons_none hc, Option.none_or]
      | some data =>
        rw [List.filterMap_cons_some hc, List.getLast?_cons, Option.some_or]
        cases (cs.filterMap StoreCall.global).getLast? <;> rfl
    rw [hlatest] at hrest
    exact hrest

end Holds

/-! ### The scan -/

namespace TargetStore

/-- The loop adds the hosts up to the first key of another kind. -/
theorem listHostsFrom_eq (iter : List (Str × Str)) (hosts : List Str) :
    listHostsFrom iter hosts =
      hosts ++ (iter.takeWhile fun e => inHostPrefix e.1).map
        fun e => trimPrefix e.1 hostKeyPrefix := by
  induction iter generalizing hosts with
  | nil => exact (List.append_nil hosts).symm
  | cons e iter ih =>
    rw [listHostsFrom, List.takeWhile_cons]
    split
    · rw [ih, List.map_cons, List.append_assoc, List.singleton_append]
    · exact (List.append_nil hosts).symm

theorem listHosts_eq (ts : TargetStore) :
    ts.listHosts = (ts.db.entries.filter fun e => inHostPrefix e.1).map
      fun e => trimPrefix e.1 hostKeyPrefix := by
  rw [listHosts, listHostsFrom_eq, List.nil_append,
    takeWhile_seekGE ts.db fun _ => inHostPrefix_iff]

theorem mem_listHosts {ts : TargetStore} {hostname : Str} :
    hostname ∈ ts.listHosts ↔ (ts.getTargetByHost hostname).isSome := by
  rw [listHosts_eq, List.mem_map, Option.isSome_iff_exists]
  constructor
  · rintro ⟨e, hmem, rfl⟩
    obtain ⟨hentry, hkey⟩ := List.mem_filter.mp hmem
    obtain ⟨host, hhost⟩ := inHostPrefix_iff.mp hkey
    refine ⟨e.2, Store.get_eq_some_iff.mpr ?_⟩
    rw [← hhost, trimPrefix_append, hhost]
    exact hentry
  · rintro ⟨data, hget⟩
    refine ⟨(hostKeyPrefix ++ hostname, data), List.mem_filter.mpr ⟨?_, ?_⟩, trimPrefix_append⟩
    · exact Store.get_eq_some_iff.mp hget
    · exact inHostPrefix_iff.mpr (List.prefix_append _ _)

theorem listHosts_pairwise (ts : TargetStore) : ts.listHosts.Pairwise (· < ·) := by
  rw [listHosts_eq, List.pairwise_map]
  refine (ts.db.increasing.sublist List.filter_sublist).imp_of_mem fun {e f} he hf hlt => ?_
  obtain ⟨host, hhost⟩ := inHostPrefix_iff.mp (List.mem_filter.mp he).2
  obtain ⟨host', hhost'⟩ := inHostPrefix_iff.mp (List.mem_filter.mp hf).2
  rw [← hhost, ← hhost'] at hlt ⊢
  exact append_lt_append_iff.mp hlt

/-- The first key that is found tells whether there are hosts. -/
theorem hasAnyTarget_iff {ts : TargetStore} : ts.hasAnyTarget = true ↔ ts.listHosts ≠ [] := by
  rw [hasAnyTarget, listHosts]
  cases ts.db.seekGE hostKeyPrefix with
  | nil => simp [listHostsFrom]
  | cons e iter =>
    rw [listHostsFrom]
    by_cases hkey : inHostPrefix e.1 = true
    · simp [hkey, listHostsFrom_eq]
    · simp [hkey]

theorem hasTargetByHost_eq (ts : TargetStore) (hostname : Str) :
    ts.hasTargetByHost hostname = (ts.getTargetByHost hostname).isSome := by
  rw [hasTargetByHost, getTargetByHost, get]
  cases ts.db.get (hostKeyPrefix ++ hostname) <;> rfl

/-- After any calls to an empty store, the answers about targets are those of the map of the latest
puts and deletes, the global configuration is the latest one whatever the calls for targets, and
the hosts are listed once each in the order of their bytes. -/
theorem calls_refine_map (cs : List StoreCall) :
    (∀ hostname, (openTargetStore.calls cs).getTargetByHost hostname =
      (latestTargets cs).lookup hostname) ∧
    (∀ hostname, (openTargetStore.calls cs).hasTargetByHost hostname = true ↔
      hostname ∈ latestTargets cs) ∧
    (openTargetStore.calls cs).getGlobal = latestGlobal cs ∧
    (openTargetStore.calls cs).listHosts.Pairwise (· < ·) ∧
    (∀ hostname, hostname ∈ (openTargetStore.calls cs).listHosts ↔
      hostname ∈ latestTargets cs) ∧
    ((openTargetStore.calls cs).hasAnyTarget = true ↔
      (openTargetStore.calls cs).listHosts ≠ []) := by
  have hempty : Holds openTargetStore ∅ none := ⟨fun _ => rfl, rfl⟩
  have hholds := hempty.calls cs
  rw [Option.or_none] at hholds
  have hsome : ∀ hostname, ((openTargetStore.calls cs).getTargetByHost
      hostname).isSome = true ↔ hostname ∈ latestTargets cs := fun hostname => by
    rw [hholds.targets_eq]
    exact AList.lookup_isSome
  refine ⟨hholds.targets_eq, fun hostname => ?_, hholds.global_eq, listHosts_pairwise _,
    fun hostname => mem_listHosts.trans (hsome hostname), hasAnyTarget_iff⟩
  rw [hasTargetByHost_eq]
  exact hsome hostname

end TargetStore

end Peretum.Cluster
