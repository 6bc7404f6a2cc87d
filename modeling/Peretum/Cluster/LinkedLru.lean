import Peretum.Cluster.Lru
import Peretum.Linked

/-!
# The pointers of the LRU cache

`LRUCache` is a map to nodes that are linked between two sentinels. Here the nodes are in a memory,
and every operation is the sequence of its reads and writes of links. Following a nil pointer ends
an operation without a result. The memory represents the cache of `Cluster.Lru`, whose one list
stands for the map and the links, and it goes on to do so.
-/

namespace Peretum.Cluster

open Go Linked Function

/-- `LRUCache` with its memory, which has a function for every field of `lruNode`. -/
structure LinkedCache (K V : Type) where
  capacity : Nat
  cache : Map K Nat
  key : Nat → K
  value : Nat → V
  links : Links Nat
  /-- The address of the next node. -/
  fresh : Nat
  head : Nat
  tail : Nat

variable {K V : Type}

namespace LinkedCache

def addToFront (c : LinkedCache K V) (node : Nat) : Option (LinkedCache K V) :=
  (c.links.linkAfter c.head node).map fun links => { c with links := links }

def remove (c : LinkedCache K V) (node : Nat) : Option (LinkedCache K V) :=
  (c.links.unlink node).map fun links => { c with links := links }

def moveToFront (c : LinkedCache K V) (node : Nat) : Option (LinkedCache K V) :=
  (c.remove node).bind fun c => c.addToFront node

variable [DecidableEq K]

def evict (c : LinkedCache K V) : Option (LinkedCache K V) :=
  (c.links.prev c.tail).bind fun node =>
    if node = c.head then some c
    else (c.remove node).map fun c => { c with cache := c.cache.erase (c.key node) }

/-- `NewLRUCache`; the sentinels have the zero key and the zero value. -/
def new [Inhabited K] [Inhabited V] (capacity : Int) : LinkedCache K V where
  capacity := if capacity ≤ 0 then 10000 else capacity.toNat
  cache := ∅
  key _ := default
  value _ := default
  links := (Links.setNext ⟨fun _ => none, fun _ => none⟩ 0 (some 1)).setPrev 1 (some 0)
  fresh := 2
  head := 0
  tail := 1

def get (c : LinkedCache K V) (key : K) : Option (Option V × LinkedCache K V) :=
  match c.cache.lookup key with
  | none => some (none, c)
  | some node => (c.moveToFront node).map fun c => (some (c.value node), c)

/-- The memory with a new node for a key that is not linked yet. -/
def allocate (c : LinkedCache K V) (key : K) (value : V) : LinkedCache K V :=
  { c with
    cache := c.cache.insert key c.fresh
    key := update c.key c.fresh key
    value := update c.value c.fresh value
    links := (c.links.setNext c.fresh none).setPrev c.fresh none
    fresh := c.fresh + 1 }

/-- The last part of `Put`: a new node for a key. -/
def insert (c : LinkedCache K V) (key : K) (value : V) : Option (LinkedCache K V) :=
  (c.allocate key value).addToFront c.fresh

def put (c : LinkedCache K V) (key : K) (value : V) : Option (LinkedCache K V) :=
  match c.cache.lookup key with
  | some node => { c with value := update c.value node value }.moveToFront node
  | none =>
      (if c.capacity ≤ c.cache.entries.length then c.evict else some c).bind fun c =>
        c.insert key value

def delete (c : LinkedCache K V) (key : K) : Option (Bool × LinkedCache K V) :=
  match c.cache.lookup key with
  | none => some (false, c)
  | some node => (c.remove node).map fun c => (true, { c with cache := c.cache.erase key })

def len (c : LinkedCache K V) : Nat := c.cache.entries.length

end LinkedCache

/-- A call of a method. -/
inductive LruCall (K V : Type) where
  | get (key : K)
  | put (key : K) (value : V)
  | delete (key : K)

/-- What a call returns. -/
inductive LruResult (V : Type) where
  /-- The value that `Get` returns, if it is found. -/
  | value (v : Option V)
  /-- `Put` returns nothing. -/
  | unit
  /-- Whether `Delete` has found the key. -/
  | found (b : Bool)

variable [DecidableEq K]

/-- A call on the memory. -/
def LinkedCache.call (c : LinkedCache K V) : LruCall K V → Option (LruResult V × LinkedCache K V)
  | .get key => (c.get key).map fun (v, c) => (.value v, c)
  | .put key value => (c.put key value).map fun c => (.unit, c)
  | .delete key => (c.delete key).map fun (b, c) => (.found b, c)

/-- Calls on the memory, one after the other. -/
def LinkedCache.run : LinkedCache K V → List (LruCall K V) →
    Option (List (LruResult V) × LinkedCache K V)
  | c, [] => some ([], c)
  | c, x :: xs => (c.call x).bind fun (r, c) => (c.run xs).map fun (rs, c) => (r :: rs, c)

/-- A call on the list. -/
def LRUCache.call (c : LRUCache K V) : LruCall K V → LruResult V × LRUCache K V
  | .get key => (.value (c.get key).1, (c.get key).2)
  | .put key value => (.unit, c.put key value)
  | .delete key => (.found (c.delete key).1, (c.delete key).2)

/-- Calls on the list, one after the other. -/
def LRUCache.run : LRUCache K V → List (LruCall K V) → List (LruResult V) × LRUCache K V
  | c, [] => ([], c)
  | c, x :: xs => ((c.call x).1 :: ((c.call x).2.run xs).1, ((c.call x).2.run xs).2)

/-- `Get` on the list, all at once. -/
theorem LRUCache.cache_get (a : LRUCache K V) (key : K) :
    (a.get key).2.cache = (a.cache.lookup key).elim a.cache fun v => a.cache.insert key v := by
  unfold LRUCache.get
  split
  · next hnone => rw [hnone, Option.elim_none]
  · next v hv =>
    dsimp only
    rw [hv, Option.elim_some]

theorem LRUCache.capacity_call (a : LRUCache K V) (x : LruCall K V) :
    (a.call x).2.capacity = a.capacity := by
  cases x with
  | get key =>
    unfold LRUCache.call LRUCache.get
    dsimp only
    split <;> rfl
  | put key value | delete key => rfl

theorem LRUCache.capacity_run (a : LRUCache K V) (xs : List (LruCall K V)) :
    (a.run xs).2.capacity = a.capacity := by
  induction xs generalizing a with
  | nil => rfl
  | cons x xs ih => exact (ih (a.call x).2).trans (a.capacity_call x)

namespace LinkedCache

variable {c : LinkedCache K V} {l : List Nat}

omit [DecidableEq K] in
/-- The nodes are linked between the sentinels. -/
structure Threaded (c : LinkedCache K V) (l : List Nat) : Prop where
  /-- Links forward and backward agree. -/
  chained : c.links.Chained (c.head :: (l ++ [c.tail]))
  nodup : (c.head :: (l ++ [c.tail])).Nodup
  allocated : ∀ node ∈ c.head :: (l ++ [c.tail]), node < c.fresh

/-- The memory represents the entries of a cache, with its nodes in this order. -/
structure Represents (c : LinkedCache K V) (m : Map K V) (l : List Nat) : Prop where
  threaded : c.Threaded l
  /-- The map has exactly these nodes, under their keys. -/
  mem_cache : ∀ key node, c.cache.lookup key = some node ↔ node ∈ l ∧ c.key node = key
  size : c.cache.entries.length = l.length
  entries : m.entries = l.map fun node => ⟨c.key node, c.value node⟩

omit [DecidableEq K] in
theorem Threaded.remove {before after : List Nat} {node : Nat}
    (hc : c.Threaded (before ++ node :: after)) :
    ∃ links, c.remove node = some { c with links := links } ∧
      Threaded { c with links := links } (before ++ after) := by
  have hsplit : c.head :: (before ++ node :: after ++ [c.tail]) =
      (c.head :: before) ++ node :: (after ++ [c.tail]) := by simp
  have hjoin : c.head :: (before ++ after ++ [c.tail]) =
      (c.head :: before) ++ (after ++ [c.tail]) := by simp
  have hsublist : ((c.head :: before) ++ (after ++ [c.tail])).Sublist
      ((c.head :: before) ++ node :: (after ++ [c.tail])) :=
    (List.sublist_cons_self _ _).append_left _
  obtain ⟨hchained, hnodup, hallocated⟩ := hc
  rw [hsplit] at hchained hnodup hallocated
  obtain ⟨links, hunlink, hchained⟩ := hchained.unlink (List.cons_ne_nil _ _) (by simp) hnodup
  refine ⟨links, by rw [LinkedCache.remove, hunlink, Option.map_some], ?_, ?_, ?_⟩
  · dsimp only
    rwa [hjoin]
  · dsimp only
    rw [hjoin]
    exact hnodup.sublist hsublist
  · dsimp only
    rw [hjoin]
    exact fun node hnode => hallocated node (hsublist.subset hnode)

omit [DecidableEq K] in
theorem Threaded.addToFront {node : Nat} (hc : c.Threaded l)
    (hnode : node ∉ c.head :: (l ++ [c.tail])) (hallocated : node < c.fresh) :
    ∃ links, c.addToFront node = some { c with links := links } ∧
      Threaded { c with links := links } (node :: l) := by
  obtain ⟨links, hlink, hchained⟩ := hc.chained.linkAfter (by simp) hc.nodup hnode
  refine ⟨links, by rw [LinkedCache.addToFront, hlink, Option.map_some], hchained, ?_, ?_⟩
  · obtain ⟨hhead, hrest⟩ := List.nodup_cons.mp hc.nodup
    obtain ⟨hne, hnotMem⟩ : node ≠ c.head ∧ node ∉ l ++ [c.tail] := by simpa using hnode
    refine List.nodup_cons.mpr ⟨?_, List.nodup_cons.mpr ⟨hnotMem, hrest⟩⟩
    exact fun hmem => (List.mem_cons.mp hmem).elim (fun h => hne h.symm) hhead
  · intro x hx
    rcases List.mem_cons.mp hx with rfl | hx
    · exact hc.allocated _ List.mem_cons_self
    · rcases List.mem_cons.mp hx with rfl | hx
      · exact hallocated
      · exact hc.allocated x (List.mem_cons_of_mem _ hx)

omit [DecidableEq K] in
theorem Threaded.moveToFront {before after : List Nat} {node : Nat}
    (hc : c.Threaded (before ++ node :: after)) :
    ∃ links, c.moveToFront node = some { c with links := links } ∧
      Threaded { c with links := links } (node :: (before ++ after)) := by
  have hallocated : node < c.fresh := hc.allocated node (by simp)
  have hnotMem : node ∉ c.head :: (before ++ after ++ [c.tail]) := by
    have hnodup : ((c.head :: before) ++ node :: (after ++ [c.tail])).Nodup := by
      simpa using hc.nodup
    simpa using (List.nodup_cons.mp (List.nodup_middle.mp hnodup)).1
  obtain ⟨links, hremove, hthreaded⟩ := hc.remove
  obtain ⟨links', hadd, hthreaded⟩ := hthreaded.addToFront hnotMem hallocated
  exact ⟨links', by rw [LinkedCache.moveToFront, hremove, Option.bind_some, hadd], hthreaded⟩

theorem Threaded.evict {before : List Nat} {node : Nat} (hc : c.Threaded (before ++ [node])) :
    ∃ links, c.evict =
        some { c with links := links, cache := c.cache.erase (c.key node) } ∧
      Threaded { c with links := links } before := by
  have hlast : c.links.prev c.tail = some node := by
    have hchained := hc.chained
    rw [List.append_assoc, ← List.cons_append] at hchained
    exact hchained.prev_last
  have hne : node ≠ c.head := by
    rintro rfl
    exact (List.nodup_cons.mp hc.nodup).1 (by simp)
  obtain ⟨links, hremove, hthreaded⟩ := hc.remove
  rw [List.append_nil] at hthreaded
  refine ⟨links, ?_, hthreaded⟩
  rw [LinkedCache.evict, hlast, Option.bind_some, if_neg hne, hremove, Option.map_some]

section Representation

variable {m m' : Map K V} {before after : List Nat} {key : K} {node : Nat} {v : V}

theorem Represents.lookup (hc : c.Represents m l) (key : K) :
    m.lookup key = (c.cache.lookup key).map c.value := by
  cases hnode : c.cache.lookup key with
  | none =>
    rw [Option.map_none, AList.lookup_eq_none, AList.mem_keys, AList.keys, hc.entries]
    intro hmem
    obtain ⟨node, hl, rfl⟩ : ∃ node ∈ l, c.key node = key := by
      simpa [List.keys] using hmem
    rw [(hc.mem_cache _ node).mpr ⟨hl, rfl⟩] at hnode
    cases hnode
  | some node =>
    obtain ⟨hl, rfl⟩ := (hc.mem_cache _ node).mp hnode
    refine AList.mem_lookup_iff.mpr ?_
    rw [hc.entries]
    exact List.mem_map.mpr ⟨node, hl, rfl⟩

theorem Represents.exists_split (hc : c.Represents m l) (hnode : c.cache.lookup key = some node) :
    c.key node = key ∧ ∃ before after, l = before ++ node :: after := by
  obtain ⟨hmem, hkey⟩ := (hc.mem_cache key node).mp hnode
  exact ⟨hkey, List.append_of_mem hmem⟩

theorem Represents.key_ne (hc : c.Represents m (before ++ node :: after)) {other : Nat}
    (hother : other ∈ before ++ after) : c.key other ≠ c.key node := by
  intro hsame
  have hmem : other ∈ before ++ node :: after :=
    List.perm_middle.mem_iff.mpr (List.mem_cons_of_mem node hother)
  have hfirst := (hc.mem_cache _ other).mpr ⟨hmem, hsame⟩
  have hsecond := (hc.mem_cache _ node).mpr ⟨by simp, rfl⟩
  obtain rfl := Option.some.inj (hfirst.symm.trans hsecond)
  have hnodup : (before ++ other :: after).Nodup :=
    ((List.nodup_cons.mp hc.threaded.nodup).2).sublist (List.sublist_append_left _ _)
  exact (List.nodup_cons.mp (List.nodup_middle.mp hnodup)).1 hother

theorem Represents.kerase (hc : c.Represents m (before ++ node :: after)) :
    m.entries.kerase (c.key node) =
      (before ++ after).map fun node => ⟨c.key node, c.value node⟩ := by
  have hbefore : c.key node ∉ (before.map fun node =>
      (⟨c.key node, c.value node⟩ : Sigma fun _ : K => V)).keys := by
    intro hmem
    obtain ⟨other, hother, hkey⟩ : ∃ other ∈ before, c.key other = c.key node := by
      simpa [List.keys] using hmem
    exact hc.key_ne (List.mem_append.mpr (.inl hother)) hkey
  rw [hc.entries, List.map_append, List.map_cons, List.kerase_append_right hbefore,
    List.kerase_cons_eq (a := c.key node) rfl, List.map_append]

theorem Represents.front (hc : c.Represents m (before ++ node :: after)) {links : Links Nat}
    (hthreaded : Threaded { c with links := links } (node :: (before ++ after))) (v : V) :
    Represents { c with links := links, value := update c.value node v }
      (m.insert (c.key node) v) (node :: (before ++ after)) := by
  refine ⟨⟨hthreaded.chained, hthreaded.nodup, hthreaded.allocated⟩, fun key other => ?_, ?_, ?_⟩
  · rw [← List.perm_middle.mem_iff]
    exact hc.mem_cache key other
  · rw [← List.perm_middle.length_eq]
    exact hc.size
  · have hothers : ∀ other ∈ before ++ after,
        (⟨c.key other, c.value other⟩ : Sigma fun _ : K => V) =
          ⟨c.key other, update c.value node v other⟩ := by
      intro other hother
      have hne : other ≠ node := fun h => hc.key_ne hother (congrArg c.key h)
      rw [update_of_ne hne]
    dsimp only
    rw [AList.entries_insert, hc.kerase, List.map_cons, update_self,
      List.map_congr_left hothers]

theorem Represents.dropped (hc : c.Represents m (before ++ node :: after)) {links : Links Nat}
    (hthreaded : Threaded { c with links := links } (before ++ after))
    (hentries : m'.entries = (before ++ after).map fun node => ⟨c.key node, c.value node⟩) :
    Represents { c with links := links, cache := c.cache.erase (c.key node) } m'
      (before ++ after) := by
  have hnode : c.cache.lookup (c.key node) = some node :=
    (hc.mem_cache _ node).mpr ⟨by simp, rfl⟩
  refine ⟨⟨hthreaded.chained, hthreaded.nodup, hthreaded.allocated⟩, fun key other => ?_, ?_,
    hentries⟩
  · dsimp only
    by_cases hkey : key = c.key node
    · subst hkey
      rw [AList.lookup_erase]
      constructor
      · exact nofun
      · rintro ⟨hother, hsame⟩
        exact absurd hsame (hc.key_ne hother)
    · rw [AList.lookup_erase_ne hkey, hc.mem_cache, List.perm_middle.mem_iff, List.mem_cons]
      constructor
      · rintro ⟨rfl | hother, rfl⟩
        · exact absurd rfl hkey
        · exact ⟨hother, rfl⟩
      · rintro ⟨hother, rfl⟩
        exact ⟨.inr hother, rfl⟩
  · have hsize := hc.size
    rw [List.perm_middle.length_eq, List.length_cons] at hsize
    rw [Map.length_erase (Map.mem_of_lookup hnode), hsize, Nat.add_sub_cancel]

theorem allocate_fresh (c : LinkedCache K V) (key : K) (v : V) :
    (c.allocate key v).key c.fresh = key ∧ (c.allocate key v).value c.fresh = v :=
  ⟨update_self .., update_self ..⟩

theorem Represents.ne_fresh (hc : c.Represents m l) :
    ∀ node ∈ c.head :: (l ++ [c.tail]), node ≠ c.fresh :=
  fun node hnode => (hc.threaded.allocated node hnode).ne

theorem Represents.threaded_allocate (hc : c.Represents m l) (key : K) (v : V) :
    (c.allocate key v).Threaded l := by
  refine ⟨hc.threaded.chained.congr (fun node hnode => ?_) fun node hnode => ?_,
    hc.threaded.nodup, fun node hnode => Nat.lt_succ_of_lt (hc.threaded.allocated node hnode)⟩
  · exact update_of_ne (hc.ne_fresh node (List.dropLast_subset _ hnode)) _ _
  · exact update_of_ne (hc.ne_fresh node (List.mem_of_mem_tail hnode)) _ _

theorem Represents.allocate_of_mem (hc : c.Represents m l) (key : K) (v : V) {node : Nat}
    (hnode : node ∈ l) :
    (c.allocate key v).key node = c.key node ∧ (c.allocate key v).value node = c.value node := by
  have hne := hc.ne_fresh node (by simp [hnode])
  exact ⟨update_of_ne hne _ _, update_of_ne hne _ _⟩

theorem Represents.lookup_allocate (hc : c.Represents m l) (hnew : c.cache.lookup key = none)
    (v : V) (k : K) (node : Nat) :
    (c.allocate key v).cache.lookup k = some node ↔
      node ∈ c.fresh :: l ∧ (c.allocate key v).key node = k := by
  have hself := (c.allocate_fresh key v).1
  by_cases hk : k = key
  · subst hk
    rw [allocate, AList.lookup_insert, Option.some.injEq, List.mem_cons]
    constructor
    · rintro rfl
      exact ⟨.inl rfl, hself⟩
    · rintro ⟨rfl | hnode, hsame⟩
      · rfl
      · have hold := (hc.allocate_of_mem k v hnode).1.symm.trans hsame
        rw [(hc.mem_cache k node).mpr ⟨hnode, hold⟩] at hnew
        cases hnew
  · rw [allocate, AList.lookup_insert_ne hk, hc.mem_cache, List.mem_cons]
    constructor
    · rintro ⟨hnode, rfl⟩
      exact ⟨.inr hnode, (hc.allocate_of_mem key v hnode).1⟩
    · rintro ⟨rfl | hnode, hsame⟩
      · exact absurd (hsame.symm.trans hself) hk
      · exact ⟨hnode, (hc.allocate_of_mem key v hnode).1.symm.trans hsame⟩

theorem Represents.insert (hc : c.Represents m l) (hnew : c.cache.lookup key = none) (v : V) :
    ∃ c', c.insert key v = some c' ∧ c'.capacity = c.capacity ∧
      c'.Represents (m.insert key v) (c.fresh :: l) := by
  have hfresh : c.fresh ∉ c.head :: (l ++ [c.tail]) := fun hmem => hc.ne_fresh _ hmem rfl
  obtain ⟨links, hadd, hthreaded⟩ :=
    (hc.threaded_allocate key v).addToFront hfresh (Nat.lt_succ_self _)
  refine ⟨_, hadd, rfl, ⟨hthreaded.chained, hthreaded.nodup, hthreaded.allocated⟩,
    hc.lookup_allocate hnew v, ?_, ?_⟩
  · change (c.cache.insert key c.fresh).entries.length = _
    rw [Map.length_insert, if_neg (AList.lookup_eq_none.mp hnew), hc.size, List.length_cons]
  · have hnotMem : key ∉ m := by
      rw [← AList.lookup_eq_none, hc.lookup, hnew, Option.map_none]
    have hothers : ∀ node ∈ l, (⟨c.key node, c.value node⟩ : Sigma fun _ : K => V) =
        ⟨(c.allocate key v).key node, (c.allocate key v).value node⟩ := by
      intro node hnode
      rw [(hc.allocate_of_mem key v hnode).1, (hc.allocate_of_mem key v hnode).2]
    have hself : (⟨key, v⟩ : Sigma fun _ : K => V) =
        ⟨(c.allocate key v).key c.fresh, (c.allocate key v).value c.fresh⟩ := by
      rw [(c.allocate_fresh key v).1, (c.allocate_fresh key v).2]
    rw [AList.entries_insert_of_notMem hnotMem, hc.entries, List.map_congr_left hothers, hself]
    rfl

theorem Represents.evict (hc : c.Represents m l) (hl : l ≠ []) :
    ∃ c' before, c.evict = some c' ∧ c'.capacity = c.capacity ∧
      c'.Represents (LRUCache.evict m) before ∧
      ∀ key, c.cache.lookup key = none → c'.cache.lookup key = none := by
  obtain ⟨before, node, rfl⟩ : ∃ before node, l = before ++ [node] :=
    ⟨_, _, (List.dropLast_append_getLast hl).symm⟩
  obtain ⟨links, hevict, hthreaded⟩ := hc.threaded.evict
  rw [← List.append_nil before] at hthreaded
  have hentries : (LRUCache.evict m).entries =
      (before ++ []).map fun node => ⟨c.key node, c.value node⟩ := by
    have hdrop : (LRUCache.evict m).entries = m.entries.dropLast := rfl
    rw [hdrop, hc.entries, List.map_append, List.map_singleton, List.dropLast_concat,
      List.append_nil]
  refine ⟨_, _, hevict, rfl, hc.dropped hthreaded hentries, fun key hnone => ?_⟩
  by_cases hkey : key = c.key node
  · rw [hkey]
    exact AList.lookup_erase _ _
  · exact (AList.lookup_erase_ne hkey).trans hnone

end Representation

section Calls

variable {a : LRUCache K V}

/-- `Get` on the memory does what it does on the list. -/
theorem Represents.get (hc : c.Represents a.cache l) (key : K) :
    ∃ c' l', c.get key = some ((a.get key).1, c') ∧ c'.capacity = c.capacity ∧
      c'.Represents (a.get key).2.cache l' := by
  have hlookup := hc.lookup key
  rw [LRUCache.get_fst, LRUCache.find, LRUCache.cache_get, hlookup, LinkedCache.get]
  cases hnode : c.cache.lookup key with
  | none => exact ⟨c, l, rfl, rfl, hc⟩
  | some node =>
    obtain ⟨rfl, before, after, rfl⟩ := hc.exists_split hnode
    obtain ⟨links, hmove, hthreaded⟩ := hc.threaded.moveToFront
    have hfront := hc.front hthreaded (c.value node)
    rw [update_eq_self] at hfront
    refine ⟨{ c with links := links }, _, ?_, rfl, hfront⟩
    dsimp only
    rw [hmove]
    rfl

/-- `Put` on the memory does what it does on the list. -/
theorem Represents.put (hc : c.Represents a.cache l) (hcapacity : c.capacity = a.capacity) (key : K)
    (value : V) :
    ∃ c' l', c.put key value = some c' ∧ c'.capacity = c.capacity ∧
      c'.Represents (a.put key value).cache l' := by
  have hlookup := hc.lookup key
  unfold LinkedCache.put LRUCache.put LRUCache.putMap
  dsimp only
  cases hnode : c.cache.lookup key with
  | some node =>
    obtain ⟨rfl, before, after, rfl⟩ := hc.exists_split hnode
    have hmem : c.key node ∈ a.cache := by
      rw [← AList.lookup_isSome, hlookup, hnode]
      rfl
    have hthreaded : Threaded { c with value := update c.value node value }
        (before ++ node :: after) :=
      ⟨hc.threaded.chained, hc.threaded.nodup, hc.threaded.allocated⟩
    obtain ⟨links, hmove, hthreaded⟩ := hthreaded.moveToFront
    rw [if_pos hmem]
    exact ⟨_, _, hmove, rfl,
      hc.front ⟨hthreaded.chained, hthreaded.nodup, hthreaded.allocated⟩ value⟩
  | none =>
    have hnotMem : key ∉ a.cache := by
      rw [← AList.lookup_eq_none, hlookup, hnode, Option.map_none]
    have hsize : a.cache.entries.length = c.cache.entries.length := by
      rw [hc.entries, List.length_map, hc.size]
    rw [if_neg hnotMem, hsize, hcapacity]
    by_cases hfull : a.capacity ≤ c.cache.entries.length
    · have hl : l ≠ [] := by
        rintro rfl
        have hpos := a.capacity_pos
        have hzero := hc.size
        rw [List.length_nil] at hzero
        omega
      obtain ⟨c', before, hevict, hsame, hc', hnone⟩ := hc.evict hl
      obtain ⟨c'', hinsert, hsame', hc''⟩ := hc'.insert (hnone key hnode) value
      rw [if_pos hfull, if_neg (not_lt.mpr hfull), hevict, Option.bind_some]
      exact ⟨c'', _, hinsert, (hsame'.trans hsame).trans hcapacity, hc''⟩
    · obtain ⟨c', hinsert, hsame, hc'⟩ := hc.insert hnode value
      rw [if_neg hfull, if_pos (not_le.mp hfull), Option.bind_some]
      exact ⟨c', _, hinsert, hsame.trans hcapacity, hc'⟩

/-- `Delete` on the memory does what it does on the list. -/
theorem Represents.delete (hc : c.Represents a.cache l) (key : K) :
    ∃ c' l', c.delete key = some ((a.delete key).1, c') ∧ c'.capacity = c.capacity ∧
      c'.Represents (a.delete key).2.cache l' := by
  have hlookup := hc.lookup key
  rw [LinkedCache.delete, LRUCache.delete]
  dsimp only
  rw [hlookup]
  cases hnode : c.cache.lookup key with
  | none =>
    have hsame : a.cache.erase key = a.cache := by
      rw [hnode, Option.map_none] at hlookup
      exact AList.ext (List.kerase_of_notMem_keys (AList.lookup_eq_none.mp hlookup))
    rw [hsame]
    exact ⟨c, l, rfl, rfl, hc⟩
  | some node =>
    obtain ⟨rfl, before, after, rfl⟩ := hc.exists_split hnode
    obtain ⟨links, hremove, hthreaded⟩ := hc.threaded.remove
    refine ⟨{ c with links := links, cache := c.cache.erase (c.key node) }, _, ?_, rfl,
      hc.dropped hthreaded hc.kerase⟩
    dsimp only
    rw [hremove]
    rfl

theorem Represents.call (hc : c.Represents a.cache l) (hcapacity : c.capacity = a.capacity)
    (x : LruCall K V) :
    ∃ c' l', c.call x = some ((a.call x).1, c') ∧ c'.capacity = (a.call x).2.capacity ∧
      c'.Represents (a.call x).2.cache l' := by
  cases x with
  | get key =>
    obtain ⟨c', l', hget, hsame, hc'⟩ := hc.get key
    refine ⟨c', l', by rw [LinkedCache.call, hget]; rfl, ?_, hc'⟩
    exact (hsame.trans hcapacity).trans (a.capacity_call (.get key)).symm
  | put key value =>
    obtain ⟨c', l', hput, hsame, hc'⟩ := hc.put hcapacity key value
    exact ⟨c', l', by rw [LinkedCache.call, hput]; rfl, hsame.trans hcapacity, hc'⟩
  | delete key =>
    obtain ⟨c', l', hdelete, hsame, hc'⟩ := hc.delete key
    exact ⟨c', l', by rw [LinkedCache.call, hdelete]; rfl, hsame.trans hcapacity, hc'⟩

theorem Represents.run (hc : c.Represents a.cache l) (hcapacity : c.capacity = a.capacity)
    (xs : List (LruCall K V)) :
    ∃ c' l', c.run xs = some ((a.run xs).1, c') ∧ c'.capacity = (a.run xs).2.capacity ∧
      c'.Represents (a.run xs).2.cache l' := by
  induction xs generalizing c a l with
  | nil => exact ⟨c, l, rfl, hcapacity, hc⟩
  | cons x xs ih =>
    obtain ⟨c', l', hcall, hsame, hc'⟩ := hc.call hcapacity x
    obtain ⟨c'', l'', hrun, hsame', hc''⟩ := ih hc' hsame
    refine ⟨c'', l'', ?_, hsame', hc''⟩
    rw [LinkedCache.run, hcall, Option.bind_some]
    dsimp only
    rw [hrun]
    rfl

theorem represents_new [Inhabited K] [Inhabited V] (capacity : Int) :
    (new capacity : LinkedCache K V).Represents (LRUCache.new capacity).cache [] := by
  refine ⟨⟨?_, ?_, ?_⟩, fun key node => ?_, rfl, rfl⟩
  · exact List.isChain_pair.mpr ⟨rfl, rfl⟩
  · simp [new]
  · simp [new]
  · simp [new]

end Calls

/-- No call of a cache follows a nil pointer, all calls return what they return on the list, and
the memory represents the list afterwards: the map and the links between the sentinels have the
same nodes, links forward and backward agree, and there are no more nodes than the capacity. -/
theorem run_represents [Inhabited K] [Inhabited V] (capacity : Int) (xs : List (LruCall K V)) :
    ∃ (c : LinkedCache K V) (l : List Nat),
      (new capacity).run xs = some (((LRUCache.new capacity).run xs).1, c) ∧
      c.Represents ((LRUCache.new capacity).run xs).2.cache l ∧
      c.len ≤ c.capacity ∧ (1 ≤ capacity → (c.capacity : Int) = capacity) := by
  obtain ⟨c, l, hrun, hcapacity, hc⟩ := (represents_new capacity).run rfl xs
  refine ⟨c, l, hrun, hc, ?_, fun hpos => ?_⟩
  · have hbounded := ((LRUCache.new capacity : LRUCache K V).run xs).2.bounded
    rw [hc.entries, List.length_map, ← hc.size, ← hcapacity] at hbounded
    exact hbounded
  · rw [hcapacity, LRUCache.capacity_run, LRUCache.new]
    dsimp only
    rw [if_neg (by omega)]
    omega

end LinkedCache

end Peretum.Cluster
