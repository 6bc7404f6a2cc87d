import Mathlib.Data.List.Forall2
import Peretum.Go.Duration
import Peretum.Go.Utf8
import Peretum.Runs

/-!
# The names of durable consumers

An edge names its durable consumer after itself, so that it finds it again after a restart and
shares it with no other edge. What NATS does not allow in a name becomes a dash, and a long name
is cut. This file says which edges get the same name and follows the events of their consumers.
-/

namespace Peretum.Cluster

open Go Function

/-- What `ConsumerName` finds on a machine. -/
structure Machine where
  /-- `PERETUM_EDGE_ID`, empty when it is not set. -/
  edgeID : Str
  /-- The result of `os.Hostname`, empty when it fails. -/
  hostname : Str
  pid : Nat
  deriving DecidableEq

/-- The id of an edge, empty when it has none. -/
def Machine.id (m : Machine) : Str := if m.edgeID = [] then m.hostname else m.edgeID

def maxConsumerNameLen : Nat := 200

/-- The runes that the loop of `sanitizeConsumerName` keeps. -/
def keepsRune (r : Nat) : Bool :=
  (0x61 ≤ r && r ≤ 0x7A) || (0x41 ≤ r && r ≤ 0x5A) || (0x30 ≤ r && r ≤ 0x39) || r == 0x2D ||
    r == 0x5F

/-- The rune that the loop of `sanitizeConsumerName` appends. -/
def sanitizeRune (r : Nat) : Nat := if keepsRune r then r else 0x2D

def sanitizeConsumerName (s : Str) : Str :=
  let name := ofRunes ((runes s).map sanitizeRune)
  if maxConsumerNameLen < name.length then name.take maxConsumerNameLen else name

def consumerName (m : Machine) : Str :=
  let id := if m.id = [] then str "edge-" ++ natString m.pid else m.id
  str "edge-" ++ sanitizeConsumerName id

/-- A character that a name may have. -/
def isNameByte (b : UInt8) : Bool :=
  (0x41 ≤ b && b ≤ 0x5A) || (0x61 ≤ b && b ≤ 0x7A) || (0x30 ≤ b && b ≤ 0x39) || b == 0x2D ||
    b == 0x5F

/-- A name that NATS accepts. -/
structure IsConsumerName (name : Str) : Prop where
  bytes : ∀ b ∈ name, isNameByte b = true
  length_le : name.length ≤ 205

/-- The runes that stand for themselves only. -/
def isLetter (r : Nat) : Bool :=
  (0x61 ≤ r && r ≤ 0x7A) || (0x41 ≤ r && r ≤ 0x5A) || (0x30 ≤ r && r ≤ 0x39) || r == 0x5F

/-- Two runes that a name does not tell apart. -/
def SameInName (r r' : Nat) : Prop := r = r' ∨ (isLetter r = false ∧ isLetter r' = false)

/-- Two ids that a name does not tell apart: up to the length of a name they have the same
letters, digits and underscores at the same places. -/
def Indistinct (id id' : Str) : Prop :=
  List.Forall₂ SameInName ((runes id).take maxConsumerNameLen)
    ((runes id').take maxConsumerNameLen)

theorem keepsRune_iff (r : Nat) : keepsRune r = true ↔ isLetter r = true ∨ r = 0x2D := by
  simp only [keepsRune, isLetter, Bool.or_eq_true, beq_iff_eq]
  tauto

theorem sanitizeRune_of_isLetter {r : Nat} (hr : isLetter r = true) : sanitizeRune r = r :=
  if_pos ((keepsRune_iff r).mpr (.inl hr))

theorem sanitizeRune_of_not_isLetter {r : Nat} (hr : isLetter r = false) :
    sanitizeRune r = 0x2D := by
  unfold sanitizeRune
  split
  · next hkeep =>
    rcases (keepsRune_iff r).mp hkeep with hletter | hdash
    · rw [hr] at hletter
      cases hletter
    · exact hdash
  · rfl

theorem isLetter_sanitizeRune (r : Nat) : isLetter (sanitizeRune r) = isLetter r := by
  cases hr : isLetter r with
  | true => rw [sanitizeRune_of_isLetter hr, hr]
  | false =>
    rw [sanitizeRune_of_not_isLetter hr]
    rfl

/-- A name tells apart exactly the runes that are not the same in it. -/
theorem sanitizeRune_eq_iff (r r' : Nat) :
    sanitizeRune r = sanitizeRune r' ↔ SameInName r r' := by
  constructor
  · intro heq
    have hletter : isLetter r = isLetter r' := by
      rw [← isLetter_sanitizeRune r, heq, isLetter_sanitizeRune]
    cases hr : isLetter r with
    | true =>
      rw [sanitizeRune_of_isLetter hr, sanitizeRune_of_isLetter (hletter.symm.trans hr)] at heq
      exact .inl heq
    | false => exact .inr ⟨hr, hletter.symm.trans hr⟩
  · rintro (rfl | ⟨hr, hr'⟩)
    · rfl
    · rw [sanitizeRune_of_not_isLetter hr, sanitizeRune_of_not_isLetter hr']

theorem sanitizeRune_le (r : Nat) : sanitizeRune r ≤ 0x7F := by
  unfold sanitizeRune
  split
  · next hkeep =>
    simp only [keepsRune, Bool.or_eq_true, Bool.and_eq_true, decide_eq_true_eq, beq_iff_eq] at hkeep
    omega
  · omega

theorem toNat_sanitizeRune (r : Nat) : (UInt8.ofNat (sanitizeRune r)).toNat = sanitizeRune r :=
  UInt8.toNat_ofNat_of_lt' (Nat.lt_of_le_of_lt (sanitizeRune_le r) (by decide))

theorem isNameByte_sanitizeRune (r : Nat) : isNameByte (.ofNat (sanitizeRune r)) = true := by
  have hkeep : keepsRune (sanitizeRune r) = true := by
    cases hr : isLetter r with
    | true => rw [sanitizeRune_of_isLetter hr, keepsRune_iff, hr]; exact .inl rfl
    | false => rw [sanitizeRune_of_not_isLetter hr]; rfl
  simp only [keepsRune, Bool.or_eq_true, Bool.and_eq_true, decide_eq_true_eq, beq_iff_eq] at hkeep
  simp only [isNameByte, UInt8.le_iff_toNat_le, ← UInt8.toNat_inj, toNat_sanitizeRune,
    UInt8.reduceToNat, Bool.or_eq_true, Bool.and_eq_true, decide_eq_true_eq, beq_iff_eq]
  omega

/-- `sanitizeConsumerName` takes a number of runes and replaces them. -/
theorem sanitizeConsumerName_eq (s : Str) :
    sanitizeConsumerName s =
      ((runes s).take maxConsumerNameLen).map fun r => UInt8.ofNat (sanitizeRune r) := by
  have hascii : ofRunes ((runes s).map sanitizeRune) =
      (runes s).map fun r => UInt8.ofNat (sanitizeRune r) := by
    rw [ofRunes_ascii, List.map_map]
    · rfl
    · intro r hr
      obtain ⟨r', -, rfl⟩ := List.mem_map.mp hr
      exact sanitizeRune_le r'
  unfold sanitizeConsumerName
  dsimp only
  rw [hascii, List.map_take]
  split
  · rfl
  · next hshort => exact (List.take_of_length_le (Nat.le_of_not_lt hshort)).symm

theorem isConsumerName_consumerName (m : Machine) : IsConsumerName (consumerName m) := by
  unfold consumerName
  dsimp only
  rw [sanitizeConsumerName_eq]
  constructor
  · intro b hb
    rcases List.mem_append.mp hb with hb | hb
    · have hstart : (str "edge-").all isNameByte = true := by decide
      exact List.all_eq_true.mp hstart b hb
    · obtain ⟨r, -, rfl⟩ := List.mem_map.mp hb
      exact isNameByte_sanitizeRune r
  · rw [List.length_append, List.length_map, List.length_take]
    have hfive : (str "edge-").length = 5 := by decide
    rw [hfive, maxConsumerNameLen]
    omega

/-- Two ids get the same name exactly if they are indistinct. -/
theorem sanitizeConsumerName_eq_iff (id id' : Str) :
    sanitizeConsumerName id = sanitizeConsumerName id' ↔ Indistinct id id' := by
  have hbyte : ∀ r r', UInt8.ofNat (sanitizeRune r) = UInt8.ofNat (sanitizeRune r') ↔
      SameInName r r' := by
    intro r r'
    rw [← UInt8.toNat_inj, toNat_sanitizeRune, toNat_sanitizeRune, sanitizeRune_eq_iff]
  rw [sanitizeConsumerName_eq, sanitizeConsumerName_eq, Indistinct, ← List.forall₂_eq_eq_eq,
    List.forall₂_map_left_iff, List.forall₂_map_right_iff]
  constructor
  · exact fun h => h.imp fun r r' => (hbyte r r').mp
  · exact fun h => h.imp fun r r' => (hbyte r r').mpr

/-- Edges with ids get the same name exactly if their ids are indistinct. -/
theorem consumerName_eq_iff {m m' : Machine} (hm : m.id ≠ []) (hm' : m'.id ≠ []) :
    consumerName m = consumerName m' ↔ Indistinct m.id m'.id := by
  unfold consumerName
  rw [if_neg hm, if_neg hm', List.append_cancel_left_eq, sanitizeConsumerName_eq_iff]

/-! ## The events of durable consumers -/

/-- The stream and its durable consumers. -/
structure Durables where
  events : Nat
  /-- The edge that has acknowledged an event of a consumer. -/
  acked : Str → Nat → Option Machine

namespace Durables

/-- An empty stream. -/
def init : Durables := ⟨0, fun _ _ => none⟩

/-- An event that the consumer of an edge has given to another one; it is not delivered again. -/
def Misses (s : Durables) (m : Machine) (event : Nat) : Prop :=
  ∃ m', m' ≠ m ∧ s.acked (consumerName m) event = some m'

end Durables

/-- What happens to the stream. -/
inductive DurableAction where
  | publish
  /-- An edge gets an event from its consumer and acknowledges it. -/
  | receive (m : Machine) (event : Nat)

/-- One step. A consumer delivers an event until one of the edges that use it has acknowledged
it. -/
def durableStep (s : Durables) : DurableAction → Option Durables
  | .publish => some { s with events := s.events + 1 }
  | .receive m event =>
      if event < s.events ∧ s.acked (consumerName m) event = none then
        some { s with
          acked := update s.acked (consumerName m)
            (update (s.acked (consumerName m)) event (some m)) }
      else none

/-- Only these edges receive events. -/
def Among (edges : List Machine) (_ : Durables) : DurableAction → Prop
  | .publish => True
  | .receive m _ => m ∈ edges

/-- An event of a consumer is acknowledged by an edge that uses it. -/
def Durables.Owned (edges : List Machine) (s : Durables) : Prop :=
  ∀ name event m, s.acked name event = some m → m ∈ edges ∧ consumerName m = name

theorem owned_step {edges : List Machine} (s : Durables) (a : DurableAction) (t : Durables)
    (hs : s.Owned edges) (hguard : Among edges s a) (hstep : durableStep s a = some t) :
    t.Owned edges := by
  cases a with
  | publish =>
    cases hstep
    exact hs
  | receive m event =>
    rw [durableStep] at hstep
    split at hstep
    · cases hstep
      intro name e m' hacked
      dsimp only at hacked
      by_cases hname : name = consumerName m
      · subst hname
        rw [update_self] at hacked
        by_cases he : e = event
        · subst he
          rw [update_self] at hacked
          cases hacked
          exact ⟨hguard, rfl⟩
        · rw [update_of_ne he] at hacked
          exact hs _ e m' hacked
      · rw [update_of_ne hname] at hacked
        exact hs name e m' hacked
    · cases hstep

/-- An edge can miss the first event if another one has a consumer of the same name. -/
theorem exists_misses {edges : List Machine} {m m' : Machine} (hm' : m' ∈ edges) (hne : m' ≠ m)
    (hname : consumerName m' = consumerName m) :
    ∃ s, Runs.Reaches durableStep (Among edges) .init s ∧ s.Misses m 0 := by
  have hpublish : Runs.Reaches durableStep (Among edges) .init ⟨1, fun _ _ => none⟩ :=
    .of_step (a := .publish) trivial rfl
  refine ⟨_, hpublish.tail ⟨.receive m' 0, hm', rfl⟩, m', hne, ?_⟩
  rw [← hname]
  simp

theorem exists_misses_iff (edges : List Machine) :
    (∃ s, Runs.Reaches durableStep (Among edges) .init s ∧ ∃ m ∈ edges, ∃ event, s.Misses m event) ↔
      ∃ m ∈ edges, ∃ m' ∈ edges, m' ≠ m ∧ consumerName m' = consumerName m := by
  constructor
  · rintro ⟨s, hreach, m, hm, event, m', hne, hacked⟩
    have hinit : Durables.init.Owned edges := fun _ _ _ hnone => by cases hnone
    obtain ⟨hm', hname⟩ := hreach.invariant owned_step hinit _ event m' hacked
    exact ⟨m, hm, m', hm', hne, hname⟩
  · rintro ⟨m, hm, m', hm', hne, hname⟩
    obtain ⟨s, hreach, hmiss⟩ := exists_misses hm' hne hname
    exact ⟨s, hreach, m, hm, 0, hmiss⟩

/-- Two edges have a durable consumer each. -/
structure Separate (a b : Machine) : Prop where
  names : consumerName a ≠ consumerName b
  accepted : ∀ m, IsConsumerName (consumerName m)
  events : ∀ s, Runs.Reaches durableStep (Among [a, b]) .init s →
    ∀ m ∈ [a, b], ∀ event, ¬ s.Misses m event

/-- Two edges that have ids have a durable consumer each exactly if their ids are not
indistinct. -/
theorem separate_iff_not_indistinct (a b : Machine) (ha : a.id ≠ []) (hb : b.id ≠ []) :
    Separate a b ↔ ¬ Indistinct a.id b.id := by
  rw [← consumerName_eq_iff ha hb]
  refine ⟨fun h => h.names, fun hnames => ⟨hnames, isConsumerName_consumerName, ?_⟩⟩
  intro s hreach m hm event hmiss
  obtain ⟨m, hm, m', hm', hne, hname⟩ :=
    (exists_misses_iff [a, b]).mp ⟨s, hreach, m, hm, event, hmiss⟩
  simp only [List.mem_cons, List.not_mem_nil, or_false] at hm hm'
  rcases hm with rfl | rfl
  · rcases hm' with rfl | rfl
    · exact hne rfl
    · exact hnames hname.symm
  · rcases hm' with rfl | rfl
    · exact hnames hname
    · exact hne rfl

/-- An edge that is given an id. -/
def givenID (id : Str) : Machine := ⟨id, str "localhost", 1⟩

/-- The ids of a numbered set of edges are told apart. -/
theorem numbered_separate : Separate (givenID (str "edge-01")) (givenID (str "edge-02")) :=
  (separate_iff_not_indistinct _ _ (by decide) (by decide)).mpr fun h =>
    absurd ((sanitizeConsumerName_eq_iff _ _).mpr h) (by decide)

/-- Two edges whose ids differ in a dot and a dash share a consumer, and one can miss an event of
the other. -/
theorem dotted_and_dashed_share :
    (givenID (str "eu.west")).id ≠ (givenID (str "eu-west")).id ∧
      (givenID (str "eu.west")).id ≠ [] ∧ (givenID (str "eu-west")).id ≠ [] ∧
      consumerName (givenID (str "eu.west")) = str "edge-eu-west" ∧
      consumerName (givenID (str "eu-west")) = str "edge-eu-west" ∧
      ∃ s, Runs.Reaches durableStep (Among [givenID (str "eu.west"), givenID (str "eu-west")])
        .init s ∧ s.Misses (givenID (str "eu.west")) 0 := by
  refine ⟨by decide, by decide, by decide, by decide, by decide, ?_⟩
  have hmem : givenID (str "eu-west") ∈ [givenID (str "eu.west"), givenID (str "eu-west")] :=
    List.mem_cons_of_mem _ List.mem_cons_self
  exact exists_misses hmem (by decide) (by decide)

end Peretum.Cluster
