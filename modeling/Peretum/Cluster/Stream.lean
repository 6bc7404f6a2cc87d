import Peretum.Go.Header

/-!
# The config event store

The JetStream stream of target events has one subject per hostname and keeps the
newest message of each subject. It is therefore a map from subjects to events,
and storing an event replaces the one on its subject.
-/

namespace Peretum.Cluster

open Go

/-- `TargetEvent` without its informational timestamp. -/
structure TargetEvent where
  /-- The hostname, which also names the subject. -/
  serverName : Str
  deleted : Bool
  /-- The marshalled config, absent in a deletion. -/
  config : Option Str
  deriving DecidableEq

namespace TargetEvent

/-- The event that publishes a config for a hostname. -/
def upsert (name data : Str) : TargetEvent := ⟨name, false, some data⟩

/-- The event that deletes a hostname. -/
def tombstone (name : Str) : TargetEvent := ⟨name, true, none⟩

/-- The config an event leaves its hostname with. -/
def value (e : TargetEvent) : Option Str := if e.deleted then none else e.config

/-- An event as the control plane publishes them. -/
def Plain (e : TargetEvent) : Prop :=
  e = tombstone e.serverName ∨ ∃ data, e = upsert e.serverName data

theorem Plain.eq_tombstone {e : TargetEvent} (hplain : e.Plain) (hvalue : e.value = none) :
    e = tombstone e.serverName := by
  rcases hplain with htomb | ⟨data, hup⟩
  · exact htomb
  · rw [hup] at hvalue
    cases hvalue

theorem Plain.eq_upsert {e : TargetEvent} (hplain : e.Plain) {data : Str}
    (hvalue : e.value = some data) : e = upsert e.serverName data := by
  rcases hplain with htomb | ⟨data', hup⟩
  · rw [htomb] at hvalue
    cases hvalue
  · rw [hup] at hvalue ⊢
    obtain rfl : data' = data := by simpa [value, upsert] using hvalue
    rfl

end TargetEvent

def subjectTargetPrefix : Str := str "config.target."

def targetSubject (serverName : Str) : Str := subjectTargetPrefix ++ serverName

@[simp] theorem targetSubject_inj {a b : Str} : targetSubject a = targetSubject b ↔ a = b := by
  simp [targetSubject]

/-- The retained messages by subject. -/
abbrev Stream := Map Str TargetEvent

namespace Stream

/-- Store an event: it becomes the retained message of its subject. -/
def store (s : Stream) (e : TargetEvent) : Stream := s.insert (targetSubject e.serverName) e

/-- Store several events in order. -/
def storeAll (s : Stream) (events : List TargetEvent) : Stream := events.foldl store s

/-- The config on a subject whose retained message is not a deletion. -/
def live (s : Stream) (subject : Str) : Option Str := (s.lookup subject).bind TargetEvent.value

/-- The last of several events for a hostname. -/
def lastFor (events : List TargetEvent) (name : Str) : Option TargetEvent :=
  events.reverse.find? (fun e => e.serverName = name)

theorem lastFor_append (es fs : List TargetEvent) (name : Str) :
    lastFor (es ++ fs) name = (lastFor fs name).or (lastFor es name) := by
  simp [lastFor, List.find?_append]

variable {events : List TargetEvent} {s : Stream}

theorem mem_of_lastFor {name : Str} {e : TargetEvent} (hlast : lastFor events name = some e) :
    e ∈ events ∧ e.serverName = name :=
  ⟨List.mem_reverse.mp (List.mem_of_find?_eq_some hlast), by
    simpa using List.find?_some hlast⟩

theorem lastFor_eq_none {name : Str} :
    lastFor events name = none ↔ ∀ e ∈ events, e.serverName ≠ name := by
  simp [lastFor]

theorem lastFor_filter (events : List TargetEvent) (keep : Str → Bool) (name : Str) :
    lastFor (events.filter (fun e => keep e.serverName)) name =
      if keep name then lastFor events name else none := by
  unfold lastFor
  rw [← List.filter_reverse, List.find?_filter]
  split
  · next hkeep =>
    congr 1
    funext e
    by_cases hname : e.serverName = name
    · simp [hname, hkeep]
    · simp [hname]
  · next hkeep =>
    rw [List.find?_eq_none]
    intro e _ h
    simp only [decide_eq_true_eq] at h
    exact hkeep (h.2 ▸ h.1)

theorem lookup_store (s : Stream) (e : TargetEvent) (name : Str) :
    (store s e).lookup (targetSubject name) =
      if e.serverName = name then some e else s.lookup (targetSubject name) := by
  split
  · next h => subst h; exact AList.lookup_insert s
  · next h => exact AList.lookup_insert_ne (by simpa using fun heq => h heq.symm)

theorem lookup_storeAll (s : Stream) (events : List TargetEvent) (name : Str) :
    (storeAll s events).lookup (targetSubject name) =
      (lastFor events name).or (s.lookup (targetSubject name)) := by
  induction events generalizing s with
  | nil => rfl
  | cons e events ih =>
    change (storeAll (store s e) events).lookup (targetSubject name) = _
    have hcons : lastFor (e :: events) name =
        (lastFor events name).or (if e.serverName = name then some e else none) := by
      by_cases hname : e.serverName = name <;> simp [lastFor, hname]
    rw [ih, lookup_store, hcons]
    by_cases hname : e.serverName = name
    · cases lastFor events name <;> simp [hname]
    · simp [hname]

theorem live_storeAll (s : Stream) (events : List TargetEvent) (name : Str) :
    live (storeAll s events) (targetSubject name) =
      match lastFor events name with
      | some e => e.value
      | none => live s (targetSubject name) := by
  rw [live, lookup_storeAll]
  cases lastFor events name <;> rfl

/-- The retained messages. -/
def retained (s : Stream) : List TargetEvent := s.entries.map Sigma.snd

theorem mem_retained {e : TargetEvent} : e ∈ retained s ↔ ∃ subject, s.lookup subject = some e := by
  constructor
  · intro he
    obtain ⟨⟨subject, _⟩, hentry, rfl⟩ := List.mem_map.mp he
    exact ⟨subject, AList.mem_lookup_iff.mpr hentry⟩
  · rintro ⟨subject, hlookup⟩
    exact List.mem_map.mpr ⟨⟨subject, e⟩, AList.mem_lookup_iff.mp hlookup, rfl⟩

/-- Every message is on the subject of its hostname. -/
def Addressed (s : Stream) : Prop :=
  ∀ subject e, s.lookup subject = some e → subject = targetSubject e.serverName

theorem addressed_empty : Addressed ∅ := by
  intro subject e h
  simp at h

theorem Addressed.storeAll (hs : Addressed s) (events : List TargetEvent) :
    Addressed (storeAll s events) := by
  induction events generalizing s with
  | nil => exact hs
  | cons e events ih =>
    refine ih ?_
    intro subject e' hlookup
    by_cases hsubject : subject = targetSubject e.serverName
    · subst hsubject
      rw [store, AList.lookup_insert] at hlookup
      cases hlookup
      rfl
    · rw [store, AList.lookup_insert_ne hsubject] at hlookup
      exact hs subject e' hlookup

theorem plain_storeAll (hs : ∀ subject e, s.lookup subject = some e → e.Plain)
    (hevents : ∀ e ∈ events, e.Plain) :
    ∀ subject e, (storeAll s events).lookup subject = some e → e.Plain := by
  induction events generalizing s with
  | nil => exact hs
  | cons e events ih =>
    refine ih ?_ (fun e' he' => hevents e' (List.mem_cons_of_mem _ he'))
    intro subject e' hlookup
    by_cases hsubject : subject = targetSubject e.serverName
    · subst hsubject
      rw [store, AList.lookup_insert] at hlookup
      cases hlookup
      exact hevents _ List.mem_cons_self
    · rw [store, AList.lookup_insert_ne hsubject] at hlookup
      exact hs subject e' hlookup

theorem Addressed.exists_of_live (hs : Addressed s) {subject data : Str}
    (hlive : live s subject = some data) : ∃ name, subject = targetSubject name := by
  obtain ⟨e, he, -⟩ := Option.bind_eq_some_iff.mp hlive
  exact ⟨e.serverName, hs subject e he⟩

end Stream

end Peretum.Cluster
