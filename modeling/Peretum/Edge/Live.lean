import Peretum.Edge.Replay

/-!
# Following the stream

A live edge receives the messages of the stream while the control plane goes on
publishing. Its durable consumer delivers messages in stream order, and may
deliver a message that was not acknowledged again, as long as it is retained.
A redelivered update writes all hostnames of its config, also those that newer
messages have settled in the meantime. This file embeds publisher, stream,
consumer and edge as one system.
-/

namespace Peretum.Edge

open Go Config Cluster ControlPlane

variable {R H : Type}

/-- A message of the stream. -/
structure Message where
  seq : Nat
  event : TargetEvent

/-- The publisher, the stream, the durable consumer of one edge, and the edge. -/
structure Live (R H : Type) where
  byName : Map Str Str
  /-- The targets of the sync in progress, or else of the last one. -/
  targets : List (TargetConfig R)
  next : Map Str Str
  /-- The events the sync in progress has not published. -/
  left : Option (List TargetEvent)
  retained : Map Str Message
  lastSeq : Nat
  /-- The sequence number up to which messages were delivered. -/
  cursor : Nat
  acked : Nat → Bool
  /-- The messages that were applied without any failure. -/
  applied : Nat → Bool
  edge : ProxyServer H

/-- Nothing is published, and the edge has an empty store. -/
def Live.init (lru : LRUCache Str H) : Live R H :=
  ⟨∅, [], ∅, none, ∅, 0, 0, fun _ => false, fun _ => false, ⟨some ∅, lru⟩⟩

/-- The steps of the system. -/
inductive LiveAction where
  /-- A sync loads the directory and compares it with the memory. -/
  | beginSync (order : RangeOrder) (dir : Directory)
  /-- The sync publishes its next event. -/
  | publish
  /-- The sync has published everything and updates the memory. -/
  | endSync
  /-- The next message is delivered for the first time. Some writes of the store may
  fail, and the acknowledgement may be lost. -/
  | deliver (host : Str) (fails : Nat → Bool) (ackSent : Bool)
  /-- A message that is retained and not acknowledged is delivered again. -/
  | redeliver (host : Str) (fails : Nat → Bool) (ackSent : Bool)

/-- Nothing between the cursor and a message is still to be delivered. -/
def Live.isNext (s : Live R H) (seq : Nat) : Bool :=
  s.cursor < seq && s.retained.entries.all (fun e => e.2.seq ≤ s.cursor || seq ≤ e.2.seq)

/-- The handler ran without an error and without a failed store operation, which a
deletion does not report. -/
def succeeded (e : TargetEvent) (fails : Nat → Bool) (result : Except ApplyError Unit) : Bool :=
  match result with
  | .ok () => !(e.deleted && fails 0)
  | .error _ => false

variable (codec : Codec R)

/-- `applyMessage` on a message of the edge's consumer. -/
def Live.handle (s : Live R H) (m : Message) (fails : Nat → Bool) (ackSent : Bool) : Live R H :=
  let r := applyTargetEvent codec fails s.edge m.event
  { s with
    edge := r.2
    applied := Function.update s.applied m.seq
      (s.applied m.seq || succeeded m.event fails r.1)
    acked := Function.update s.acked m.seq
      (s.acked m.seq || (ackSent && r.1.toOption.isSome)) }

/-- Store an event on the stream. -/
def Live.store (s : Live R H) (e : TargetEvent) : Live R H :=
  { s with
    retained := s.retained.insert e.serverName ⟨s.lastSeq + 1, e⟩
    lastSeq := s.lastSeq + 1 }

/-- One step of the system. -/
def liveStep (s : Live R H) : LiveAction → Option (Live R H)
  | .beginSync order dir =>
      match s.left, loadTargets codec dir with
      | none, .ok targets =>
          match nextMap codec targets ∅ with
          | .ok next => some { s with
              targets := targets
              next := next
              left := some (plan order s.byName next) }
          | .error _ => none
      | _, _ => none
  | .publish =>
      match s.left with
      | some (e :: events) => some { s.store e with left := some events }
      | _ => none
  | .endSync =>
      match s.left with
      | some [] => some { s with byName := s.next, left := none }
      | _ => none
  | .deliver host fails ackSent =>
      match s.retained.lookup host with
      | some m =>
          if s.isNext m.seq then some ({ s with cursor := m.seq }.handle codec m fails ackSent)
          else none
      | none => none
  | .redeliver host fails ackSent =>
      match s.retained.lookup host with
      | some m =>
          if m.seq ≤ s.cursor ∧ s.acked m.seq = false then some (s.handle codec m fails ackSent)
          else none
      | none => none

/-- The directories that are synced have targets without a common hostname. -/
def DisjointSyncs (_ : Live R H) : LiveAction → Prop
  | .beginSync _ dir => ∀ targets, loadTargets codec dir = .ok targets → DisjointNames targets
  | _ => True

/-- In addition, no update is delivered again after a newer message of one of its
hostnames has been delivered. -/
def NotOvertaken (s : Live R H) : LiveAction → Prop
  | .redeliver host _ _ => ∀ m data t, s.retained.lookup host = some m →
      m.event.value = some data → codec.unmarshalJSON data = some t →
      ∀ h ∈ t.names, ∀ m', s.retained.lookup h = some m' → m'.seq ≤ m.seq ∨ s.cursor < m'.seq
  | a => DisjointSyncs codec s a

/-- An edge that has applied every retained message of a finished sync has exactly the
hostnames and configs of the synced directory. -/
def Converged (s : Live R H) : Prop :=
  s.left = none → (∀ host m, s.retained.lookup host = some m → s.applied m.seq = true) →
    ∀ host, s.edge.row host = wantedRow codec s.targets host

end Peretum.Edge
