import Mathlib.Data.List.Basic
import Peretum.Cluster.Stream
import Peretum.Runs

/-!
# Catching up with the stream

Before an edge serves requests it fetches the retained messages in batches, until a
batch is empty. A message whose handler fails goes back to the server, which hands it
out again and gives up after `MaxDeliver` deliveries. This file embeds `applyMessage`
and the drain of `CatchUp` over a consumer that was used by earlier drains, some of
which failed. The drain ends with every message handled exactly when each has a
delivery left on which the handler returns nil.
-/

namespace Peretum.Cluster

open Go

variable {σ ε : Type}

/-- How a message is settled. -/
inductive Settlement where
  | ack
  /-- `Nak`: the server delivers the message again. -/
  | nak
  /-- `Term`: the server drops the message. -/
  | term
  deriving DecidableEq, Repr

/-- `applyMessage`; the decoder is `json.Unmarshal` into a `TargetEvent`, and the state
is what the handler changes. -/
def applyMessage (decode : Str → Option TargetEvent)
    (handle : TargetEvent → σ → Except ε Unit × σ) (data : Str) (edge : σ) : Settlement × σ :=
  match decode data with
  | none => (.term, edge)
  | some e =>
      match handle e edge with
      | (.error _, edge) => (.nak, edge)
      | (.ok (), edge) => (.ack, edge)

variable {decode : Str → Option TargetEvent}

/-- The settlement of a well-formed message says whether the handler returns nil. -/
theorem applyMessage_of_decode {handle : TargetEvent → σ → Except ε Unit × σ} {data : Str}
    {e : TargetEvent} (hdecode : decode data = some e) (edge : σ) :
    applyMessage decode handle data edge =
      (if (handle e edge).1.toBool then .ack else .nak, (handle e edge).2) := by
  rw [applyMessage, hdecode]
  dsimp only
  rcases handle e edge with ⟨_ | _, edge'⟩
  · rfl
  · rfl

/-- A message is dropped exactly when it is malformed. -/
theorem applyMessage_term_iff {decode : Str → Option TargetEvent}
    {handle : TargetEvent → σ → Except ε Unit × σ} {data : Str} {edge : σ} :
    (applyMessage decode handle data edge).1 = .term ↔ decode data = none := by
  cases hdecode : decode data with
  | none => simp [applyMessage, hdecode]
  | some e =>
    rw [applyMessage_of_decode hdecode]
    split <;> simp

/-- `MaxDeliver` of the consumer. -/
def maxDeliver : Nat := 5

/-- The number of messages a fetch asks for. -/
def catchUpBatchSize : Nat := 256

/-- What the server knows of a message, and whether it was handled. -/
structure Slot where
  /-- The payload. -/
  data : Str
  /-- How often the message was delivered. -/
  delivered : Nat
  /-- The message is acknowledged or dropped. -/
  settled : Bool
  /-- The message was delivered to a process that ended without an answer, and the
  server still waits for it. -/
  unanswered : Bool
  /-- A handler has returned nil for it. -/
  handled : Bool
  deriving DecidableEq

namespace Slot

/-- A message that was never delivered. -/
def new (data : Str) : Slot := ⟨data, 0, false, false, false⟩

/-- The server hands the message out. `Nak` makes it due at once: the back-off of the
consumer is for answers that do not come. -/
def due (slot : Slot) : Bool := !slot.settled && !slot.unanswered && slot.delivered < maxDeliver

/-- A delivery is applied; the pattern says on which deliveries the handler returns nil. -/
def receive (decode : Str → Option TargetEvent) (succeeds : Nat → Bool) (slot : Slot) : Slot :=
  let reply : Except Unit Unit := if succeeds slot.delivered then .ok () else .error ()
  let settlement := (applyMessage decode (fun _ _ => (reply, ())) slot.data ()).1
  { slot with
    delivered := slot.delivered + 1
    settled := slot.settled || settlement ≠ .nak
    handled := slot.handled || settlement = .ack }

/-- The message is delivered to a process that ends before it applies it. -/
def lose (slot : Slot) : Slot :=
  { slot with delivered := slot.delivered + 1, unanswered := true }

/-- The server gives up waiting for an answer. -/
def elapse (slot : Slot) : Slot := { slot with unanswered := false }

end Slot

/-- The consumer of an edge and its drain. -/
structure Drain where
  /-- The messages in the order of the stream. -/
  slots : List Slot
  /-- `CatchUp` has returned nil. -/
  caughtUp : Bool

namespace Drain

/-- The first drain of a stream. -/
def init (backlog : List Str) : Drain := ⟨backlog.map Slot.new, false⟩

/-- A message that is due is delivered. -/
def deliver (f : Slot → Slot) (s : Drain) (i : Nat) : Option Drain :=
  match s.slots[i]? with
  | some slot => if slot.due then some { s with slots := s.slots.set i (f slot) } else none
  | none => none

/-- One turn of the loop over a batch. -/
def receive (decode : Str → Option TargetEvent) (succeeds : Nat → Nat → Bool) (s : Drain)
    (i : Nat) : Option Drain :=
  s.deliver (Slot.receive decode (succeeds i)) i

end Drain

/-- The steps of the consumer and its drains. -/
inductive DrainAction where
  /-- A message for a new subject is stored. -/
  | publish (data : Str)
  /-- The wait for the answer to a delivery is over. -/
  | elapse (i : Nat)
  /-- `fetchBatch` succeeds with these deliveries, of which a message may have several. -/
  | fetch (batch : List Nat)
  /-- The fetch fails, or the context or the process ends, before the last deliveries are
  applied; `CatchUp` is called again later. -/
  | abort (applied lost : List Nat)
  /-- `CatchUp` is called again after it has returned nil. -/
  | again

/-- One step, for every pattern of handler failures: the pattern tells of each message
and each of its deliveries whether the handler returns nil. -/
def drainStep (decode : Str → Option TargetEvent) (succeeds : Nat → Nat → Bool) (s : Drain) :
    DrainAction → Option Drain
  | .publish data => some { s with slots := s.slots ++ [.new data] }
  | .elapse i => some { s with slots := s.slots.modify i Slot.elapse }
  | .fetch batch =>
      -- A batch is empty only when no message is due, and an empty batch ends the drain.
      if s.caughtUp = false ∧ batch.length ≤ catchUpBatchSize ∧
          (batch = [] → s.slots.all (!·.due)) then
        (batch.foldlM (Drain.receive decode succeeds) s).map ({ · with caughtUp := batch.isEmpty })
      else none
  | .abort applied lost =>
      if s.caughtUp = false ∧ (applied ++ lost).length ≤ catchUpBatchSize then
        (applied.foldlM (Drain.receive decode succeeds) s).bind
          (lost.foldlM (·.deliver Slot.lose ·))
      else none
  | .again => some { s with caughtUp := false }

/-- The steps of a drain that has not come to its end. -/
def Draining (_ : Drain) : DrainAction → Prop
  | .publish _ => True
  | .elapse _ => True
  | .fetch batch => batch ≠ []
  | .abort .. => False
  | .again => False

/-- What is known of every message: it is settled exactly when it was handled, unless it
is malformed, and no answer to it is awaited then. -/
structure Slot.Sound (decode : Str → Option TargetEvent) (slot : Slot) : Prop where
  /-- A well-formed message is only settled by its handler. -/
  handled : slot.settled = true → (decode slot.data).isSome → slot.handled = true
  /-- A handled message is acknowledged. -/
  settled : slot.handled = true → slot.settled = true
  /-- A settled message is answered. -/
  answered : slot.settled = true → slot.unanswered = false

/-- What a drain has made of a message: it was handled by one of the deliveries since. -/
structure Slot.Since (decode : Str → Option TargetEvent) (succeeds : Nat → Bool) (slot now : Slot) :
    Prop where
  /-- The payload stays. -/
  data : now.data = slot.data
  /-- Deliveries are counted. -/
  delivered : slot.delivered ≤ now.delivered
  /-- A message that is not handled was tried on every delivery. -/
  handled : (decode slot.data).isSome → (now.handled = true ↔ slot.handled = true ∨
    ∃ k, slot.delivered ≤ k ∧ k < now.delivered ∧ k < maxDeliver ∧ succeeds k = true)

variable {slot now : Slot} {s₀ s t : Drain} {i : Nat}

namespace Slot

/-- What applying a delivery of a well-formed message does. -/
theorem receive_of_isSome (hwell : (decode slot.data).isSome) (succeeds : Nat → Bool) :
    slot.receive decode succeeds =
      { slot with
        delivered := slot.delivered + 1
        settled := slot.settled || succeeds slot.delivered
        handled := slot.handled || succeeds slot.delivered } := by
  obtain ⟨e, hdecode⟩ := Option.isSome_iff_exists.mp hwell
  cases hreply : succeeds slot.delivered <;>
    simp [receive, applyMessage_of_decode hdecode, hreply, Except.toBool]

/-- Applying a delivery of a malformed message drops it. -/
theorem receive_of_eq_none (hdecode : decode slot.data = none) (succeeds : Nat → Bool) :
    slot.receive decode succeeds =
      { slot with delivered := slot.delivered + 1, settled := true } := by
  simp [receive, applyMessage, hdecode]

/-- A message that is due is not settled, and its deliveries are not used up. -/
theorem due_iff : slot.due = true ↔
    slot.settled = false ∧ slot.unanswered = false ∧ slot.delivered < maxDeliver := by
  simp [due, and_assoc]

/-- A message that is due was not handled. -/
theorem Sound.not_handled (hslot : slot.Sound decode) (hdue : slot.due = true) :
    slot.handled = false := by
  cases hhandled : slot.handled with
  | false => rfl
  | true => exact absurd (hslot.settled hhandled) (by simp [(due_iff.mp hdue).1])

/-- Applying a delivery keeps a message sound. -/
theorem Sound.receive (hslot : slot.Sound decode) (hdue : slot.due = true)
    (succeeds : Nat → Bool) : (slot.receive decode succeeds).Sound decode := by
  obtain ⟨hopen, hanswered, -⟩ := due_iff.mp hdue
  cases hdecode : decode slot.data with
  | none =>
    rw [receive_of_eq_none hdecode]
    exact ⟨by simp [hdecode], fun _ => rfl, fun _ => hanswered⟩
  | some e =>
    rw [receive_of_isSome (by simp [hdecode])]
    simp only [hopen, hslot.not_handled hdue, Bool.false_or]
    exact ⟨fun hreply _ => hreply, id, fun _ => hanswered⟩

/-- A delivery that is lost keeps a message sound. -/
theorem Sound.lose (hslot : slot.Sound decode) (hdue : slot.due = true) :
    slot.lose.Sound decode := by
  have hopen := (due_iff.mp hdue).1
  exact ⟨hslot.handled, hslot.settled, fun hsettled => by simp [Slot.lose, hopen] at hsettled⟩

/-- A message the drain has not touched. -/
theorem Since.refl (succeeds : Nat → Bool) (slot : Slot) : Since decode succeeds slot slot := by
  refine ⟨rfl, Nat.le_refl _, fun _ => ?_⟩
  simp only [iff_self_or]
  omega

/-- One more delivery of a message that is due. -/
theorem Since.receive {succeeds : Nat → Bool} (hnow : Since decode succeeds slot now)
    (hsound : now.Sound decode) (hdue : now.due = true) :
    Since decode succeeds slot (now.receive decode succeeds) := by
  have hleft := (due_iff.mp hdue).2.2
  refine ⟨?_, ?_, fun hwell => ?_⟩
  · exact hnow.data
  · exact Nat.le_succ_of_le hnow.delivered
  have htried := hnow.handled hwell
  rw [receive_of_isSome (by rwa [hnow.data])]
  simp only [hsound.not_handled hdue, Bool.false_eq_true, false_iff, not_or, not_exists,
    not_and] at htried
  simp only [hsound.not_handled hdue, Bool.false_or, htried.1, Bool.false_eq_true, false_or]
  -- None of the earlier deliveries succeeded, so only the last one can.
  constructor
  · exact fun hreply => ⟨_, hnow.delivered, Nat.lt_succ_self _, hleft, hreply⟩
  · rintro ⟨k, hle, hlt, hmax, hreply⟩
    rcases Nat.lt_succ_iff_lt_or_eq.mp hlt with hlt | rfl
    · exact absurd hreply (htried.2 k hle hlt hmax)
    · exact hreply

end Slot

/-- Every message is sound, and the drain has made something of those it began with. -/
structure Drain.Follows (decode : Str → Option TargetEvent) (succeeds : Nat → Nat → Bool)
    (s₀ s : Drain) : Prop where
  /-- Every message is sound. -/
  sound : ∀ slot ∈ s.slots, slot.Sound decode
  /-- No message of the beginning is lost. -/
  since : ∀ i slot, s₀.slots[i]? = some slot →
    ∃ now, s.slots[i]? = some now ∧ Slot.Since decode (succeeds i) slot now

namespace Drain

variable {succeeds : Nat → Nat → Bool}

/-- What a delivery does to the list of messages. -/
theorem deliver_eq_some {f : Slot → Slot} (h : s.deliver f i = some t) :
    ∃ slot, s.slots[i]? = some slot ∧ slot.due = true ∧
      t = { s with slots := s.slots.set i (f slot) } := by
  simp only [deliver] at h
  split at h
  · next slot hget =>
    split at h
    · next hdue => exact ⟨slot, hget, hdue, (Option.some.inj h).symm⟩
    · cases h
  · cases h

/-- A delivery keeps every message sound if it keeps those that are due sound. -/
theorem sound_deliver {f : Slot → Slot} (hs : ∀ slot ∈ s.slots, slot.Sound decode)
    (hf : ∀ slot, slot.Sound decode → slot.due = true → (f slot).Sound decode)
    (h : s.deliver f i = some t) : ∀ slot ∈ t.slots, slot.Sound decode := by
  obtain ⟨slot, hget, hdue, rfl⟩ := deliver_eq_some h
  intro other hother
  rcases List.mem_or_eq_of_mem_set hother with hmem | rfl
  · exact hs other hmem
  · exact hf slot (hs slot (List.mem_of_getElem? hget)) hdue

/-- Deliveries one after another keep what each of them keeps. -/
theorem foldlM_invariant {inv : Drain → Prop} {f : Drain → Nat → Option Drain}
    (hf : ∀ u i v, inv u → f u i = some v → inv v) {batch : List Nat} (hs : inv s)
    (h : batch.foldlM f s = some t) : inv t := by
  induction batch generalizing s with
  | nil =>
    cases h
    exact hs
  | cons i batch ih =>
    obtain ⟨u, hu, hrest⟩ := Option.bind_eq_some_iff.mp h
    exact ih (hf s i u hs hu) hrest

/-- A published message and the end of a wait keep every message sound. -/
theorem sound_modify (hs : ∀ slot ∈ s.slots, slot.Sound decode) (i : Nat) :
    ∀ slot ∈ s.slots.modify i Slot.elapse, slot.Sound decode := by
  rw [List.modify_eq_set_getElem?]
  cases hget : s.slots[i]? with
  | none => exact hs
  | some slot =>
    intro other hother
    rcases List.mem_or_eq_of_mem_set hother with hmem | rfl
    · exact hs other hmem
    · have hslot := hs slot (List.mem_of_getElem? hget)
      exact ⟨hslot.handled, hslot.settled, fun _ => rfl⟩

/-- A new message is sound. -/
theorem sound_append (hs : ∀ slot ∈ s.slots, slot.Sound decode) (data : Str) :
    ∀ slot ∈ s.slots ++ [Slot.new data], slot.Sound decode := by
  intro slot hslot
  rcases List.mem_append.mp hslot with hmem | hnew
  · exact hs slot hmem
  · obtain rfl := List.mem_singleton.mp hnew
    exact ⟨nofun, nofun, nofun⟩

/-- Every step keeps every message sound, whatever drain it belongs to. -/
theorem sound_step (s : Drain) (a : DrainAction) (t : Drain)
    (hs : ∀ slot ∈ s.slots, slot.Sound decode) (_ : Runs.Unrestricted s a)
    (hstep : drainStep decode succeeds s a = some t) : ∀ slot ∈ t.slots, slot.Sound decode := by
  have hreceive : ∀ (u : Drain) i v, (∀ slot ∈ u.slots, slot.Sound decode) →
      u.receive decode succeeds i = some v → ∀ slot ∈ v.slots, slot.Sound decode :=
    fun u i v hu => sound_deliver hu fun slot hslot hdue => hslot.receive hdue _
  cases a with
  | publish data =>
    cases hstep
    exact sound_append hs data
  | elapse i =>
    cases hstep
    exact sound_modify hs i
  | fetch batch =>
    simp only [drainStep] at hstep
    split at hstep
    · obtain ⟨u, hu, rfl⟩ := Option.map_eq_some_iff.mp hstep
      exact foldlM_invariant (t := u) hreceive hs hu
    · cases hstep
  | abort applied lost =>
    simp only [drainStep] at hstep
    split at hstep
    · obtain ⟨u, hu, hlost⟩ := Option.bind_eq_some_iff.mp hstep
      exact foldlM_invariant (fun u i v hu => sound_deliver hu fun slot hslot => hslot.lose)
        (foldlM_invariant hreceive hs hu) hlost
    · cases hstep
  | again =>
    cases hstep
    exact hs

namespace Follows

/-- One turn of the loop over a batch. -/
theorem receive (hs : Follows decode succeeds s₀ s)
    (h : s.receive decode succeeds i = some t) : Follows decode succeeds s₀ t := by
  refine ⟨sound_deliver hs.sound (fun slot hslot hdue => hslot.receive hdue _) h, ?_⟩
  obtain ⟨slot, hget, hdue, rfl⟩ := deliver_eq_some h
  intro j first hfirst
  obtain ⟨now, hnow, hsince⟩ := hs.since j first hfirst
  by_cases hij : i = j
  · subst hij
    obtain rfl : slot = now := Option.some.inj (hget.symm.trans hnow)
    have hlt := (List.getElem?_eq_some_iff.mp hget).1
    exact ⟨_, List.getElem?_set_self hlt,
      hsince.receive (hs.sound slot (List.mem_of_getElem? hget)) hdue⟩
  · exact ⟨now, by rwa [List.getElem?_set_ne hij], hsince⟩

/-- Every step of the drain. -/
theorem step (s : Drain) (a : DrainAction) (t : Drain) (hs : Follows decode succeeds s₀ s)
    (hguard : Draining s a) (hstep : drainStep decode succeeds s a = some t) :
    Follows decode succeeds s₀ t := by
  have hsound := sound_step s a t hs.sound trivial hstep
  cases a with
  | publish data =>
    cases hstep
    refine ⟨hsound, fun i slot hslot => ?_⟩
    obtain ⟨now, hnow, hsince⟩ := hs.since i slot hslot
    exact ⟨now, List.getElem?_append_left (List.getElem?_eq_some_iff.mp hnow).1 ▸ hnow, hsince⟩
  | elapse i =>
    cases hstep
    refine ⟨hsound, fun j slot hslot => ?_⟩
    obtain ⟨now, hnow, hsince⟩ := hs.since j slot hslot
    by_cases hij : i = j
    · exact ⟨now.elapse, by simp [hnow, hij],
        ⟨hsince.data, hsince.delivered, hsince.handled⟩⟩
    · exact ⟨now, by simp [hnow, hij], hsince⟩
  | fetch batch =>
    simp only [drainStep] at hstep
    split at hstep
    · obtain ⟨u, hu, rfl⟩ := Option.map_eq_some_iff.mp hstep
      have hu := foldlM_invariant (fun u i v hu => hu.receive) hs hu
      exact ⟨hu.sound, hu.since⟩
    · cases hstep
  | abort applied lost | again => exact hguard.elim

end Follows

/-- A stream that was never drained. -/
theorem sound_init (decode : Str → Option TargetEvent) (backlog : List Str) :
    ∀ slot ∈ (Drain.init backlog).slots, slot.Sound decode := by
  intro slot hslot
  obtain ⟨data, -, rfl⟩ := List.mem_map.mp hslot
  exact ⟨nofun, nofun, nofun⟩

/-- Every well-formed event of the backlog was handled with a nil result. -/
def Complete (decode : Str → Option TargetEvent) (s₀ s : Drain) : Prop :=
  ∀ (i : Nat) (slot : Slot), s₀.slots[i]? = some slot → (decode slot.data).isSome →
    ∃ now, s.slots[i]? = some now ∧ now.data = slot.data ∧ now.handled = true

/-- Every well-formed event that was not handled before the drain has a delivery left on
which the handler returns nil, and the server does not wait for an answer to it. -/
def GetsThrough (decode : Str → Option TargetEvent) (succeeds : Nat → Nat → Bool)
    (s₀ s : Drain) : Prop :=
  ∀ (i : Nat) (slot : Slot), s₀.slots[i]? = some slot → (decode slot.data).isSome →
    slot.handled = false →
    (∃ k, slot.delivered ≤ k ∧ k < maxDeliver ∧ succeeds i k = true) ∧
      ∀ now, s.slots[i]? = some now → now.unanswered = false

end Drain

/-- A message that is not handed out any more was handled exactly when it was handled
before or gets through. -/
theorem Slot.Since.handled_iff {succeeds : Nat → Bool} (hnow : Since decode succeeds slot now)
    (hsound : now.Sound decode) (hdue : now.due = false) (hwell : (decode slot.data).isSome) :
    now.handled = true ↔ slot.handled = true ∨ now.unanswered = false ∧
      ∃ k, slot.delivered ≤ k ∧ k < maxDeliver ∧ succeeds k = true := by
  rw [hnow.handled hwell]
  refine or_congr_right' fun hnot => ⟨?_, ?_⟩
  · rintro ⟨k, hle, hlt, hmax, hreply⟩
    have hhandled := (hnow.handled hwell).mpr (.inr ⟨k, hle, hlt, hmax, hreply⟩)
    exact ⟨hsound.answered (hsound.settled hhandled), k, hle, hmax, hreply⟩
  · rintro ⟨hanswered, k, hle, hmax, hreply⟩
    cases hsettled : now.settled with
    | true =>
      have hhandled := hsound.handled hsettled (by rwa [hnow.data])
      exact ((hnow.handled hwell).mp hhandled).resolve_left hnot
    | false =>
      -- It is not due and not settled, so that its deliveries are used up.
      have hused : ¬ now.delivered < maxDeliver := by
        intro hleft
        exact absurd (due_iff.mpr ⟨hsettled, hanswered, hleft⟩) (by simp [hdue])
      exact ⟨k, hle, by omega, hmax, hreply⟩

/-- When `CatchUp` returns nil on an empty batch, every well-formed event that was
retained when the drain began was handled if and only if each of them gets through. -/
theorem caughtUp_complete_iff {decode : Str → Option TargetEvent} {succeeds : Nat → Nat → Bool}
    {retained : List Str} {s₀ s t : Drain}
    (hearlier : Runs.Reaches (drainStep decode succeeds) Runs.Unrestricted (.init retained) s₀)
    (hdrain : Runs.Reaches (drainStep decode succeeds) Draining s₀ s)
    (hempty : drainStep decode succeeds s (.fetch []) = some t) :
    t.caughtUp = true ∧ (s₀.Complete decode t ↔ s₀.GetsThrough decode succeeds s) := by
  have hsound := hearlier.invariant Drain.sound_step (Drain.sound_init decode retained)
  have hs : Drain.Follows decode succeeds s₀ s := hdrain.invariant Drain.Follows.step
    ⟨hsound, fun i slot hslot => ⟨slot, hslot, .refl _ slot⟩⟩
  simp only [drainStep] at hempty
  split at hempty
  · next hguard =>
    cases hempty
    have hnone : ∀ slot ∈ s.slots, slot.due = false := by simpa using hguard.2.2
    refine ⟨rfl, ?_, ?_⟩
    · intro hcomplete i slot hslot hwell hnot
      obtain ⟨now, hnow, hsince⟩ := hs.since i slot hslot
      obtain ⟨now', hnow', -, hhandled⟩ := hcomplete i slot hslot hwell
      obtain rfl : now = now' := Option.some.inj (hnow.symm.trans hnow')
      have hmem := List.mem_of_getElem? hnow
      obtain ⟨hanswered, hreply⟩ := ((hsince.handled_iff (hs.sound now hmem) (hnone now hmem)
        hwell).mp hhandled).resolve_left (by simp [hnot])
      refine ⟨hreply, fun other hother => ?_⟩
      rwa [Option.some.inj (hother.symm.trans hnow)]
    · intro hthrough i slot hslot hwell
      obtain ⟨now, hnow, hsince⟩ := hs.since i slot hslot
      have hmem := List.mem_of_getElem? hnow
      refine ⟨now, hnow, hsince.data,
        (hsince.handled_iff (hs.sound now hmem) (hnone now hmem) hwell).mpr ?_⟩
      cases hhandled : slot.handled with
      | true => exact .inl rfl
      | false =>
        obtain ⟨hreply, hanswered⟩ := hthrough i slot hslot hwell hhandled
        exact .inr ⟨hanswered now hnow, hreply⟩
  · cases hempty

/-- The message that deletes a target. -/
def deletionMessage : Str := str "\x7b\"server_name\":\"a.example\",\"deleted\":true\x7d"

/-- The decoder on that message. -/
def deletionDecode (data : Str) : Option TargetEvent :=
  if data = deletionMessage then some (.tombstone (str "a.example")) else none

/-- The pattern of a handler that fails on the first calls for each message. -/
def failsFirst (calls : Nat) (_ delivery : Nat) : Bool := calls ≤ delivery

/-- One retained message. -/
def oneRetained : Drain := .init [deletionMessage]

/-- The message is delivered as often as the server delivers it. -/
def fiveDeliveries : List DrainAction := .replicate maxDeliver (.fetch [0])

/-- The drain after five deliveries on which the handler fails. -/
def exhausted : Drain :=
  (Runs.exec (drainStep deletionDecode (failsFirst 5)) oneRetained fiveDeliveries).get rfl

/-- The drain after four deliveries on which the handler fails and one on which it does
not. -/
def lastDelivered : Drain :=
  (Runs.exec (drainStep deletionDecode (failsFirst 4)) oneRetained fiveDeliveries).get rfl

/-- The deliveries belong to one drain. -/
theorem draining_fiveDeliveries : ∀ a ∈ fiveDeliveries, ∀ s : Drain, Draining s a := by
  intro a ha s
  obtain rfl := List.eq_of_mem_replicate ha
  simp [Draining]

/-- When the handler has failed five times the next batch is empty, and `CatchUp` returns
nil without the event. -/
theorem exhausted_not_complete :
    Runs.Reaches (drainStep deletionDecode (failsFirst 5)) Draining oneRetained exhausted ∧
    (∃ t, drainStep deletionDecode (failsFirst 5) exhausted (.fetch []) = some t ∧
      t.caughtUp = true ∧ ¬ oneRetained.Complete deletionDecode t) := by
  refine ⟨Runs.reaches_get
    (Runs.admitted_of_forall _ _ draining_fiveDeliveries), _, rfl, rfl, ?_⟩
  intro hcomplete
  obtain ⟨now, hnow, -, hhandled⟩ := hcomplete 0 (.new deletionMessage) rfl (by decide)
  cases hnow
  exact absurd hhandled (by decide)

/-- When the handler fails four times and returns nil on the last delivery, `CatchUp`
returns nil with the event handled. -/
theorem lastDelivered_complete :
    ∃ t, drainStep deletionDecode (failsFirst 4) lastDelivered (.fetch []) = some t ∧
      oneRetained.Complete deletionDecode t := by
  have hreach : Runs.Reaches (drainStep deletionDecode (failsFirst 4)) Draining oneRetained
      lastDelivered :=
    Runs.reaches_get
      (Runs.admitted_of_forall _ _ draining_fiveDeliveries)
  have hstart : Runs.Reaches (drainStep deletionDecode (failsFirst 4)) Runs.Unrestricted
      (.init [deletionMessage]) oneRetained := .refl
  refine ⟨_, rfl, (caughtUp_complete_iff hstart hreach rfl).2.mpr ?_⟩
  intro i slot hslot _ _
  obtain rfl : i = 0 := Nat.lt_one_iff.mp (List.getElem?_eq_some_iff.mp hslot).1
  cases hslot
  refine ⟨⟨4, by decide, by decide, rfl⟩, fun now hnow => ?_⟩
  cases hnow
  decide

end Peretum.Cluster
