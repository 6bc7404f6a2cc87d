import Peretum.Cluster.Consumer
import Peretum.ControlPlane.Reconcile
import Peretum.Edge.Apply

/-!
# Settling the messages of an edge

An edge acknowledges a message once `applyTargetEvent` returns nil. An update
returns the error of the first store operation that fails, but a deletion returns
nil whatever the store says. This file shows that the deletion of a stored hostname
that the store refuses is the only message that is acknowledged and not applied.
-/

namespace Peretum.Edge

open Go Config Cluster ControlPlane

variable {R H : Type}

/-- `applyMessage` with the handler `applyTargetEvent`. -/
def settle (codec : Codec R) (decode : Str → Option TargetEvent) (fails : Nat → Bool) (data : Str)
    (ps : ProxyServer H) : Settlement × ProxyServer H :=
  applyMessage decode (fun e ps => applyTargetEvent codec fails ps e) data ps

/-- The hostnames of an event's config: those it names, or else those of the event. -/
def hostnames (e : TargetEvent) (target : TargetConfig R) : List Str :=
  if target.names = [] then parseServerNames e.serverName else target.names

/-- The target store reflects an event. -/
def Reflects (codec : Codec R) (ps : ProxyServer H) (e : TargetEvent) : Prop :=
  if e.deleted then ps.row e.serverName = none
  else ∃ target data, e.config.bind codec.unmarshalJSON = some target ∧
    codec.marshalYAML target = some data ∧ ∀ host ∈ hostnames e target, ps.row host = some data

/-- Acknowledged means applied. -/
structure SettledRight (codec : Codec R) (decode : Str → Option TargetEvent) (fails : Nat → Bool)
    (data : Str) (ps : ProxyServer H) : Prop where
  /-- The store reflects an event that is acknowledged. -/
  acked : (settle codec decode fails data ps).1 = .ack →
    ∃ e, decode data = some e ∧ Reflects codec (settle codec decode fails data ps).2 e
  /-- An event the store does not reflect is delivered again. -/
  naked : ∀ e, decode data = some e → ¬ Reflects codec (settle codec decode fails data ps).2 e →
    (settle codec decode fails data ps).1 = .nak
  termed : decode data = none → (settle codec decode fails data ps).1 = .term

theorem reflects_of_applyTargetEvent_ok {codec : Codec R} {fails : Nat → Bool}
    {ps : ProxyServer H} {e : TargetEvent} (hupdate : e.deleted = false)
    (hok : (applyTargetEvent codec fails ps e).1 = .ok ()) :
    Reflects codec (applyTargetEvent codec fails ps e).2 e := by
  unfold Reflects
  rw [hupdate, if_neg Bool.false_ne_true]
  cases htarget : e.config.bind codec.unmarshalJSON with
  | none => simp [applyTargetEvent, hupdate, htarget] at hok
  | some target =>
    have happly : applyTargetEvent codec fails ps e =
        applyTargetUpdate codec fails e.serverName target ps := by
      simp [applyTargetEvent, hupdate, htarget]
    rw [happly] at hok ⊢
    cases hstore : ps.targetStore with
    | none => simp [applyTargetUpdate, hstore] at hok
    | some store =>
      by_cases hnames : hostnames e target = []
      · have hnone : applyTargetUpdate codec fails e.serverName target ps =
            (.error (.noServerName e.serverName), ps) := by
          simp only [applyTargetUpdate, hstore]
          exact if_pos hnames
        simp [hnone] at hok
      · cases hdata : codec.marshalYAML target with
        | none =>
          have hrefused : applyTargetUpdate codec fails e.serverName target ps =
              (.error (.marshal e.serverName), ps) := by
            simp only [applyTargetUpdate, hstore, hdata]
            exact if_neg hnames
          simp [hrefused] at hok
        | some data =>
          have hput : applyTargetUpdate codec fails e.serverName target ps =
              putAll e.serverName data fails (hostnames e target) store ps.lazyLRU := by
            simp only [applyTargetUpdate, hstore, hdata]
            exact if_neg hnames
          rw [hput] at hok ⊢
          obtain ⟨written, -, hall, hrow⟩ := @row_putAll H e.serverName data fails
            (hostnames e target) store ps.lazyLRU
          refine ⟨target, data, rfl, hdata, fun host hhost => ?_⟩
          rw [hrow host, hall hok, if_pos hhost]

/-- A deletion is not reflected exactly when the store refuses it and holds the
hostname. -/
theorem reflects_delete_iff {codec : Codec R} {fails : Nat → Bool} {ps : ProxyServer H}
    {e : TargetEvent} (hdelete : e.deleted = true) :
    Reflects codec (applyTargetEvent codec fails ps e).2 e ↔
      ¬ (fails 0 = true ∧ (ps.row e.serverName).isSome) := by
  have happly : applyTargetEvent codec fails ps e =
      (.ok (), applyTargetDelete fails e.serverName ps) := by simp [applyTargetEvent, hdelete]
  unfold Reflects
  rw [hdelete, if_pos rfl, happly]
  cases hstore : ps.targetStore with
  | none => simp [applyTargetDelete, ProxyServer.row, hstore]
  | some store =>
    rw [row_applyTargetDelete hstore]
    cases fails 0 with
    | true | false => simp

/-- Acknowledged means applied, for a message and a pattern of store failures, if and
only if the message is not the deletion of a stored hostname whose store operation
fails. -/
theorem settledRight_iff {codec : Codec R} {decode : Str → Option TargetEvent}
    {fails : Nat → Bool} {data : Str} {ps : ProxyServer H} :
    SettledRight codec decode fails data ps ↔
      ∀ e, decode data = some e → e.deleted = true →
        ¬ (fails 0 = true ∧ (ps.row e.serverName).isSome) := by
  constructor
  · intro hright e hdecode hdelete
    have hack : settle codec decode fails data ps =
        (.ack, (applyTargetEvent codec fails ps e).2) := by
      simp [settle, applyMessage, hdecode, applyTargetEvent, hdelete]
    obtain ⟨e', hdecode', hreflects⟩ := hright.acked (by rw [hack])
    obtain rfl : e = e' := Option.some.inj (hdecode.symm.trans hdecode')
    rw [hack] at hreflects
    exact (reflects_delete_iff hdelete).mp hreflects
  · intro hcondition
    cases hdecode : decode data with
    | none =>
      have hterm : (settle codec decode fails data ps).1 = .term :=
        applyMessage_term_iff.mpr hdecode
      refine ⟨fun hack => ?_, fun e he => ?_, fun _ => hterm⟩
      · simp [hterm] at hack
      · simp [hdecode] at he
    | some e =>
      have hsettle : settle codec decode fails data ps =
          (if (applyTargetEvent codec fails ps e).1.toBool then .ack else .nak,
            (applyTargetEvent codec fails ps e).2) := applyMessage_of_decode hdecode ps
      -- Whenever the handler returns nil the event is reflected.
      have hreflects : (applyTargetEvent codec fails ps e).1.toBool = true →
          Reflects codec (applyTargetEvent codec fails ps e).2 e := by
        intro hok
        cases hdelete : e.deleted with
        | true => exact (reflects_delete_iff hdelete).mpr (hcondition e hdecode hdelete)
        | false =>
          refine reflects_of_applyTargetEvent_ok hdelete ?_
          cases hresult : (applyTargetEvent codec fails ps e).1 with
          | ok => rfl
          | error err => simp [hresult, Except.toBool] at hok
      refine ⟨?_, ?_, fun hnone => by simp [hdecode] at hnone⟩
      · intro hack
        refine ⟨e, hdecode, ?_⟩
        rw [hsettle] at hack ⊢
        exact hreflects (by simpa using hack)
      · intro e' hdecode' hnot
        obtain rfl : e = e' := Option.some.inj (hdecode.symm.trans hdecode')
        rw [hsettle] at hnot ⊢
        exact if_neg fun hok => hnot (hreflects hok)

def storedEdge : ProxyServer Unit :=
  ⟨some ((∅ : Map Str Str).insert (str "a.example") (str "a.example")), .new 8⟩

/-- The store refuses the deletion of a hostname, and the message is acknowledged. -/
theorem refused_deletion_not_settledRight :
    deletionDecode deletionMessage = some (.tombstone (str "a.example")) ∧
    (settle nameCodec deletionDecode (fun _ => true) deletionMessage storedEdge).1 = .ack ∧
    (settle nameCodec deletionDecode (fun _ => true) deletionMessage storedEdge).2.row
      (str "a.example") = some (str "a.example") ∧
    ¬ SettledRight nameCodec deletionDecode (fun _ => true) deletionMessage storedEdge := by
  refine ⟨by decide, by decide, by decide, ?_⟩
  intro hright
  obtain ⟨e, hdecode, hreflects⟩ := hright.acked (by decide)
  cases hdecode
  exact (reflects_delete_iff rfl).mp hreflects ⟨rfl, rfl⟩

end Peretum.Edge
