import Peretum.ControlPlane.Reconcile
import Peretum.Edge.Apply

/-!
# Building a store by replay

A new edge gets its configuration by applying the retained messages of the
stream. One message writes every hostname of its config and not just its own,
so the order of the replay could matter. This file shows that after successful
syncs of directories whose targets share no hostname it does not: whatever the
order, every message writes what the last directory says.
-/

namespace Peretum.Edge

open Go Config Cluster ControlPlane

variable {R H : Type}

variable (codec : Codec R)

/-- The row the targets of a directory call for. -/
def wantedRow (targets : List (TargetConfig R)) (host : Str) : Option Str :=
  (owner targets host).bind codec.marshalYAML

/-- Apply messages in order to a store that does not fail. -/
def applyAll (ps : ProxyServer H) (messages : List TargetEvent) : ProxyServer H :=
  messages.foldl (fun ps e => (applyTargetEvent codec noFailure ps e).2) ps

/-- A message carries what the directory says about its hostname. -/
structure Agrees (targets : List (TargetConfig R)) (e : TargetEvent) : Prop where
  /-- The message is one the control plane publishes. -/
  plain : e.Plain
  value : e.value = directoryMap codec targets e.serverName

/-- A message that agrees with a directory of disjoint targets writes the wanted row
of its own hostname, and writes no other row or the wanted one. -/
theorem Agrees.row_apply {codec : Codec R} (hcodec : codec.Lossless)
    {targets : List (TargetConfig R)} (hreads : ∀ t ∈ targets, codec.Reads t)
    (hdisjoint : DisjointNames targets) {e : TargetEvent} (he : Agrees codec targets e)
    {ps : ProxyServer H} (hstore : ps.targetStore.isSome)
    (host : Str) :
    ((applyTargetEvent codec noFailure ps e).2.row host = wantedRow codec targets host) ∨
      (host ≠ e.serverName ∧ (applyTargetEvent codec noFailure ps e).2.row host = ps.row host) := by
  obtain ⟨store, hstore⟩ := Option.isSome_iff_exists.mp hstore
  cases howner : owner targets e.serverName with
  | none =>
    have hnone : e.value = none := by rw [he.value, directoryMap, howner]; rfl
    have hrow := row_applyTargetDelete hstore noFailure e.serverName host
    have happly : applyTargetEvent codec noFailure ps e =
        (.ok (), applyTargetDelete noFailure e.serverName ps) := by
      rw [he.plain.eq_tombstone hnone]
      rfl
    rw [happly, hrow]
    by_cases hhost : host = e.serverName
    · left
      rw [if_pos ⟨rfl, hhost⟩, wantedRow, hhost, howner]
      rfl
    · right
      exact ⟨hhost, if_neg (fun h => hhost h.2)⟩
  | some t =>
    obtain ⟨ht, hname⟩ := mem_of_owner howner
    obtain ⟨data, hdata, hjson⟩ := hcodec.json t (hreads t ht)
    obtain ⟨yaml, hyaml, -⟩ := hcodec.yaml t (hreads t ht)
    have hvalue : e.value = some data := by
      rw [he.value, directoryMap, howner]
      exact hdata
    have hnames : t.names ≠ [] := List.ne_nil_of_mem hname
    obtain ⟨written, -, -, hall, hrow⟩ := @row_applyTargetEvent_upsert R H codec noFailure ps store
      hstore e.serverName data yaml t hjson hnames hyaml
    rw [← he.plain.eq_upsert hvalue, hall rfl] at hrow
    rw [hrow host]
    by_cases hhost : host ∈ t.names
    · left
      rw [if_pos hhost, wantedRow, hdisjoint.owner_eq ht hhost]
      exact hyaml.symm
    · right
      exact ⟨fun h => hhost (h ▸ hname), if_neg hhost⟩

/-- A replay of messages that agree with the directory gives a hostname its wanted
row, when the hostname has a message or the row is there from the start. -/
theorem row_applyAll {codec : Codec R} (hcodec : codec.Lossless) {targets : List (TargetConfig R)}
    (hreads : ∀ t ∈ targets, codec.Reads t) (hdisjoint : DisjointNames targets)
    {messages : List TargetEvent}
    (hagree : ∀ e ∈ messages, Agrees codec targets e) {ps : ProxyServer H}
    (hstore : ps.targetStore.isSome) {host : Str}
    (hcover : ps.row host = wantedRow codec targets host ∨ ∃ e ∈ messages, e.serverName = host) :
    (applyAll codec ps messages).row host = wantedRow codec targets host := by
  induction messages generalizing ps with
  | nil =>
    rcases hcover with hrow | ⟨e, he, -⟩
    · exact hrow
    · cases he
  | cons e messages ih =>
    refine ih (fun e' he' => hagree e' (List.mem_cons_of_mem _ he'))
      (targetStore_applyTargetEvent hstore) ?_
    rcases (hagree e List.mem_cons_self).row_apply hcodec hreads hdisjoint hstore host with
      hwanted | ⟨hother, hsame⟩
    · exact .inl hwanted
    · rcases hcover with hrow | ⟨e', he', hname⟩
      · exact .inl (hsame.trans hrow)
      · rcases List.mem_cons.mp he' with rfl | hmem
        · exact absurd hname.symm hother
        · exact .inr ⟨e', hmem, hname⟩

/-- The syncs of a history in which every sync succeeds and the targets of a directory
share no hostname. -/
def SuccessfulSync (s : Lifetime R) (a : Attempt) : Prop :=
  (a.run codec s).result = .ok () ∧
    ∀ targets, loadTargets codec a.dir = .ok targets → DisjointNames targets

/-- What such a history leaves behind. -/
structure Synced (s : Lifetime R) : Prop where
  accounted : Accounted codec s
  /-- No failed sync left anything. -/
  settled : s.unsettled = []
  disjoint : DisjointNames s.last
  /-- The targets were read from the directory. -/
  reads : ∀ t ∈ s.last, codec.Reads t
  plain : ∀ subject e, s.published.stream.lookup subject = some e → e.Plain

theorem synced_init : Synced codec (Lifetime.init : Lifetime R) :=
  ⟨accounted_init codec, rfl, List.Pairwise.nil, nofun,
    by simp [Lifetime.init, Published.init]⟩

theorem Synced.step {codec : Codec R} (s : Lifetime R) (a : Attempt) (t : Lifetime R)
    (hs : Synced codec s) (hguard : SuccessfulSync codec s a)
    (hstep : attemptStep codec s a = some t) : Synced codec t := by
  obtain ⟨hok, hdirectory⟩ := hguard
  have haccounted := hs.accounted.step s a t trivial hstep
  obtain ⟨targets, next, hload, -, -, hstored⟩ := exists_of_syncAll_ok hok
  obtain rfl : _ = t := by simpa [attemptStep, hok, hload] using hstep
  refine ⟨haccounted, ?_, hdirectory targets hload,
    fun t ht => exists_data_of_mem_loadTargets hload ht, ?_⟩
  · simp [hs.settled]
  · refine Stream.plain_storeAll hs.plain ?_
    intro e he
    rw [hstored] at he
    exact plain_of_mem_plan he

/-- The retained messages of such a history agree with the last directory. -/
theorem Synced.agrees {codec : Codec R} {s : Lifetime R} (hs : Synced codec s) {e : TargetEvent}
    (he : e ∈ Stream.retained s.published.stream) : Agrees codec s.last e := by
  obtain ⟨subject, hlookup⟩ := Stream.mem_retained.mp he
  obtain rfl := hs.accounted.addressed subject e hlookup
  refine ⟨hs.plain _ e hlookup, ?_⟩
  have hlive := hs.accounted.live e.serverName
  rw [hs.settled] at hlive
  simpa [Stream.live, hlookup, Stream.lastFor] using hlive

/-- After every history of successful syncs of directories whose targets claim
disjoint sets of hostnames, an edge with an empty store that applies the
retained messages in any order ends with exactly the hostnames and configs of the
last directory. -/
theorem replay_eq_last_directory {codec : Codec R} (hcodec : codec.Lossless) {s : Lifetime R}
    (hreach : Runs.Reaches (attemptStep codec) (SuccessfulSync codec) Lifetime.init s)
    {messages : List TargetEvent} (horder : messages.Perm (Stream.retained s.published.stream))
    {ps : ProxyServer H} (hempty : ps.targetStore = some ∅) (host : Str) :
    (applyAll codec ps messages).row host = (owner s.last host).bind codec.marshalYAML := by
  have hs := hreach.invariant Synced.step (synced_init codec)
  refine row_applyAll hcodec hs.reads hs.disjoint (fun e he => hs.agrees (horder.subset he))
    (by simp [hempty]) ?_
  cases howner : owner s.last host with
  | none =>
    simp [ProxyServer.row, hempty, wantedRow, howner]
  | some t =>
    right
    obtain ⟨data, hdata, -⟩ := hcodec.json t (hs.reads t (mem_of_owner howner).1)
    have hlive := hs.accounted.live host
    rw [hs.settled] at hlive
    simp only [Stream.lastFor, List.reverse_nil, List.find?_nil, directoryMap, howner,
      Option.bind_some, hdata] at hlive
    obtain ⟨e, hlookup, -⟩ := Option.bind_eq_some_iff.mp hlive
    refine ⟨e, horder.symm.subset (Stream.mem_retained.mpr ⟨_, hlookup⟩), ?_⟩
    exact (targetSubject_inj.mp (hs.accounted.addressed _ e hlookup)).symm

/-- A target loses a hostname, another target takes it, and a third hostname goes. -/
def movingHistory : List Attempt :=
  [⟨.entries, allAcked, twoTargets "a.example,b.example" "c.example"⟩,
    ⟨.entries, allAcked, twoTargets "a.example" "b.example"⟩]

def movingState : Lifetime Unit :=
  (Runs.exec (attemptStep nameCodec) Lifetime.init movingHistory).get rfl

theorem movingHistory_admitted :
    Runs.Admitted (attemptStep nameCodec) (SuccessfulSync nameCodec) Lifetime.init
      movingHistory := by
  refine .cons ⟨rfl, ?_⟩ rfl (.cons ⟨rfl, ?_⟩ rfl trivial)
  · intro targets hload
    obtain rfl : _ = targets := Except.ok.inj hload
    exact disjointNames_pair (by decide)
  · intro targets hload
    obtain rfl : _ = targets := Except.ok.inj hload
    exact disjointNames_pair (by decide)

def emptyEdge : ProxyServer Unit := ⟨some ∅, .new 8⟩

/-- Replaying the retained messages backwards on an empty edge gives the two hostnames
of the last directory and not the third. -/
theorem movingState_replay :
    (applyAll nameCodec emptyEdge
      (Stream.retained movingState.published.stream).reverse).row (str "b.example") =
        some (str "b.example") ∧
    (applyAll nameCodec emptyEdge
      (Stream.retained movingState.published.stream).reverse).row (str "c.example") = none := by
  have hempty : emptyEdge.targetStore = some ∅ := rfl
  have hreplay := replay_eq_last_directory nameCodec_lossless
    (Runs.reaches_get movingHistory_admitted)
    (List.reverse_perm (Stream.retained movingState.published.stream)) hempty
  exact ⟨hreplay (str "b.example"), hreplay (str "c.example")⟩

end Peretum.Edge
