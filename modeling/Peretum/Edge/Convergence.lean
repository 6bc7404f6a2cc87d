import Peretum.Edge.Live

/-!
# Convergence of a live edge

Whatever the interleaving of publications and deliveries, the rows of the edge
agree with the stream for every hostname whose message was applied, as long as
no update is delivered again after a newer message of one of its hostnames. Two
invariants carry this: one relates the publisher's map to the stream, the other
the stream to the rows. A run that breaks the condition once leaves a deleted
hostname behind.
-/

namespace Peretum.Edge

open Go Config Cluster ControlPlane

variable {R H : Type}

/-- The sync in progress has still to publish an event for the hostname. -/
def Live.Pending (s : Live R H) (host : Str) : Prop :=
  ∃ events, s.left = some events ∧ ∃ e ∈ events, e.serverName = host

/-- The config the stream has for a hostname. -/
def Live.value (s : Live R H) (host : Str) : Option Str :=
  (s.retained.lookup host).bind (fun m => m.event.value)

/-- The row a published config leads to. -/
def rowOf (codec : Codec R) (value : Option Str) : Option Str :=
  value.bind fun data => (codec.unmarshalJSON data).bind codec.marshalYAML

variable {codec : Codec R} {host data : Str} {s : Live R H} {e : TargetEvent}
  {events : List TargetEvent} {m : Message} {t : TargetConfig R}

theorem rowOf_directoryMap (hcodec : codec.Lossless) {targets : List (TargetConfig R)}
    (hreads : ∀ t ∈ targets, codec.Reads t) (host : Str) :
    rowOf codec (directoryMap codec targets host) = wantedRow codec targets host := by
  unfold rowOf directoryMap wantedRow
  cases howner : owner targets host with
  | none => rfl
  | some t =>
    obtain ⟨data, hdata, hjson⟩ := hcodec.json t (hreads t (mem_of_owner howner).1)
    simp [hdata, hjson]

theorem exists_owner_of_directoryMap (hcodec : codec.Lossless) {targets : List (TargetConfig R)}
    (hreads : ∀ t ∈ targets, codec.Reads t)
    (hvalue : directoryMap codec targets host = some data) :
    ∃ t, owner targets host = some t ∧ codec.marshalJSON t = some data ∧
      codec.unmarshalJSON data = some t := by
  obtain ⟨t, howner, hdata⟩ := Option.bind_eq_some_iff.mp hvalue
  obtain ⟨data', hdata', hjson⟩ := hcodec.json t (hreads t (mem_of_owner howner).1)
  obtain rfl : data = data' := by simpa [hdata] using hdata'
  exact ⟨t, howner, hdata, hjson⟩

/-- What holds between publisher and stream in every state. -/
structure StreamInv (codec : Codec R) (s : Live R H) : Prop where
  /-- Sequence numbers have been handed out. -/
  bound : ∀ host m, s.retained.lookup host = some m → m.seq ≤ s.lastSeq
  /-- Every message has its own number. -/
  unique : ∀ host host' m m', s.retained.lookup host = some m →
    s.retained.lookup host' = some m' → m.seq = m'.seq → host = host'
  plain : ∀ host m, s.retained.lookup host = some m →
    m.event.Plain ∧ m.event.serverName = host
  disjoint : DisjointNames s.targets
  /-- The targets were read from the directory. -/
  reads : ∀ t ∈ s.targets, codec.Reads t
  next : ∀ host, s.next.lookup host = directoryMap codec s.targets host
  memory : s.left = none → ∀ host, s.byName.lookup host = s.next.lookup host
  left : ∀ events, s.left = some events → ∀ e ∈ events,
    e.Plain ∧ e.value = s.next.lookup e.serverName
  /-- The stream has that map, up to the events left. -/
  value : ∀ host, s.Pending host ∨ s.value host = s.next.lookup host
  /-- A message with a config is on a hostname of that config. For each hostname of
  the config an event is left, or the stream has a newer message or the same config. -/
  claims : ∀ host m data t, s.retained.lookup host = some m → m.event.value = some data →
    codec.unmarshalJSON data = some t → host ∈ t.names ∧ ∀ h ∈ t.names, s.Pending h ∨
      ∃ m', s.retained.lookup h = some m' ∧ (m.seq ≤ m'.seq ∨ m'.event.value = some data)
  /-- The config of a message was read from the directory. -/
  decodes : ∀ host m data, s.retained.lookup host = some m → m.event.value = some data →
    ∃ t, codec.unmarshalJSON data = some t ∧ codec.Reads t

/-- What holds between stream and edge in every state. -/
structure EdgeInv (codec : Codec R) (s : Live R H) : Prop where
  store : s.edge.targetStore.isSome
  delivered : ∀ seq, s.applied seq = true → seq ≤ s.cursor
  cursor : s.cursor ≤ s.lastSeq
  /-- A hostname whose message was applied has its config, unless an event is left. -/
  applied : ∀ host m, s.retained.lookup host = some m → s.applied m.seq = true →
    s.Pending host ∨ s.edge.row host = rowOf codec m.event.value
  /-- A hostname without a message has no row, unless an event is left. -/
  absent : ∀ host, s.retained.lookup host = none → s.Pending host ∨ s.edge.row host = none

theorem streamInv_init (codec : Codec R) (lru : LRUCache Str H) :
    StreamInv codec (Live.init lru : Live R H) where
  bound := by simp [Live.init]
  unique := by simp [Live.init]
  plain := by simp [Live.init]
  disjoint := List.Pairwise.nil
  reads := nofun
  next := by simp [Live.init, directoryMap, owner]
  memory := by simp [Live.init]
  left := by simp [Live.init]
  value := by simp [Live.init, Live.value]
  claims := by simp [Live.init]
  decodes := by simp [Live.init]

theorem edgeInv_init (codec : Codec R) (lru : LRUCache Str H) :
    EdgeInv codec (Live.init lru : Live R H) where
  store := rfl
  delivered := by simp [Live.init]
  cursor := Nat.le_refl 0
  applied := by simp [Live.init]
  absent := by simp [Live.init, ProxyServer.row]

theorem Live.not_pending_of_none (hleft : s.left = none) (host : Str) : ¬ s.Pending host := by
  rintro ⟨events, hevents, -⟩
  simp [hleft] at hevents

theorem Live.not_pending_of_nil (hleft : s.left = some []) (host : Str) : ¬ s.Pending host := by
  rintro ⟨events, hevents, e, he, -⟩
  obtain rfl : [] = events := by simpa [hleft] using hevents
  cases he

/-- The state after a sync has been planned. -/
def Live.planned (s : Live R H) (order : RangeOrder) (targets : List (TargetConfig R))
    (next : Map Str Str) : Live R H :=
  { s with targets := targets, next := next, left := some (plan order s.byName next) }

/-- Planning a sync leaves an event for every hostname whose config changes. -/
theorem StreamInv.planned (hs : StreamInv codec s) (hleft : s.left = none) (order : RangeOrder)
    {targets : List (TargetConfig R)} (hdisjoint : DisjointNames targets)
    (hreads : ∀ t ∈ targets, codec.Reads t) {next : Map Str Str}
    (hnext : nextMap codec targets ∅ = .ok next) :
    StreamInv codec (s.planned order targets next) where
  bound := hs.bound
  unique := hs.unique
  plain := hs.plain
  disjoint := hdisjoint
  reads := hreads
  next host := by simpa [Live.planned] using lookup_nextMap hnext host
  memory h := absurd h (by simp [Live.planned])
  left := by
    intro events hevents e he
    cases hevents
    exact ⟨plain_of_mem_plan he, (mem_plan he).1⟩
  value := by
    intro host
    by_cases hsame : next.lookup host = s.byName.lookup host
    · right
      have hvalue := (hs.value host).resolve_left (s.not_pending_of_none hleft host)
      exact hvalue.trans ((hs.memory hleft host).symm.trans hsame.symm)
    · left
      obtain ⟨e, he, hname⟩ := exists_mem_plan order hsame
      exact ⟨_, rfl, e, he, hname⟩
  claims := by
    intro host m data t hm hdata ht
    obtain ⟨hmem, hclaims⟩ := hs.claims host m data t hm hdata ht
    refine ⟨hmem, fun h hh => .inr ?_⟩
    exact (hclaims h hh).resolve_left (s.not_pending_of_none hleft h)
  decodes := hs.decodes

theorem EdgeInv.planned (hs : EdgeInv codec s) (hleft : s.left = none) (order : RangeOrder)
    (targets : List (TargetConfig R)) (next : Map Str Str) :
    EdgeInv codec (s.planned order targets next) where
  store := hs.store
  delivered := hs.delivered
  cursor := hs.cursor
  applied host m hm happlied :=
    .inr ((hs.applied host m hm happlied).resolve_left (s.not_pending_of_none hleft host))
  absent host hnone :=
    .inr ((hs.absent host hnone).resolve_left (s.not_pending_of_none hleft host))

/-- The state after the next event is published. -/
def Live.published (s : Live R H) (e : TargetEvent) (events : List TargetEvent) : Live R H :=
  { s.store e with left := some events }

theorem Live.Pending.published (hleft : s.left = some (e :: events)) (hpending : s.Pending host)
    (hhost : host ≠ e.serverName) : (s.published e events).Pending host := by
  obtain ⟨events', hevents, e', he', hname⟩ := hpending
  obtain rfl : e :: events = events' := by simpa [hleft] using hevents
  rcases List.mem_cons.mp he' with rfl | hmem
  · exact absurd hname.symm hhost
  · exact ⟨events, rfl, e', hmem, hname⟩

theorem Live.lookup_published (s : Live R H) (e : TargetEvent) (events : List TargetEvent)
    (host : Str) :
    (s.published e events).retained.lookup host =
      if host = e.serverName then some ⟨s.lastSeq + 1, e⟩ else s.retained.lookup host := by
  split
  · next h => subst h; exact AList.lookup_insert _
  · next h => exact AList.lookup_insert_ne h

theorem Live.published_cases (hm : (s.published e events).retained.lookup host = some m) :
    (host = e.serverName ∧ m = ⟨s.lastSeq + 1, e⟩) ∨
      (host ≠ e.serverName ∧ s.retained.lookup host = some m) := by
  rw [s.lookup_published] at hm
  split at hm
  · next hhost => exact .inl ⟨hhost, (Option.some.inj hm).symm⟩
  · next hhost => exact .inr ⟨hhost, hm⟩

theorem StreamInv.owner_of_left (hcodec : codec.Lossless) (hs : StreamInv codec s)
    (hleft : s.left = some events) (he : e ∈ events) (hdata : e.value = some data) :
    ∃ t, owner s.targets e.serverName = some t ∧ codec.marshalJSON t = some data ∧
      codec.unmarshalJSON data = some t := by
  apply exists_owner_of_directoryMap hcodec hs.reads
  rw [← hs.next, ← (hs.left events hleft e he).2]
  exact hdata

/-- Every hostname of a published config has the same config on the stream already, or
its event is left. -/
theorem StreamInv.value_of_left (hs : StreamInv codec s) (howner : owner s.targets host = some t)
    (hmarshal : codec.marshalJSON t = some data) {h : Str} (hh : h ∈ t.names) :
    s.Pending h ∨ ∃ m, s.retained.lookup h = some m ∧ m.event.value = some data := by
  rcases hs.value h with hpending | hsame
  · exact .inl hpending
  · right
    have hsome : s.value h = some data := by
      rw [hsame, hs.next, directoryMap, hs.disjoint.owner_eq (mem_of_owner howner).1 hh]
      exact hmarshal
    exact Option.bind_eq_some_iff.mp hsome

/-- The published message claims its hostnames: those of its config have the same config
or an event left. -/
theorem StreamInv.claims_published (hcodec : codec.Lossless) (hs : StreamInv codec s)
    (hleft : s.left = some (e :: events)) (hdata : e.value = some data)
    (ht : codec.unmarshalJSON data = some t) :
    e.serverName ∈ t.names ∧ ∀ h ∈ t.names, (s.published e events).Pending h ∨
      ∃ m', (s.published e events).retained.lookup h = some m' ∧
        (s.lastSeq + 1 ≤ m'.seq ∨ m'.event.value = some data) := by
  obtain ⟨t', howner, hmarshal, hjson⟩ := hs.owner_of_left hcodec hleft List.mem_cons_self hdata
  obtain rfl : t = t' := by simpa [ht] using hjson
  refine ⟨(mem_of_owner howner).2, ?_⟩
  intro h hh
  by_cases hself : h = e.serverName
  · exact .inr ⟨_, by rw [s.lookup_published, if_pos hself], .inl (Nat.le_refl _)⟩
  · rcases hs.value_of_left howner hmarshal hh with hpending | ⟨m', hm', hvalue⟩
    · exact .inl (hpending.published hleft hself)
    · exact .inr ⟨m', by rw [s.lookup_published, if_neg hself, hm'], .inr hvalue⟩

theorem StreamInv.claims_before (hs : StreamInv codec s) (hleft : s.left = some (e :: events))
    (hm : s.retained.lookup host = some m) (hdata : m.event.value = some data)
    (ht : codec.unmarshalJSON data = some t) :
    host ∈ t.names ∧ ∀ h ∈ t.names, (s.published e events).Pending h ∨
      ∃ m', (s.published e events).retained.lookup h = some m' ∧
        (m.seq ≤ m'.seq ∨ m'.event.value = some data) := by
  obtain ⟨hmem, hclaims⟩ := hs.claims host m data t hm hdata ht
  refine ⟨hmem, ?_⟩
  intro h hh
  by_cases hself : h = e.serverName
  · refine .inr ⟨⟨s.lastSeq + 1, e⟩, by rw [s.lookup_published, if_pos hself], .inl ?_⟩
    exact Nat.le_succ_of_le (hs.bound host m hm)
  · rcases hclaims h hh with hpending | ⟨m', hm', hcase⟩
    · exact .inl (hpending.published hleft hself)
    · exact .inr ⟨m', by rw [s.lookup_published, if_neg hself, hm'], hcase⟩

theorem StreamInv.unique_published (hs : StreamInv codec s) {host' : Str} {m' : Message}
    (hm : (s.published e events).retained.lookup host = some m)
    (hm' : (s.published e events).retained.lookup host' = some m') (hseq : m.seq = m'.seq) :
    host = host' := by
  rcases s.published_cases hm with ⟨rfl, rfl⟩ | ⟨-, hm⟩
  · rcases s.published_cases hm' with ⟨rfl, -⟩ | ⟨-, hm'⟩
    · rfl
    · have hbound := hs.bound host' m' hm'
      simp only at hseq
      omega
  · have hbound := hs.bound host m hm
    rcases s.published_cases hm' with ⟨-, rfl⟩ | ⟨-, hm'⟩
    · simp only at hseq
      omega
    · exact hs.unique host host' m m' hm hm' hseq

theorem StreamInv.published (hcodec : codec.Lossless) (hs : StreamInv codec s)
    (hleft : s.left = some (e :: events)) : StreamInv codec (s.published e events) where
  bound := by
    intro host m hm
    rcases s.published_cases hm with ⟨-, rfl⟩ | ⟨-, hm⟩
    · exact Nat.le_refl _
    · exact Nat.le_succ_of_le (hs.bound host m hm)
  unique _ _ _ _ := hs.unique_published
  plain := by
    intro host m hm
    rcases s.published_cases hm with ⟨rfl, rfl⟩ | ⟨-, hm⟩
    · exact ⟨(hs.left _ hleft e List.mem_cons_self).1, rfl⟩
    · exact hs.plain host m hm
  disjoint := hs.disjoint
  reads := hs.reads
  next := hs.next
  memory h := absurd h (by simp [Live.published])
  left := by
    intro events' hevents e' he'
    cases hevents
    exact hs.left _ hleft e' (List.mem_cons_of_mem _ he')
  value := by
    intro host
    simp only [Live.value, s.lookup_published]
    split
    · next hhost => exact .inr (hhost ▸ (hs.left _ hleft e List.mem_cons_self).2)
    · next hhost => exact (hs.value host).imp_left (·.published hleft hhost)
  claims := by
    intro host m data t hm hdata ht
    rcases s.published_cases hm with ⟨rfl, rfl⟩ | ⟨-, hm⟩
    · exact hs.claims_published hcodec hleft hdata ht
    · exact hs.claims_before hleft hm hdata ht
  decodes := by
    intro host m data hm hdata
    rcases s.published_cases hm with ⟨rfl, rfl⟩ | ⟨-, hm⟩
    · obtain ⟨t, howner, -, hjson⟩ := hs.owner_of_left hcodec hleft List.mem_cons_self hdata
      exact ⟨t, hjson, hs.reads t (mem_of_owner howner).1⟩
    · exact hs.decodes host m data hm hdata

theorem EdgeInv.published (hs : EdgeInv codec s) (hleft : s.left = some (e :: events)) :
    EdgeInv codec (s.published e events) where
  store := hs.store
  delivered := hs.delivered
  cursor := Nat.le_succ_of_le hs.cursor
  applied := by
    intro host m hm happlied
    rcases s.published_cases hm with ⟨-, rfl⟩ | ⟨hhost, hm⟩
    · have hle : s.lastSeq + 1 ≤ s.cursor := hs.delivered _ happlied
      have hcursor := hs.cursor
      omega
    · exact (hs.applied host m hm happlied).imp_left (·.published hleft hhost)
  absent := by
    intro host hnone
    rw [s.lookup_published] at hnone
    split at hnone
    · cases hnone
    · next hhost => exact (hs.absent host hnone).imp_left (·.published hleft hhost)

/-- The state after a sync is finished. -/
def Live.finished (s : Live R H) : Live R H := { s with byName := s.next, left := none }

theorem StreamInv.finished (hs : StreamInv codec s) (hleft : s.left = some []) :
    StreamInv codec s.finished where
  bound := hs.bound
  unique := hs.unique
  plain := hs.plain
  disjoint := hs.disjoint
  reads := hs.reads
  next := hs.next
  memory _ _ := rfl
  left := by simp [Live.finished]
  value host := .inr ((hs.value host).resolve_left (s.not_pending_of_nil hleft host))
  claims := by
    intro host m data t hm hdata ht
    obtain ⟨hmem, hclaims⟩ := hs.claims host m data t hm hdata ht
    refine ⟨hmem, fun h hh => .inr ?_⟩
    exact (hclaims h hh).resolve_left (s.not_pending_of_nil hleft h)
  decodes := hs.decodes

theorem EdgeInv.finished (hs : EdgeInv codec s) (hleft : s.left = some []) :
    EdgeInv codec s.finished where
  store := hs.store
  delivered := hs.delivered
  cursor := hs.cursor
  applied host m hm happlied :=
    .inr ((hs.applied host m hm happlied).resolve_left (s.not_pending_of_nil hleft host))
  absent host hnone :=
    .inr ((hs.absent host hnone).resolve_left (s.not_pending_of_nil hleft host))

theorem StreamInv.handle (hs : StreamInv codec s) (cursor : Nat) (m : Message) (fails : Nat → Bool)
    (ackSent : Bool) : StreamInv codec ({ s with cursor := cursor }.handle codec m fails ackSent) :=
  { hs with }

/-- What applying the retained message of a hostname does to the rows: the message's
own row is right when it succeeds, a row of another hostname of its config may be
set to that config, and everything else stays. -/
theorem row_handle (hcodec : codec.Lossless) (hstream : StreamInv codec s)
    (hstore : s.edge.targetStore.isSome) (hm : s.retained.lookup host = some m)
    (fails : Nat → Bool) :
    (succeeded m.event fails (applyTargetEvent codec fails s.edge m.event).1 = true →
      (applyTargetEvent codec fails s.edge m.event).2.row host = rowOf codec m.event.value) ∧
    ∀ h, (applyTargetEvent codec fails s.edge m.event).2.row h = s.edge.row h ∨
      ((applyTargetEvent codec fails s.edge m.event).2.row h = rowOf codec m.event.value ∧
        (h = host ∨ ∃ data t, m.event.value = some data ∧ codec.unmarshalJSON data = some t ∧
          h ∈ t.names)) := by
  obtain ⟨store, hstore⟩ := Option.isSome_iff_exists.mp hstore
  obtain ⟨hplain, rfl⟩ := hstream.plain host m hm
  cases hvalue : m.event.value with
  | none =>
    have happly : applyTargetEvent codec fails s.edge m.event =
        (.ok (), applyTargetDelete fails m.event.serverName s.edge) := by
      rw [hplain.eq_tombstone hvalue]
      rfl
    have hrow := row_applyTargetDelete hstore fails m.event.serverName
    rw [happly]
    constructor
    · intro hsucceeded
      have hdeleted : m.event.deleted = true := by rw [hplain.eq_tombstone hvalue]; rfl
      have hfails : fails 0 = false := by simpa [succeeded, hdeleted] using hsucceeded
      simp [hrow, hfails, rowOf]
    · intro h
      rw [hrow h]
      split
      · next hboth => exact .inr ⟨rfl, .inl hboth.2⟩
      · exact .inl rfl
  | some data =>
    obtain ⟨t, hjson, hreads⟩ := hstream.decodes _ m data hm hvalue
    obtain ⟨yaml, hyaml, -⟩ := hcodec.yaml t hreads
    have hname := (hstream.claims _ m data t hm hvalue hjson).1
    obtain ⟨written, hsub, hall, -, hrow⟩ := @row_applyTargetEvent_upsert R H codec fails s.edge
      store hstore m.event.serverName data yaml t hjson (List.ne_nil_of_mem hname) hyaml
    rw [← hplain.eq_upsert hvalue] at hall hrow
    have hwanted : rowOf codec (some data) = some yaml := by simp [rowOf, hjson, hyaml]
    rw [hwanted]
    constructor
    · intro hsucceeded
      have hok : (applyTargetEvent codec fails s.edge m.event).1 = .ok () := by
        cases hresult : (applyTargetEvent codec fails s.edge m.event).1 with
        | error e => simp [succeeded, hresult] at hsucceeded
        | ok u => rfl
      rw [hrow, hall hok, if_pos hname]
    · intro h
      rw [hrow h]
      split
      · next hwritten => exact .inr ⟨rfl, .inr ⟨data, t, rfl, hjson, hsub hwritten⟩⟩
      · exact .inl rfl

/-- What applying a message does to the row of another hostname. A row that is
overwritten belongs to a hostname of the config, so the stream has the same config
for it or a message that is not older, or an event is left. -/
theorem row_handle_of_ne (hcodec : codec.Lossless) (hstream : StreamInv codec s)
    (hstore : s.edge.targetStore.isSome) (hm : s.retained.lookup host = some m) (fails : Nat → Bool)
    {h : Str} (hhost : h ≠ host) :
    s.Pending h ∨ (applyTargetEvent codec fails s.edge m.event).2.row h = s.edge.row h ∨
      ((applyTargetEvent codec fails s.edge m.event).2.row h = rowOf codec m.event.value ∧
        ∃ data t m', m.event.value = some data ∧ codec.unmarshalJSON data = some t ∧
          h ∈ t.names ∧ s.retained.lookup h = some m' ∧
          (m.seq ≤ m'.seq ∨ m'.event.value = m.event.value)) := by
  rcases (row_handle hcodec hstream hstore hm fails).2 h with hrow | ⟨hrow, hcase⟩
  · exact .inr (.inl hrow)
  · obtain ⟨data, t, hvalue, hjson, hmem⟩ := hcase.resolve_left hhost
    rcases (hstream.claims host m data t hm hvalue hjson).2 h hmem with
      hpending | ⟨m', hm', hclaim⟩
    · exact .inl hpending
    · exact .inr (.inr ⟨hrow, data, t, m', hvalue, hjson, hmem, hm', hvalue ▸ hclaim⟩)

/-- The row of the message's own hostname after handling it, when it is applied. -/
theorem EdgeInv.row_self (hcodec : codec.Lossless) (hs : EdgeInv codec s)
    (hstream : StreamInv codec s) (hm : s.retained.lookup host = some m) {fails : Nat → Bool}
    (happlied : s.applied m.seq = true ∨
      succeeded m.event fails (applyTargetEvent codec fails s.edge m.event).1 = true) :
    s.Pending host ∨
      (applyTargetEvent codec fails s.edge m.event).2.row host = rowOf codec m.event.value := by
  obtain ⟨hself, hrows⟩ := row_handle hcodec hstream hs.store hm fails
  rcases happlied with hbefore | hsucceeded
  · rcases hrows host with hrow | ⟨hrow, -⟩
    · exact (hs.applied host m hm hbefore).imp_right hrow.trans
    · exact .inr hrow
  · exact .inr (hself hsucceeded)

/-- Handling the retained message of a hostname keeps the edge in step, when no newer
message has been applied to one of the hostnames of its config. -/
theorem EdgeInv.handle (hcodec : codec.Lossless) (hs : EdgeInv codec s)
    (hstream : StreamInv codec s) (hm : s.retained.lookup host = some m) {cursor : Nat}
    (hcursor : s.cursor ≤ cursor) (hseq : m.seq ≤ cursor) (hlast : cursor ≤ s.lastSeq)
    (hnewest : ∀ data t, m.event.value = some data → codec.unmarshalJSON data = some t →
      ∀ h ∈ t.names, ∀ m', s.retained.lookup h = some m' → s.applied m'.seq = true →
        m'.seq ≤ m.seq) (fails : Nat → Bool) (ackSent : Bool) :
    EdgeInv codec ({ s with cursor := cursor }.handle codec m fails ackSent) where
  store := targetStore_applyTargetEvent hs.store
  cursor := hlast
  delivered := by
    intro seq happlied
    by_cases hsame : seq = m.seq
    · exact hsame ▸ hseq
    · have hbefore : s.applied seq = true := by
        simpa [Live.handle, Function.update_of_ne hsame] using happlied
      exact (hs.delivered seq hbefore).trans hcursor
  applied := by
    intro h m' hm' happlied
    by_cases hhost : h = host
    · subst hhost
      obtain rfl : m = m' := Option.some.inj (hm.symm.trans hm')
      exact hs.row_self hcodec hstream hm (by simpa [Live.handle] using happlied)
    · have hne : m'.seq ≠ m.seq := fun heq => hhost (hstream.unique h host m' m hm' hm heq)
      have hbefore : s.applied m'.seq = true := by
        simpa [Live.handle, Function.update_of_ne hne] using happlied
      rcases row_handle_of_ne hcodec hstream hs.store hm fails hhost with
        hpending | hrow | ⟨hrow, data, t, m'', hvalue, hjson, hmem, hm'', hclaim⟩
      · exact .inl hpending
      · exact (hs.applied h m' hm' hbefore).imp_right hrow.trans
      · obtain rfl : m' = m'' := Option.some.inj (hm'.symm.trans hm'')
        have hle := hnewest data t hvalue hjson h hmem m' hm' hbefore
        have hsame := hclaim.resolve_left fun hnewer => hne (Nat.le_antisymm hle hnewer)
        exact .inr (hrow.trans (by rw [hsame]))
  absent := by
    intro h hnone
    have hhost : h ≠ host := by
      rintro rfl
      exact absurd (hm.symm.trans hnone) (by simp)
    rcases row_handle_of_ne hcodec hstream hs.store hm fails hhost with
      hpending | hrow | ⟨-, -, -, m', -, -, -, hm', -⟩
    · exact .inl hpending
    · exact (hs.absent h hnone).imp_right hrow.trans
    · exact absurd (hm'.symm.trans hnone) (by simp)

/-- The next message is newer than everything applied. -/
theorem Live.lt_of_isNext {seq : Nat} (hnext : s.isNext seq = true) : s.cursor < seq := by
  simp only [Live.isNext, Bool.and_eq_true, decide_eq_true_eq] at hnext
  exact hnext.1

/-- Every step of an undisturbed run keeps publisher, stream and edge in step. -/
theorem liveInv_step (hcodec : codec.Lossless) (s : Live R H) (a : LiveAction) (t : Live R H)
    (hs : StreamInv codec s ∧ EdgeInv codec s) (hguard : NotOvertaken codec s a)
    (hstep : liveStep codec s a = some t) : StreamInv codec t ∧ EdgeInv codec t := by
  obtain ⟨hstream, hedge⟩ := hs
  cases a with
  | beginSync order dir =>
    simp only [liveStep] at hstep
    split at hstep
    · next targets hleft hload =>
      split at hstep
      · next next hnext =>
        cases hstep
        exact ⟨hstream.planned hleft order (hguard targets hload)
            (fun t ht => exists_data_of_mem_loadTargets hload ht) hnext,
          hedge.planned hleft order targets next⟩
      · cases hstep
    · cases hstep
  | publish =>
    simp only [liveStep] at hstep
    split at hstep
    · next e events hleft =>
      cases hstep
      exact ⟨hstream.published hcodec hleft, hedge.published hleft⟩
    · cases hstep
  | endSync =>
    simp only [liveStep] at hstep
    split at hstep
    · next hleft =>
      cases hstep
      exact ⟨hstream.finished hleft, hedge.finished hleft⟩
    · cases hstep
  | deliver host fails ackSent =>
    simp only [liveStep] at hstep
    split at hstep
    · next m hm =>
      split at hstep
      · next hnext =>
        cases hstep
        have hlt := Live.lt_of_isNext hnext
        refine ⟨hstream.handle m.seq m fails ackSent, hedge.handle hcodec hstream hm
          hlt.le (Nat.le_refl _) (hstream.bound host m hm) ?_ fails ackSent⟩
        intro data t _ _ h _ m' _ happlied
        exact (hedge.delivered m'.seq happlied).trans hlt.le
      · cases hstep
    · cases hstep
  | redeliver host fails ackSent =>
    simp only [liveStep] at hstep
    split at hstep
    · next m hm =>
      split at hstep
      · next hagain =>
        cases hstep
        refine ⟨hstream.handle s.cursor m fails ackSent, hedge.handle hcodec hstream hm
          (Nat.le_refl _) hagain.1 hedge.cursor ?_ fails ackSent⟩
        intro data t hvalue hjson h hh m' hm' happlied
        have hdelivered := hedge.delivered m'.seq happlied
        rcases hguard m data t hm hvalue hjson h hh m' hm' with hle | hlt
        · exact hle
        · omega
      · cases hstep
    · cases hstep

/-- In every run over directories without common hostnames in which no update is
delivered again after a newer message of one of its hostnames, the edge converges. -/
theorem converged_of_notOvertaken {codec : Codec R} (hcodec : codec.Lossless)
    {lru : LRUCache Str H} {s : Live R H}
    (hreach : Runs.Reaches (liveStep codec) (NotOvertaken codec) (Live.init lru) s) :
    Converged codec s := by
  obtain ⟨hstream, hedge⟩ := hreach.invariant (liveInv_step hcodec)
    ⟨streamInv_init codec lru, edgeInv_init codec lru⟩
  intro hleft happlied host
  have hvalue := (hstream.value host).resolve_left (s.not_pending_of_none hleft host)
  rw [hstream.next] at hvalue
  rw [← rowOf_directoryMap hcodec hstream.reads, ← hvalue, Live.value]
  cases hm : s.retained.lookup host with
  | none =>
    exact (hedge.absent host hm).resolve_left (s.not_pending_of_none hleft host)
  | some m =>
    exact (hedge.applied host m hm (happlied host m hm)).resolve_left
      (s.not_pending_of_none hleft host)

/-- The publications of a sync, one step each, followed by its end. -/
def publishAllSteps (count : Nat) : List LiveAction := List.replicate count .publish ++ [.endSync]

theorem exec_publishAllSteps {codec : Codec R} {events : List TargetEvent} {s : Live R H}
    (hleft : s.left = some events) :
    ∃ t, Runs.exec (liveStep codec) s (publishAllSteps events.length) = some t ∧
      t.left = none ∧ t.byName = s.next ∧
      ∀ host, (t.retained.lookup host).map Message.event =
        (Stream.lastFor events host).or ((s.retained.lookup host).map Message.event) := by
  induction events generalizing s with
  | nil =>
    refine ⟨s.finished, ?_, rfl, rfl, fun _ => rfl⟩
    simp [publishAllSteps, Runs.exec, liveStep, hleft, Live.finished]
  | cons e events ih =>
    obtain ⟨t, hexec, hnone, hbyName, hretained⟩ := @ih (s.published e events) rfl
    refine ⟨t, ?_, hnone, hbyName, ?_⟩
    · have hpublish : liveStep codec s .publish = some (s.published e events) := by
        simp [liveStep, hleft, Live.published]
      simp only [publishAllSteps, List.length_cons, List.replicate_succ, List.cons_append,
        Runs.exec, hpublish]
      exact hexec
    · intro host
      have hcons := Stream.lastFor_append [e] events host
      rw [List.singleton_append] at hcons
      rw [hretained host, s.lookup_published, hcons]
      by_cases hhost : host = e.serverName
      · subst hhost
        cases Stream.lastFor events e.serverName <;> simp [Stream.lastFor]
      · have hother : e.serverName ≠ host := fun h => hhost h.symm
        cases Stream.lastFor events host <;> simp [Stream.lastFor, hhost, hother]

/-- The steps of an undisturbed sync have the effect of `syncAll`. -/
theorem exec_sync_eq_syncAll {order : RangeOrder} {dir : Directory} (hleft : s.left = none)
    (hok : (syncAll codec order allAcked dir s.byName).result = .ok ()) :
    ∃ t, Runs.exec (liveStep codec) s (.beginSync order dir ::
        publishAllSteps (syncAll codec order allAcked dir s.byName).stored.length) = some t ∧
      t.left = none ∧ t.byName = (syncAll codec order allAcked dir s.byName).byName ∧
      ∀ host, (t.retained.lookup host).map Message.event =
        (Stream.lastFor (syncAll codec order allAcked dir s.byName).stored host).or
          ((s.retained.lookup host).map Message.event) := by
  obtain ⟨targets, next, hload, hnext, hbyName, hstored⟩ := exists_of_syncAll_ok hok
  rw [hbyName, hstored]
  obtain ⟨t, hexec, hnone, hmemory, hretained⟩ :=
    @exec_publishAllSteps R H codec _ (s.planned order targets next) rfl
  refine ⟨t, ?_, hnone, hmemory, hretained⟩
  have hbegin : liveStep codec s (.beginSync order dir) = some (s.planned order targets next) := by
    simp [liveStep, hleft, hload, hnext, Live.planned]
  simp only [Runs.exec, hbegin]
  exact hexec

theorem first_sync_eq_syncAll : ∃ t : Live Unit Unit,
    Runs.exec (liveStep nameCodec) (Live.init (.new 8)) (.beginSync .entries
      (twoTargets "a.example,b.example" "c.example") :: publishAllSteps 3) = some t ∧
    t.left = none := by
  have hleft : (Live.init (.new 8) : Live Unit Unit).left = none := rfl
  obtain ⟨t, hexec, hnone, -⟩ := exec_sync_eq_syncAll hleft
    (show (syncAll nameCodec .entries allAcked (twoTargets "a.example,b.example" "c.example")
      _).result = .ok () from rfl)
  exact ⟨t, hexec, hnone⟩

/-- Deliver the next message of a hostname and acknowledge it. -/
def deliverOk (host : String) : LiveAction := .deliver (str host) noFailure true

/-- A target with two hostnames is published and delivered, but the acknowledgement
of its last message is lost. -/
def publishedTarget : List LiveAction :=
  .beginSync .entries (twoTargets "a.example,b.example" "c.example") :: publishAllSteps 3 ++
    [deliverOk "c.example", deliverOk "b.example", .deliver (str "a.example") noFailure false]

/-- The target is removed. Its last message is delivered again after the deletion of
one hostname and before that of the other is published. -/
def overtakenSchedule : List LiveAction :=
  publishedTarget ++
    [.beginSync .entries (some [targetFile "b.yaml" "c.example"]), .publish, deliverOk "b.example",
      .redeliver (str "a.example") noFailure true, .publish, .endSync, deliverOk "a.example"]

def overtakenState : Live Unit Unit :=
  (Runs.exec (liveStep nameCodec) (Live.init (.new 8)) overtakenSchedule).get rfl

theorem overtakenSchedule_admitted : Runs.Admitted (liveStep nameCodec) (DisjointSyncs nameCodec)
    (Live.init (.new 8) : Live Unit Unit) overtakenSchedule := by
  refine .cons ?_ rfl (.cons trivial rfl (.cons trivial rfl (.cons trivial rfl (.cons trivial rfl
    (.cons trivial rfl (.cons trivial rfl (.cons trivial rfl (.cons ?_ rfl (.cons trivial rfl
    (.cons trivial rfl (.cons trivial rfl (.cons trivial rfl (.cons trivial rfl
    (.cons trivial rfl trivial))))))))))))))
  · intro targets hload
    obtain rfl : _ = targets := Except.ok.inj hload
    exact disjointNames_pair (by decide)
  · intro targets hload
    obtain rfl : _ = targets := Except.ok.inj hload
    exact List.pairwise_singleton _ _

/-- After the late redelivery a deleted hostname is back for good: every retained
message has been applied, and the directory does not have the hostname. -/
theorem overtakenState_not_converged :
    Runs.Reaches (liveStep nameCodec) (DisjointSyncs nameCodec) (Live.init (.new 8))
      overtakenState ∧
    overtakenState.left = none ∧
    (∀ e ∈ overtakenState.retained.entries, overtakenState.applied e.2.seq = true) ∧
    overtakenState.edge.row (str "b.example") = some (str "a.example,b.example") ∧
    wantedRow nameCodec overtakenState.targets (str "b.example") = none ∧
    ¬ Converged nameCodec overtakenState := by
  have happlied : ∀ e ∈ overtakenState.retained.entries,
      overtakenState.applied e.2.seq = true := by decide
  refine ⟨Runs.reaches_get overtakenSchedule_admitted, rfl, happlied,
    by decide, by decide, ?_⟩
  intro hconverged
  have hrow := hconverged rfl
    (fun host m hm => happlied ⟨host, m⟩ (AList.mem_lookup_iff.mp hm)) (str "b.example")
  exact absurd hrow (by decide)

def publishedState : Live Unit Unit :=
  (Runs.exec (liveStep nameCodec) (Live.init (.new 8)) publishedTarget).get rfl

theorem publishedTarget_admitted : Runs.Admitted (liveStep nameCodec) (NotOvertaken nameCodec)
    (Live.init (.new 8) : Live Unit Unit) publishedTarget := by
  refine .cons ?_ rfl (.cons trivial rfl (.cons trivial rfl (.cons trivial rfl (.cons trivial rfl
    (.cons trivial rfl (.cons trivial rfl (.cons trivial rfl trivial)))))))
  intro targets hload
  obtain rfl : _ = targets := Except.ok.inj hload
  exact disjointNames_pair (by decide)

/-- The last message is delivered again before anything newer is published. -/
def promptState : Live Unit Unit :=
  (liveStep nameCodec publishedState (.redeliver (str "a.example") noFailure true)).get rfl

theorem reaches_promptState : Runs.Reaches (liveStep nameCodec) (NotOvertaken nameCodec)
    (Live.init (.new 8)) promptState := by
  have hpublished : Runs.Reaches (liveStep nameCodec) (NotOvertaken nameCodec)
      (Live.init (.new 8)) publishedState :=
    Runs.reaches_get publishedTarget_admitted
  refine hpublished.tail ⟨.redeliver (str "a.example") noFailure true, ?_,
    (Option.some_get _).symm⟩
  have hlast : (publishedState.retained.lookup (str "a.example")).map Message.seq = some 3 := by
    decide
  have hbound : ∀ e ∈ publishedState.retained.entries, e.2.seq ≤ 3 := by decide
  intro m data t hm _ _ h _ m' hm'
  have hseq : m.seq = 3 := by simpa [show publishedState.retained.lookup _ = _ from hm] using hlast
  exact .inl (hseq ▸ hbound ⟨h, m'⟩ (AList.mem_lookup_iff.mp hm'))

/-- An edge that got one message twice in a row converges. -/
theorem promptState_converged : Converged nameCodec promptState ∧ promptState.left = none ∧
    promptState.edge.row (str "b.example") = some (str "a.example,b.example") :=
  ⟨converged_of_notOvertaken nameCodec_lossless reaches_promptState, rfl, by decide⟩

end Peretum.Edge
