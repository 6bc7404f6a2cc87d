import Peretum.Api.Confinement
import Peretum.ReadModifyWrite

/-!
# Concurrent calls on one target

`PatchTarget` reads the file of a target and writes it back later, and `CreateTarget` asks
whether the file is there and writes it later. Nothing keeps other calls away in between.
This file embeds such calls as concurrent updates of one file. No change is lost in a run
where every write finds the file as its call has seen it.
-/

namespace Peretum.Api

open Go Config

variable {R : Type}

/-- A call on a target that looks at its file first. -/
inductive Edit (R : Type) where
  /-- `PatchTarget`. -/
  | patch (data : Str)
  /-- `CreateTarget`; the other fields of the target. -/
  | create (rest : R)

/-- The call of the API. -/
def Edit.call (serverName : Str) (io : FileWrite) : Edit R → Call R
  | .patch data => .patch serverName data io
  | .create rest => .create ⟨serverName, rest⟩ io

variable (codec : Codec R) (docs : DocumentCodec) (edits : Nat → Edit R)

/-- What a call that has looked at the file is going to write. -/
def Edit.update (serverName : Str) (file : Option Str) : Edit R → Option (Option Str)
  | .patch data =>
      (patchTarget docs serverName file data).toOption.map fun write => some write.2
  | .create rest =>
      (createTarget codec file.isSome ⟨serverName, rest⟩).toOption.map fun write => some write.2

/-- The steps of concurrent calls on one target: a look and a write each. -/
def editStep (serverName : Str) (edits : Nat → Edit R) :
    ReadModifyWrite.State (Option Str) → ReadModifyWrite.Action (Option Str) →
      Option (ReadModifyWrite.State (Option Str)) :=
  ReadModifyWrite.step fun i file => (edits i).update codec docs serverName file

/-- A document holds what another one sets: the same scalars and lists, and maps that hold
the maps. -/
def Contains : Object → Object → Prop
  | _, [] => True
  | m, (k, .map s) :: p => (∃ d, m.lookup k = some (.map d) ∧ Contains d s) ∧ Contains m p
  | m, (k, v) :: p => m.lookup k = some v ∧ Contains m p

/-- Two documents set different keys; under a key of both they have maps that again set
different keys. -/
def Apart : Object → Object → Prop
  | [], _ => True
  | (k, .map s) :: p, q =>
      (∀ w, q.lookup k = some w → ∃ t, w = .map t ∧ Apart s t) ∧ Apart p q
  | (k, _) :: p, q => q.lookup k = none ∧ Apart p q

/-- The file holds what the document sets. -/
def FileContains (file : Option Str) (p : Object) : Prop :=
  ∃ data m, file = some data ∧ docs.unmarshal data = some m ∧ Contains (m.getD []) p

/-- No edit is lost: the file holds what every patch that has succeeded sets, and one
creation at most has succeeded. -/
structure NothingLost (s : ReadModifyWrite.State (Option Str)) : Prop where
  patches : ∀ i data p, edits i = .patch data → s.phase i = .succeeded →
    docs.unmarshal data = some p → FileContains docs s.value (p.getD [])
  creates : ∀ i j rest rest', edits i = .create rest → edits j = .create rest' →
    s.phase i = .succeeded → s.phase j = .succeeded → i = j

/-- The patches set different keys. -/
def PatchesApart : Prop :=
  ∀ i j data data' p q, i ≠ j → edits i = .patch data → edits j = .patch data' →
    docs.unmarshal data = some p → docs.unmarshal data' = some q → Apart (p.getD []) (q.getD [])

/-- What the YAML library does with documents that are written back. -/
structure Rereads : Prop where
  distinct : ∀ data m, docs.unmarshal data = some (some m) → DistinctKeys m
  /-- A document that is written holds what it held when it is read. -/
  keeps : ∀ m data, docs.marshal m = some data →
    ∃ m', docs.unmarshal data = some m' ∧ ∀ p, Contains m p → Contains (m'.getD []) p

theorem call_eq_update (dir serverName : Str) (fs : FileSystem) (edit : Edit R) :
    (fs.call codec docs dir (edit.call serverName .done)).2 (targetPath dir serverName) =
      (edit.update codec docs serverName (fs (targetPath dir serverName))).getD
        (fs (targetPath dir serverName)) := by
  cases edit with
  | patch data =>
    simp only [Edit.call, FileSystem.call, Edit.update]
    cases hok : patchTarget docs serverName (fs (targetPath dir serverName)) data with
    | error e => rfl
    | ok write =>
      obtain ⟨name, out⟩ := write
      obtain ⟨-, rfl, -⟩ := patchTarget_eq_ok_iff.mp hok
      exact Function.update_self _ _ _
  | create rest =>
    simp only [Edit.call, FileSystem.call, Edit.update]
    cases hok : createTarget codec (fs (targetPath dir serverName)).isSome ⟨serverName, rest⟩ with
    | error e => rfl
    | ok write =>
      obtain ⟨name, out⟩ := write
      obtain ⟨rfl, -⟩ := createTarget_ok hok
      exact Function.update_self _ _ _

/-- What a document holds under a key where another one sets a value. -/
def Keeps : Option Yaml → Yaml → Prop
  | some (.map d), .map s => Contains d s
  | some v, w => v = w
  | none, _ => False

variable {m p : Object} {k : Str} {v : Yaml}

/-- Holding a document is holding its first value and the others. -/
theorem contains_cons : Contains m ((k, v) :: p) ↔ Keeps (m.lookup k) v ∧ Contains m p := by
  cases v with
  | scalar text | list items =>
    rw [Contains, Keeps.eq_def]
    · cases m.lookup k <;> simp
    · simp
  | map s =>
    rw [Contains]
    cases m.lookup k with
    | none => simp [Keeps]
    | some w => cases w <;> simp [Keeps]

/-- What a document that is held sets under a key is kept there. -/
theorem Contains.keeps (hm : Contains m p) (hv : p.lookup k = some v) : Keeps (m.lookup k) v := by
  induction p with
  | nil => cases hv
  | cons e p ih =>
    obtain ⟨hfirst, hrest⟩ := contains_cons.mp hm
    rw [lookup_entry] at hv
    split_ifs at hv with hk
    · cases hv
      rwa [hk]
    · exact ih hrest hv

theorem contains_of_keeps (hp : DistinctKeys p)
    (hkeeps : ∀ k v, p.lookup k = some v → Keeps (m.lookup k) v) : Contains m p := by
  induction p with
  | nil => simp [Contains]
  | cons e p ih =>
    obtain ⟨k, v⟩ := e
    obtain ⟨hfresh, hrest⟩ := hp.cons
    refine contains_cons.mpr ⟨hkeeps k v (by simp), ih hrest fun j w hw => ?_⟩
    refine hkeeps j w ?_
    rw [lookup_entry, if_neg, hw]
    rintro rfl
    rw [lookup_eq_none_of_not_mem hfresh] at hw
    cases hw

theorem contains_self (hp : DistinctKeys p) : Contains p p := by
  induction p using object_induction with
  | hmaps p ih =>
    refine contains_of_keeps hp fun k v hv => ?_
    rw [hv]
    cases v with
    | map s => exact ih k s hv (hp.of_lookup hv)
    | scalar text | list items => rfl

theorem contains_mergeMaps (hp : DistinctKeys p) (m : Object) : Contains (mergeMaps m p) p := by
  induction p using object_induction generalizing m with
  | hmaps p ih =>
    refine contains_of_keeps hp fun k v hv => ?_
    rw [lookup_mergeMaps m hp, hv]
    rcases mergedValue_some (m.lookup k) v with ⟨d, s, -, rfl, hmerged⟩ | hsame
    · rw [hmerged]
      exact ih k s hv (hp.of_lookup hv) d
    · rw [hsame, ← hv]
      exact (contains_self hp).keeps hv

/-- Under a key that two documents set apart they have maps. -/
theorem Apart.maps {q : Object} (hapart : Apart p q) {w : Yaml} (hv : p.lookup k = some v)
    (hw : q.lookup k = some w) : ∃ s t, v = .map s ∧ w = .map t ∧ Apart s t := by
  induction p with
  | nil => cases hv
  | cons e p ih =>
    obtain ⟨k', v'⟩ := e
    rw [lookup_entry] at hv
    split_ifs at hv with hk
    · subst hk
      obtain rfl := Option.some.inj hv
      cases v' with
      | map s =>
        rw [Apart] at hapart
        obtain ⟨t, rfl, ht⟩ := hapart.1 w hw
        exact ⟨s, t, rfl, rfl, ht⟩
      | scalar text | list items => simp [Apart, hw] at hapart
    · refine ih ?_ hv
      cases v' with
      | map s =>
        rw [Apart] at hapart
        exact hapart.2
      | scalar text | list items =>
        simp only [Apart] at hapart
        exact hapart.2

/-- A merge of a document that is set apart keeps what was held. -/
theorem Contains.mergeMaps {q : Object} (hm : Contains m p) (hp : DistinctKeys p)
    (hq : DistinctKeys q) (hapart : Apart p q) : Contains (Api.mergeMaps m q) p := by
  induction p using object_induction generalizing m q with
  | hmaps p ih =>
    refine contains_of_keeps hp fun k v hv => ?_
    rw [lookup_mergeMaps m hq]
    cases hw : q.lookup k with
    | none =>
      rw [mergedValue_none]
      exact hm.keeps hv
    | some w =>
      obtain ⟨s, t, rfl, rfl, hst⟩ := hapart.maps hv hw
      have hkeeps := hm.keeps hv
      -- What was held under the key is a map, so it is merged.
      cases hold : m.lookup k with
      | none => simp [hold, Keeps] at hkeeps
      | some old =>
        cases old with
        | map d =>
          rw [hold] at hkeeps
          exact ih k s hv hkeeps (hp.of_lookup hv) (hq.of_lookup hw) hst
        | scalar text | list items => simp [hold, Keeps] at hkeeps

section

variable {codec : Codec R} {docs : DocumentCodec} {serverName : Str}
  {data : Str} {file new : Option Str} {p : Option Object}

/-- What a patch that is going to be written has read and works out. -/
theorem update_patch
    (hupdate : (Edit.patch data : Edit R).update codec docs serverName file = some new) :
    ∃ old m p out, file = some old ∧ docs.unmarshal old = some m ∧ docs.unmarshal data = some p ∧
      docs.marshal (mergeMaps (m.getD []) (p.getD [])) = some out ∧ new = some out := by
  obtain ⟨⟨name, out⟩, hok, rfl⟩ := Option.map_eq_some_iff.mp hupdate
  cases hpatch : patchTarget docs serverName file data with
  | error e => simp [hpatch, Except.toOption] at hok
  | ok write =>
    obtain rfl : write = (name, out) := by simpa [hpatch, Except.toOption] using hok
    obtain ⟨-, -, old, m, p, hold, hm, hp, -, hout⟩ := patchTarget_eq_ok_iff.mp hpatch
    exact ⟨old, m, p, out, hold, hm, hp, hout, rfl⟩

theorem update_create {rest : R}
    (hupdate : (Edit.create rest).update codec docs serverName file = some new) :
    file = none ∧ new.isSome = true := by
  obtain ⟨⟨name, out⟩, hok, rfl⟩ := Option.map_eq_some_iff.mp hupdate
  refine ⟨?_, rfl⟩
  by_contra hfile
  have hfound : file.isSome = true := Option.isSome_iff_ne_none.mpr hfile
  unfold createTarget at hok
  split_ifs at hok <;> cases hok

theorem Rereads.distinctKeys (hrereads : Rereads docs) (hp : docs.unmarshal data = some p) :
    DistinctKeys (p.getD []) := by
  cases p with
  | none => simp [DistinctKeys]
  | some p => exact hrereads.distinct data p hp

theorem fileContains_of_update (hrereads : Rereads docs) (hp : docs.unmarshal data = some p)
    (hupdate : (Edit.patch data : Edit R).update codec docs serverName file = some new) :
    FileContains docs new (p.getD []) := by
  obtain ⟨old, m, p', out, -, -, hp', hout, rfl⟩ := update_patch hupdate
  obtain rfl : p = p' := Option.some.inj (hp.symm.trans hp')
  obtain ⟨m', hm', hkeeps⟩ := hrereads.keeps _ _ hout
  exact ⟨out, m', rfl, hm', hkeeps _ (contains_mergeMaps (hrereads.distinctKeys hp) _)⟩

/-- Other calls leave in the file what a patch set apart from theirs has put there. -/
theorem FileContains.update (hrereads : Rereads docs) (hp : docs.unmarshal data = some p)
    {edit : Edit R} (hapart : ∀ data' q, edit = .patch data' → docs.unmarshal data' = some q →
      Apart (p.getD []) (q.getD [])) (hfile : FileContains docs file (p.getD []))
    (hupdate : edit.update codec docs serverName file = some new) :
    FileContains docs new (p.getD []) := by
  obtain ⟨old, m, rfl, hm, hcontains⟩ := hfile
  cases edit with
  | create rest => cases (update_create hupdate).1
  | patch data' =>
    obtain ⟨old', m', q, out, hold, hm', hq, hout, rfl⟩ := update_patch hupdate
    cases hold
    obtain rfl : m = m' := Option.some.inj (hm.symm.trans hm')
    obtain ⟨m', hm', hkeeps⟩ := hrereads.keeps _ _ hout
    refine ⟨out, m', rfl, hm', hkeeps _ ?_⟩
    exact hcontains.mergeMaps (hrereads.distinctKeys hp) (hrereads.distinctKeys hq)
      (hapart data' q rfl hq)

/-- In every run in which each write finds the file as its call has seen it, patches that set
different keys are not lost, and the file is created once. -/
theorem nothingLost_of_reaches (hrereads : Rereads docs) {edits : Nat → Edit R}
    (hapart : PatchesApart docs edits) {file : Option Str} {s : ReadModifyWrite.State (Option Str)}
    (hreach : Runs.Reaches (editStep codec docs serverName edits) ReadModifyWrite.Undisturbed
      (.init file) s) : NothingLost docs edits s := by
  constructor
  · intro i data p hi hsucceeded hp
    refine ReadModifyWrite.holds_of_succeeded (P := fun file => FileContains docs file (p.getD []))
      hreach hsucceeded ?_ ?_
    · intro file new hupdate
      rw [hi] at hupdate
      exact fileContains_of_update hrereads hp hupdate
    · intro j _ hj file new hfile hupdate
      refine FileContains.update hrereads hp ?_ hfile hupdate
      intro data' q hpatch hq
      exact hapart i j data data' p q (Ne.symm hj) hi hpatch hp hq
  · intro i j rest rest' hi hj hsucceeded hsucceeded'
    have hcreate : ∀ c, c = i ∨ c = j → ∃ rest, edits c = .create rest := by
      rintro c (rfl | rfl)
      · exact ⟨rest, hi⟩
      · exact ⟨rest', hj⟩
    refine ReadModifyWrite.eq_of_succeeded (P := fun file => file.isSome = true) hreach
      hsucceeded hsucceeded' ?_ ?_
    · intro c hc file new hupdate
      obtain ⟨rest, hrest⟩ := hcreate c hc
      rw [hrest] at hupdate
      obtain ⟨rfl, hnew⟩ := update_create hupdate
      exact ⟨by simp, hnew⟩
    · intro c file new _ hupdate
      cases hedit : edits c with
      | create rest =>
        rw [hedit] at hupdate
        exact (update_create hupdate).2
      | patch data =>
        rw [hedit] at hupdate
        obtain ⟨-, -, -, out, -, -, -, -, rfl⟩ := update_patch hupdate
        rfl

end

theorem rereads_flat : Rereads flatDocs := by
  constructor
  · intro data m hm
    exact (flat_of_readFlat (readFlat_of_unmarshal hm)).distinctKeys
  · intro m data hdata
    obtain ⟨p, hp, rfl⟩ := unmarshal_of_writeFlat hdata
    exact ⟨p, hp, fun _ h => h⟩

theorem update_flat {codec : Codec R} {serverName : Str} (hname : serverName ≠ [])
    {old data text out : Str} (hold : flatDocs.unmarshal old = some (some m))
    (hdata : flatDocs.unmarshal data = some (some [(k, .scalar text)]))
    (hout : writeFlat (assign m k (.scalar text)) = some out) :
    (Edit.patch data : Edit R).update codec flatDocs serverName (some old) = some (some out) := by
  simp [Edit.update, patchTarget_flat hname hold hdata hout, Except.toOption]

/-- Two patches of different keys, and creations. -/
def patchPair : Nat → Edit Unit
  | 0 => .patch (str "lb_algorithm: random\n")
  | 1 => .patch (str "host_header: b.com\n")
  | _ => .create ()

theorem patchesApart_patchPair : PatchesApart flatDocs patchPair := by
  intro i j data data' p q hne hi hj hp hq
  have hkinds : ∀ i data, patchPair i = .patch data →
      (i = 0 ∧ data = str "lb_algorithm: random\n") ∨
        (i = 1 ∧ data = str "host_header: b.com\n") := by
    intro i data h
    rcases i with _ | _ | i
    · exact .inl ⟨rfl, (Edit.patch.inj h).symm⟩
    · exact .inr ⟨rfl, (Edit.patch.inj h).symm⟩
    · cases h
  have hbalance : flatDocs.unmarshal (str "lb_algorithm: random\n") =
      some (some [(str "lb_algorithm", .scalar (str "random"))]) := rfl
  have hhost : flatDocs.unmarshal (str "host_header: b.com\n") =
      some (some [(str "host_header", .scalar (str "b.com"))]) := rfl
  rcases hkinds i data hi with ⟨rfl, rfl⟩ | ⟨rfl, rfl⟩ <;>
    rcases hkinds j data' hj with ⟨rfl, rfl⟩ | ⟨rfl, rfl⟩
  · exact absurd rfl hne
  · obtain rfl := Option.some.inj (hbalance.symm.trans hp)
    obtain rfl := Option.some.inj (hhost.symm.trans hq)
    simp only [Option.getD_some, Apart]
    exact ⟨rfl, trivial⟩
  · obtain rfl := Option.some.inj (hhost.symm.trans hp)
    obtain rfl := Option.some.inj (hbalance.symm.trans hq)
    simp only [Option.getD_some, Apart]
    exact ⟨rfl, trivial⟩
  · exact absurd rfl hne

/-- What the two patches write when both have read the file without either change. -/
theorem update_patchPair :
    (patchPair 0).update flatCodec flatDocs (str "a.com") (some (str "server_name: a.com\n")) =
      some (some (str "lb_algorithm: random\nserver_name: a.com\n")) ∧
    (patchPair 1).update flatCodec flatDocs (str "a.com") (some (str "server_name: a.com\n")) =
      some (some (str "host_header: b.com\nserver_name: a.com\n")) :=
  ⟨update_flat (by decide) rfl rfl (by decide), update_flat (by decide) rfl rfl (by decide)⟩

/-- Two calls that have both seen the same file both succeed. -/
theorem reaches_overlapping {codec : Codec R} {docs : DocumentCodec} {serverName : Str}
    {edits : Nat → Edit R} {i j : Nat} (hne : i ≠ j) {file new new' : Option Str}
    (hnew : (edits i).update codec docs serverName file = some new)
    (hnew' : (edits j).update codec docs serverName file = some new') :
    ∃ s, Runs.Reaches (editStep codec docs serverName edits) Runs.Unrestricted (.init file) s ∧
      s.value = new' ∧ s.phase i = .succeeded ∧ s.phase j = .succeeded :=
  ReadModifyWrite.reaches_overlapping hne hnew hnew'

/-- Both patches read the file before either writes it: both succeed, and the file lacks the
first change. Two creations that both ask for the file first succeed as well. -/
theorem overlapping_loses :
    PatchesApart flatDocs patchPair ∧
    (∃ s, Runs.Reaches (editStep flatCodec flatDocs (str "a.com") patchPair) Runs.Unrestricted
        (.init (some (str "server_name: a.com\n"))) s ∧
      s.phase 0 = .succeeded ∧ s.phase 1 = .succeeded ∧
      s.value = some (str "host_header: b.com\nserver_name: a.com\n") ∧
      ¬ NothingLost flatDocs patchPair s) ∧
    (∃ s, Runs.Reaches (editStep flatCodec flatDocs (str "a.com") patchPair) Runs.Unrestricted
        (.init none) s ∧ s.phase 2 = .succeeded ∧ s.phase 3 = .succeeded ∧
      ¬ NothingLost flatDocs patchPair s) := by
  refine ⟨patchesApart_patchPair, ?_, ?_⟩
  · obtain ⟨s, hreach, hvalue, hfirst, hsecond⟩ := reaches_overlapping
      Nat.zero_ne_one update_patchPair.1 update_patchPair.2
    refine ⟨s, hreach, hfirst, hsecond, hvalue, fun hnothing => ?_⟩
    obtain ⟨data, m, hdata, hm, hcontains⟩ := hnothing.patches 0 _ _ rfl hfirst rfl
    obtain rfl := Option.some.inj (hvalue.symm.trans hdata)
    cases hm
    have hkeeps := hcontains.keeps
      (show List.lookup (str "lb_algorithm") _ = some (.scalar (str "random")) from rfl)
    exact hkeeps
  · have hcreate : ∀ i, 2 ≤ i → (patchPair i).update flatCodec flatDocs (str "a.com") none =
        some (some (str "server_name: a.com\n")) := by
      intro i hi
      obtain ⟨i, rfl⟩ := Nat.exists_eq_add_of_le' hi
      rfl
    obtain ⟨s, hreach, -, hfirst, hsecond⟩ := reaches_overlapping
      (show 2 ≠ 3 by decide) (hcreate 2 le_rfl) (hcreate 3 (by decide))
    refine ⟨s, hreach, hfirst, hsecond, fun hnothing => ?_⟩
    exact absurd (hnothing.creates 2 3 _ _ rfl rfl hfirst hsecond) (by decide)

/-- One after the other, both patches are in the file. -/
theorem inTurn_nothingLost :
    ∃ s, s.phase 0 = .succeeded ∧ s.phase 1 = .succeeded ∧
      s.value = some (str "host_header: b.com\nlb_algorithm: random\nserver_name: a.com\n") ∧
      NothingLost flatDocs patchPair s := by
  have hsecond : (patchPair 1).update flatCodec flatDocs (str "a.com")
      (some (str "lb_algorithm: random\nserver_name: a.com\n")) =
        some (some (str "host_header: b.com\nlb_algorithm: random\nserver_name: a.com\n")) :=
    update_flat (by decide) rfl rfl (by decide)
  have hturn : ReadModifyWrite.inTurn
      (fun i file => (patchPair i).update flatCodec flatDocs (str "a.com") file)
      (some (str "server_name: a.com\n")) [0, 1] =
        some (some (str "host_header: b.com\nlb_algorithm: random\nserver_name: a.com\n")) := by
    simp [ReadModifyWrite.inTurn, update_patchPair.1, hsecond]
  obtain ⟨s, hreach, hvalue, hdone, -⟩ := ReadModifyWrite.reaches_inTurn
    (show [0, 1].Nodup by decide) (s := .init (some (str "server_name: a.com\n")))
    (fun _ _ => rfl) hturn
  exact ⟨s, hdone 0 (by simp), hdone 1 (by simp), hvalue,
    nothingLost_of_reaches rereads_flat patchesApart_patchPair hreach⟩

end Peretum.Api
