import Peretum.Api.Flat
import Peretum.ControlPlane.HalfWritten

/-!
# The directory of targets

The four calls of the API that change a target each write or remove one file of the config
directory, which `LoadTargets` reads as a whole. As long as server names have no path
separators, a call names a file of that directory. This file embeds the calls and follows
sequences of them from an empty directory. Every file stays the file of the target it is
named after exactly if every patch that is written fits its target.
-/

namespace Peretum.Api

open Go Config ControlPlane

variable {R : Type}

/-- What becomes of a call of `os.WriteFile`. -/
inductive FileWrite where
  | done
  /-- The file cannot be opened. -/
  | refused
  /-- The file is truncated, and the write stops after some bytes. -/
  | cut (written : Nat)
  deriving DecidableEq

/-- The errors of the calls. -/
inductive CallError where
  /-- An error of `UpdateTarget` or `PatchTarget` before the write. -/
  | target (e : TargetError)
  /-- "target %s already exists" -/
  | alreadyExists (filename : Str)
  /-- "write %s" -/
  | write (filename : Str)
  /-- "target %s does not exist" -/
  | missing (filename : Str)
  /-- "remove %s" -/
  | remove (filename : Str)
  deriving DecidableEq, Repr

/-- A call of the API with what becomes of its last file operation. -/
inductive Call (R : Type) where
  /-- `CreateTarget`. -/
  | create (target : TargetConfig R) (io : FileWrite)
  /-- `UpdateTarget`. -/
  | update (serverName : Str) (target : TargetConfig R) (io : FileWrite)
  /-- `PatchTarget`. -/
  | patch (serverName data : Str) (io : FileWrite)
  /-- `DeleteTarget`. -/
  | delete (serverName : Str) (removed : Bool)

/-- `CreateTarget` up to the write, when `os.Stat` finds a file there or not: the file and
its contents. -/
def createTarget (codec : Codec R) (found : Bool) (target : TargetConfig R) :
    Except CallError (Str × Str) :=
  if target.serverName = [] then .error (.target .noServerName)
  else if found then .error (.alreadyExists (filename target.serverName))
  else
    match codec.marshalYAML target with
    | none => .error (.target .marshal)
    | some data => .ok (filename target.serverName, data)

/-- `os.WriteFile`. -/
def writeFile (files : List DirEntry) (name data : Str) (io : FileWrite) :
    Except CallError Unit × List DirEntry :=
  -- Opening a directory for writing fails.
  if (entryOf files name).any DirEntry.isDir then (.error (.write name), files)
  else
    match io with
    | .refused => (.error (.write name), files)
    | .cut written => (.error (.write name), setContents files name (data.take written))
    | .done => (.ok (), setContents files name data)

/-- A call writes what it has worked out. -/
def finishWrite (files : List DirEntry) (io : FileWrite) :
    Except CallError (Str × Str) → Except CallError Unit × List DirEntry
  | .error e => (.error e, files)
  | .ok (name, data) => writeFile files name data io

def deleteTarget (files : List DirEntry) (serverName : Str) (removed : Bool) :
    Except CallError Unit × List DirEntry :=
  if serverName = [] then (.error (.target .noServerName), files)
  else if (entryOf files (filename serverName)).isNone then
    (.error (.missing (filename serverName)), files)
  else if removed then (.ok (), files.filter (·.name ≠ filename serverName))
  else (.error (.remove (filename serverName)), files)

/-- One call: what it returns and the directory it leaves. -/
def Call.run (codec : Codec R) (docs : DocumentCodec) (files : List DirEntry) :
    Call R → Except CallError Unit × List DirEntry
  | .create target io =>
      finishWrite files io
        (createTarget codec (entryOf files (filename target.serverName)).isSome target)
  | .update serverName target io =>
      finishWrite files io ((updateTarget codec serverName target).mapError .target)
  | .patch serverName data io =>
      finishWrite files io
        ((patchTarget docs serverName (contentsOf files (filename serverName)) data).mapError
          .target)
  | .delete serverName removed => deleteTarget files serverName removed

/-- The write of the call does not stop in the middle. -/
def Call.Whole : Call R → Prop
  | .create _ (.cut _) | .update _ _ (.cut _) | .patch _ _ (.cut _) => False
  | _ => True

/-- A patch that gets to its write fits the target it patches. -/
def PatchFits (reader : ScalarReader) (docs : DocumentCodec) (files : List DirEntry) : Call R → Prop
  | .patch serverName data .done =>
      ∀ existing m p, serverName ≠ [] → contentsOf files (filename serverName) = some existing →
        docs.unmarshal existing = some m → docs.unmarshal data = some p →
        Fits reader serverName (p.getD [])
  | _ => True

/-- What the YAML library does with target files. Nothing is assumed of texts it has not written
itself: a scalar may be resolved to one that is written in another text. -/
structure ReadsTargets (reader : ScalarReader) (docs : DocumentCodec) (codec : Codec R) : Prop where
  /-- A generic form that is written decodes to a target as it says. -/
  merged : ∀ m data, docs.marshal m = some data →
    (codec.unmarshalYAML data).map TargetConfig.serverName = decodedName reader m
  /-- It says the same when it is read again. -/
  reread : ∀ m data m', docs.marshal m = some data → docs.unmarshal data = some m' →
    decodedName reader (m'.getD []) = decodedName reader m
  /-- A merge of two documents can be written. -/
  marshals : ∀ data data' m p, docs.unmarshal data = some m → docs.unmarshal data' = some p →
    (docs.marshal (mergeMaps (m.getD []) (p.getD []))).isSome = true
  /-- A target that is written decodes with its server name. -/
  written : ∀ t data, codec.marshalYAML t = some data →
    (codec.unmarshalYAML data).map TargetConfig.serverName = some t.serverName
  /-- So does its generic form. -/
  target : ∀ t data m, codec.marshalYAML t = some data → docs.unmarshal data = some m →
    decodedName reader (m.getD []) = some t.serverName
  /-- Documents with a key twice are rejected. -/
  distinct : ∀ data m, docs.unmarshal data = some (some m) → DistinctKeys m

/-- The contents of a file are those of the target with the name, decoded as a target and as a
generic form. -/
structure Declares (reader : ScalarReader) (docs : DocumentCodec) (codec : Codec R)
    (data serverName : Str) : Prop where
  /-- The target that is decoded has the name. -/
  target : (codec.unmarshalYAML data).map TargetConfig.serverName = some serverName
  /-- The generic form gives the name. -/
  generic : ∀ m, docs.unmarshal data = some m → decodedName reader (m.getD []) = some serverName

theorem ok_of_mapError {ε ε' α : Type} {f : ε → ε'} {x : Except ε α} {a : α}
    (hok : x.mapError f = .ok a) : x = .ok a := by
  cases x with
  | error e => cases hok
  | ok b => simpa [Except.mapError] using hok

theorem filename_injective : Function.Injective filename :=
  fun _ _ h => List.append_cancel_right h

variable {reader : ScalarReader} {docs : DocumentCodec} {codec : Codec R}
  {data name serverName : Str} {files : List DirEntry}

theorem loadTarget_eq_ok_iff {e : DirEntry} (hcontents : e.contents = some data)
    {t : TargetConfig R} : loadTarget codec e = .ok t ↔ codec.unmarshalYAML data = some t := by
  simp only [loadTarget, hcontents]
  cases codec.unmarshalYAML data with
  | none | some u => simp

/-- An entry is the file of a target that is named after it. -/
structure Filed (reader : ScalarReader) (docs : DocumentCodec) (codec : Codec R) (e : DirEntry) :
    Prop where
  /-- It is not a directory. -/
  file : e.isDir = false
  /-- It holds the target. -/
  holds : ∃ data serverName, e.contents = some data ∧ e.name = filename serverName ∧
    Declares reader docs codec data serverName

/-- The invariant: each entry is the file of a target, and no name is listed twice. -/
structure InOrder (reader : ScalarReader) (docs : DocumentCodec) (codec : Codec R)
    (files : List DirEntry) : Prop where
  /-- No name is listed twice. -/
  names : (files.map DirEntry.name).Nodup
  /-- Each entry is the file of a target. -/
  filed : ∀ e ∈ files, Filed reader docs codec e

theorem InOrder.empty : InOrder reader docs codec [] :=
  ⟨List.nodup_nil, fun _ he => absurd he List.not_mem_nil⟩

/-- `LoadTargets` decodes the file of a target. -/
theorem Filed.load {e : DirEntry} (hfiled : Filed reader docs codec e) :
    ∃ t, loadTarget codec e = .ok t ∧ filename t.serverName = e.name := by
  obtain ⟨data, serverName, hcontents, hname, hdeclares⟩ := hfiled.holds
  obtain ⟨t, ht, rfl⟩ := Option.map_eq_some_iff.mp hdeclares.target
  exact ⟨t, (loadTarget_eq_ok_iff hcontents).mpr ht, hname.symm⟩

theorem mem_setContents {e : DirEntry} (he : e ∈ setContents files name data) :
    (e ∈ files ∧ e.name ≠ name) ∨ (e.name = name ∧ e.contents = some data ∧
      (e.isDir = false ∨ ∃ old ∈ files, e.isDir = old.isDir)) := by
  unfold setContents at he
  split at he
  · obtain ⟨old, hold, rfl⟩ := List.mem_map.mp he
    split_ifs with hname
    · exact .inr ⟨hname, rfl, .inr ⟨old, hold, rfl⟩⟩
    · exact .inl ⟨hold, hname⟩
  · next hnew =>
    have hfresh : ∀ e ∈ files, e.name ≠ name := by
      simpa [entryOf, List.find?_isSome] using hnew
    rcases List.mem_append.mp he with htake | hrest
    · have hmem := List.takeWhile_sublist _ |>.mem htake
      exact .inl ⟨hmem, hfresh e hmem⟩
    · rcases List.mem_cons.mp hrest with rfl | hdrop
      · exact .inr ⟨rfl, rfl, .inl rfl⟩
      · have hmem := (List.dropWhile_sublist _).mem hdrop
        exact .inl ⟨hmem, hfresh e hmem⟩

theorem nodup_setContents (hnames : (files.map DirEntry.name).Nodup) (name data : Str) :
    ((setContents files name data).map DirEntry.name).Nodup := by
  unfold setContents
  split
  · rw [List.map_map]
    convert hnames using 2
    funext e
    simp only [Function.comp_apply]
    split <;> rfl
  · next hnew =>
    have hfresh : ∀ e ∈ files, e.name ≠ name := by
      simpa [entryOf, List.find?_isSome] using hnew
    have hperm : (files.takeWhile (fun e => decide (e.name < name)) ++ ⟨name, false, some data⟩ ::
        files.dropWhile (fun e => decide (e.name < name))).Perm
          (⟨name, false, some data⟩ :: files) := by
      refine List.perm_middle.trans ?_
      rw [List.takeWhile_append_dropWhile]
    refine (hperm.map DirEntry.name).nodup_iff.mpr (List.nodup_cons.mpr ⟨?_, hnames⟩)
    rintro hmem
    obtain ⟨e, he, hname⟩ := List.mem_map.mp hmem
    exact hfresh e he hname

/-- Writing a target to its file keeps the invariant. -/
theorem InOrder.setContents (horder : InOrder reader docs codec files)
    (hdata : Declares reader docs codec data serverName) :
    InOrder reader docs codec (ControlPlane.setContents files (filename serverName) data) := by
  refine ⟨nodup_setContents horder.names _ _, fun e he => ?_⟩
  rcases mem_setContents he with ⟨hold, -⟩ | ⟨hname, hcontents, hdir⟩
  · exact horder.filed e hold
  · refine ⟨?_, data, serverName, hcontents, hname, hdata⟩
    rcases hdir with hfile | ⟨old, hold, hsame⟩
    · exact hfile
    · rw [hsame]
      exact (horder.filed old hold).file

theorem InOrder.filter (horder : InOrder reader docs codec files) (keep : DirEntry → Bool) :
    InOrder reader docs codec (files.filter keep) := by
  refine ⟨?_, fun e he => horder.filed e (List.mem_of_mem_filter he)⟩
  exact horder.names.sublist (List.filter_sublist.map _)

theorem mem_of_contentsOf (hcontents : contentsOf files name = some data) :
    ∃ e ∈ files, e.name = name ∧ e.contents = some data := by
  obtain ⟨e, hentry, he⟩ := Option.bind_eq_some_iff.mp hcontents
  exact ⟨e, List.mem_of_find?_eq_some hentry, by simpa using List.find?_some hentry, he⟩

/-- The file a call names holds the target the call names. -/
theorem InOrder.declares (horder : InOrder reader docs codec files)
    (hcontents : contentsOf files (filename serverName) = some data) :
    Declares reader docs codec data serverName := by
  obtain ⟨e, he, hname, hdata⟩ := mem_of_contentsOf hcontents
  obtain ⟨data', name, hdata', hname', hdeclares⟩ := (horder.filed e he).holds
  obtain rfl : name = serverName := filename_injective (hname'.symm.trans hname)
  obtain rfl : data' = data := Option.some.inj (hdata'.symm.trans hdata)
  exact hdeclares

theorem createTarget_ok {found : Bool} {target : TargetConfig R}
    (hok : createTarget codec found target = .ok (name, data)) :
    name = filename target.serverName ∧ codec.marshalYAML target = some data := by
  unfold createTarget at hok
  split_ifs at hok
  split at hok
  · cases hok
  · next out hout =>
    obtain ⟨rfl, rfl⟩ := Prod.mk.inj (Except.ok.inj hok)
    exact ⟨rfl, hout⟩

theorem updateTarget_ok {target : TargetConfig R}
    (hok : updateTarget codec serverName target = .ok (name, data)) :
    name = filename serverName ∧
      codec.marshalYAML { target with serverName := serverName } = some data := by
  unfold updateTarget at hok
  split_ifs at hok
  split at hok
  · cases hok
  · next out hout =>
    obtain ⟨rfl, rfl⟩ := Prod.mk.inj (Except.ok.inj hok)
    exact ⟨rfl, hout⟩

/-- What `PatchTarget` writes. -/
theorem patchTarget_eq_ok_iff {docs : DocumentCodec} {existing : Option Str} {out : Str} :
    patchTarget docs serverName existing data = .ok (name, out) ↔
      serverName ≠ [] ∧ name = filename serverName ∧ ∃ old m p, existing = some old ∧
        docs.unmarshal old = some m ∧ docs.unmarshal data = some p ∧
        (m = none → p.getD [] = []) ∧
        docs.marshal (mergeMaps (m.getD []) (p.getD [])) = some out := by
  constructor
  · intro hok
    unfold patchTarget at hok
    split_ifs at hok with hname
    split at hok
    · cases hok
    split at hok
    · cases hok
    split at hok
    · cases hok
    split_ifs at hok with hnil
    split at hok
    · cases hok
    next old _ m hm _ p hp _ out' hout =>
    obtain ⟨rfl, rfl⟩ := Prod.mk.inj (Except.ok.inj hok)
    refine ⟨hname, rfl, old, m, p, rfl, hm, hp, ?_, hout⟩
    simpa using hnil
  · rintro ⟨hname, rfl, old, m, p, rfl, hm, hp, hnil, hout⟩
    have hmap : ¬ (m.isNone = true ∧ p.getD [] ≠ []) := by
      rintro ⟨hnone, hne⟩
      exact hne (hnil (Option.isNone_iff_eq_none.mp hnone))
    simp only [patchTarget, if_neg hname, hm, hp, if_neg hmap, hout]

/-- A write of a target to its file keeps the invariant, unless it stops in the middle. -/
theorem InOrder.finishWrite (horder : InOrder reader docs codec files) {io : FileWrite}
    (hio : ∀ written, io ≠ .cut written) {out : Except CallError (Str × Str)}
    (hout : io = .done → ∀ name data, out = .ok (name, data) → ∃ serverName,
      name = filename serverName ∧ Declares reader docs codec data serverName) :
    InOrder reader docs codec (Api.finishWrite files io out).2 := by
  cases out with
  | error e => exact horder
  | ok write =>
    obtain ⟨name, data⟩ := write
    simp only [Api.finishWrite, writeFile]
    split_ifs
    · exact horder
    · cases io with
      | done =>
        obtain ⟨serverName, rfl, hdata⟩ := hout rfl name data rfl
        exact horder.setContents hdata
      | refused => exact horder
      | cut written => exact absurd rfl (hio written)

section

/-- A target that is written is the one its file declares. -/
theorem ReadsTargets.declares (hreads : ReadsTargets reader docs codec) {t : TargetConfig R}
    (hdata : codec.marshalYAML t = some data) : Declares reader docs codec data t.serverName :=
  ⟨hreads.written t data hdata, fun m => hreads.target t data m hdata⟩

/-- A patch leaves a file that declares its target exactly if it fits. -/
theorem ReadsTargets.declares_iff (hreads : ReadsTargets reader docs codec) {old out : Str}
    {m p : Option Object} (hold : Declares reader docs codec old serverName)
    (hm : docs.unmarshal old = some m) (hp : docs.unmarshal data = some p)
    (hout : docs.marshal (mergeMaps (m.getD []) (p.getD [])) = some out) :
    Declares reader docs codec out serverName ↔ Fits reader serverName (p.getD []) := by
  have hdistinct : DistinctKeys (p.getD []) := by
    cases p with
    | none => simp [DistinctKeys]
    | some p => exact hreads.distinct data p hp
  rw [← decodedName_mergeMaps_iff (hold.generic m hm) hdistinct]
  constructor
  · intro hdeclares
    rw [← hreads.merged _ _ hout, hdeclares.target]
  · intro hname
    refine ⟨by rw [hreads.merged _ _ hout, hname], fun m' hm' => ?_⟩
    rw [hreads.reread _ _ m' hout hm', hname]

/-- A call keeps the invariant if its patch fits and its write does not stop in the
middle. -/
theorem InOrder.run (hreads : ReadsTargets reader docs codec) {files : List DirEntry}
    (horder : InOrder reader docs codec files) {call : Call R} (hwhole : call.Whole)
    (hfits : PatchFits reader docs files call) :
    InOrder reader docs codec (call.run codec docs files).2 := by
  cases call with
  | create target io =>
    refine horder.finishWrite (by rintro written rfl; exact hwhole) ?_
    intro _ name data hok
    obtain ⟨rfl, hdata⟩ := createTarget_ok hok
    exact ⟨_, rfl, hreads.declares hdata⟩
  | update serverName target io =>
    refine horder.finishWrite (by rintro written rfl; exact hwhole) ?_
    intro _ name data hok
    obtain ⟨rfl, hdata⟩ := updateTarget_ok (ok_of_mapError hok)
    exact ⟨_, rfl, hreads.declares hdata⟩
  | patch serverName data io =>
    refine horder.finishWrite (by rintro written rfl; exact hwhole) ?_
    rintro rfl name out hok
    obtain ⟨hname, rfl, old, m, p, hold, hm, hp, -, hout⟩ :=
      patchTarget_eq_ok_iff.mp (ok_of_mapError hok)
    exact ⟨serverName, rfl, (hreads.declares_iff (horder.declares hold) hm hp hout).mpr
      (hfits old m p hname hold hm hp)⟩
  | delete serverName removed =>
    simp only [Call.run, deleteTarget]
    split_ifs
    · exact horder
    · exact horder
    · exact horder.filter _
    · exact horder

end

/-- A target of that name. -/
def named (name : String) : TargetConfig Unit := ⟨str name, ()⟩

/-- The directory after some calls. -/
def directoryAfter (calls : List (Call Unit)) : List DirEntry :=
  calls.foldl (fun files call => (call.run flatCodec flatDocs files).2) []

variable {old k text out : Str} {m : Object}

theorem patchTarget_flat (hname : serverName ≠ []) (hold : flatDocs.unmarshal old = some (some m))
    (hdata : flatDocs.unmarshal data = some (some [(k, .scalar text)]))
    (hout : writeFlat (assign m k (.scalar text)) = some out) :
    patchTarget flatDocs serverName (some old) data = .ok (filename serverName, out) := by
  refine patchTarget_eq_ok_iff.mpr ⟨hname, rfl, _, _, _, rfl, hold, hdata, by simp, ?_⟩
  rw [Option.getD_some, Option.getD_some, mergeMaps_scalar]
  exact hout

/-- A target is created, patched, replaced and deleted. -/
def edits : List (Call Unit) :=
  [.create (named "a.com") .done, .patch (str "a.com") (str "host_header: b.com\n") .done,
    .update (str "a.com") (named "c.com") .done, .delete (str "a.com") true]

end Peretum.Api
