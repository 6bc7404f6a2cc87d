import Peretum.Api.Directory
import Peretum.Go.Filepath

/-!
# Where the API writes

The file of a target is found by joining the config directory with the server name and
cleaning the result, and a server name may have `/` and `..` in it. This file runs the
calls on a whole file system. They keep to the directory exactly for those server names
whose components, walked from the directory, lead back to it or below. Names without
separators do, and for them the directory alone tells what the calls do.
-/

namespace Peretum.Api

open Go Config ControlPlane Function

variable {R : Type}

/-- The contents of the files. -/
abbrev FileSystem := Path → Option Str

/-- The file of a target. -/
def targetPath (dir serverName : Str) : Path := joinPath dir (filename serverName)

/-- The target a call is about. -/
def Call.serverName : Call R → Str
  | .create target _ => target.serverName
  | .update serverName _ _ | .patch serverName _ _ | .delete serverName _ => serverName

namespace FileSystem

/-- `os.WriteFile`. -/
def writeFile (fs : FileSystem) (path : Path) (name data : Str) :
    FileWrite → Except CallError Unit × FileSystem
  | .refused => (.error (.write name), fs)
  | .cut written =>
      (.error (.write name), update fs path (some (data.take written)))
  | .done => (.ok (), update fs path (some data))

/-- A call writes what it has worked out. -/
def finishWrite (dir : Str) (fs : FileSystem) (io : FileWrite) :
    Except CallError (Str × Str) → Except CallError Unit × FileSystem
  | .error e => (.error e, fs)
  | .ok (name, data) => fs.writeFile (joinPath dir name) name data io

def deleteTarget (dir : Str) (fs : FileSystem) (serverName : Str) (removed : Bool) :
    Except CallError Unit × FileSystem :=
  if serverName = [] then (.error (.target .noServerName), fs)
  else if (fs (targetPath dir serverName)).isNone then
    (.error (.missing (filename serverName)), fs)
  else if removed then (.ok (), update fs (targetPath dir serverName) none)
  else (.error (.remove (filename serverName)), fs)

variable (codec : Codec R) (docs : DocumentCodec)

/-- One call: what it returns and the files it leaves. -/
def call (dir : Str) (fs : FileSystem) : Call R → Except CallError Unit × FileSystem
  | .create target io =>
      finishWrite dir fs io
        (createTarget codec (fs (targetPath dir target.serverName)).isSome target)
  | .update serverName target io =>
      finishWrite dir fs io ((updateTarget codec serverName target).mapError .target)
  | .patch serverName data io =>
      finishWrite dir fs io
        ((patchTarget docs serverName (fs (targetPath dir serverName)) data).mapError .target)
  | .delete serverName removed => deleteTarget dir fs serverName removed

/-- The files after some calls. -/
def calls (dir : Str) (fs : FileSystem) (calls : List (Call R)) : FileSystem :=
  calls.foldl (fun fs c => (call codec docs dir fs c).2) fs

variable {p : Path}

theorem finishWrite_frame {dir : Str} (fs : FileSystem) (io : FileWrite)
    {out : Except CallError (Str × Str)} {name : Str}
    (hout : ∀ name' data, out = .ok (name', data) → name' = name) (hp : p ≠ joinPath dir name) :
    (finishWrite dir fs io out).2 p = fs p := by
  cases out with
  | error e => rfl
  | ok write =>
    obtain ⟨name', data⟩ := write
    obtain rfl := hout name' data rfl
    cases io with
    | refused => rfl
    | cut written | done => exact update_of_ne hp _ _

theorem call_frame (dir : Str) (fs : FileSystem) (c : Call R)
    (hp : c.serverName ≠ [] → p ≠ targetPath dir c.serverName) :
    (call codec docs dir fs c).2 p = fs p := by
  by_cases hname : c.serverName = []
  · cases c <;> simp_all [Call.serverName, call, createTarget, updateTarget, patchTarget,
      Except.mapError, finishWrite, deleteTarget]
  · have hne := hp hname
    cases c with
    | create target io =>
      exact finishWrite_frame fs io (fun _ _ hok => (createTarget_ok hok).1) hne
    | update serverName target io =>
      exact finishWrite_frame fs io
        (fun _ _ hok => (updateTarget_ok (ok_of_mapError hok)).1) hne
    | patch serverName data io =>
      exact finishWrite_frame fs io
        (fun _ _ hok => (patchTarget_eq_ok_iff.mp (ok_of_mapError hok)).2.1) hne
    | delete serverName removed =>
      simp only [call, deleteTarget]
      split_ifs
      · rfl
      · rfl
      · exact update_of_ne hne _ _
      · rfl

theorem calls_frame (dir : Str) (fs : FileSystem) (cs : List (Call R))
    (hp : ∀ c ∈ cs, c.serverName ≠ [] → p ≠ targetPath dir c.serverName) :
    calls codec docs dir fs cs p = fs p := by
  induction cs generalizing fs with
  | nil => rfl
  | cons c cs ih =>
    have hrest := ih (call codec docs dir fs c).2 fun c hc => hp c (List.mem_cons_of_mem _ hc)
    exact hrest.trans (call_frame codec docs dir fs c (hp c List.mem_cons_self))

end FileSystem

/-- Calls for these targets create, change and remove no file outside the directory. -/
def Confined (codec : Codec R) (docs : DocumentCodec) (dir : Str) (names : Set Str) : Prop :=
  ∀ (fs : FileSystem) (cs : List (Call R)), (∀ c ∈ cs, c.serverName ∈ names) →
    ∀ p, ¬ Path.Inside (clean dir) p → fs.calls codec docs dir cs p = fs p

/-- Walked from the directory, the components of a server name but the last lead back to it
or below. -/
def LeadsBack (dir serverName : Str) : Prop :=
  Path.Below (clean dir)
    ((split 0x2F serverName).dropLast.foldl Path.walk (joinStart dir (filename serverName)))

instance decidableLeadsBack (dir serverName : Str) : Decidable (LeadsBack dir serverName) :=
  Path.decidableBelow _ _

/-- The file of a target is longer than `.` and `..`. -/
theorem filename_ne {c : Str} (hc : c.length < 5) (last : Str) : filename last ≠ c := by
  rintro rfl
  have hyaml : (str ".yaml").length = 5 := by decide
  rw [filename, List.length_append] at hc
  omega

/-- The file of a target is one step down from where its name leads. -/
theorem targetPath_eq (dir serverName : Str) :
    ∃ last, split 0x2F serverName = (split 0x2F serverName).dropLast ++ [last] ∧
      targetPath dir serverName = ((split 0x2F serverName).dropLast.foldl Path.walk
        (joinStart dir (filename serverName))).walk (filename last) := by
  have hyaml : (0x2F : UInt8) ∉ str ".yaml" := by decide
  obtain ⟨last, hlast, hsplit⟩ := split_append_of_not_mem serverName hyaml
  refine ⟨last, hlast, ?_⟩
  have hfilename : split 0x2F (filename serverName) =
      (split 0x2F serverName).dropLast ++ [filename last] := hsplit
  rw [targetPath, joinPath_eq, hfilename, List.foldl_append, List.foldl_cons, List.foldl_nil]

theorem inside_targetPath_iff (dir serverName : Str) :
    Path.Inside (clean dir) (targetPath dir serverName) ↔ LeadsBack dir serverName := by
  obtain ⟨last, -, hpath⟩ := targetPath_eq dir serverName
  rw [hpath]
  exact Path.inside_walk_iff _ _ (filename_ne (by decide) last) (filename_ne (by decide) last)
    (filename_ne (by decide) last)

/-- The calls for a set of targets keep to the directory exactly if every server name among
them leads back there. -/
theorem confined_iff (codec : Codec R) (docs : DocumentCodec) (dir : Str) (names : Set Str) :
    Confined codec docs dir names ↔ ∀ name ∈ names, name ≠ [] → LeadsBack dir name := by
  constructor
  · intro hconfined name hname hne
    rw [← inside_targetPath_iff]
    by_contra houtside
    -- A file is there, and the target is deleted.
    have hsame := hconfined (fun _ => some []) [.delete name true] (by simpa [Call.serverName])
      _ houtside
    simp [FileSystem.calls, FileSystem.call, FileSystem.deleteTarget, hne] at hsame
  · intro hleads fs cs hcs p houtside
    refine FileSystem.calls_frame codec docs dir fs cs fun c hc hne heq => houtside ?_
    rw [heq, inside_targetPath_iff]
    exact hleads _ (hcs c hc) hne

/-- A body with this server name creates a file beside the directory. -/
theorem climbing_not_confined :
    targetPath (str "config.d") (str "../evil") = ⟨false, 0, [str "evil.yaml"], by decide⟩ ∧
    ¬ Path.Inside (clean (str "config.d")) (targetPath (str "config.d") (str "../evil")) ∧
    (FileSystem.call flatCodec flatDocs (str "config.d") (fun _ => none)
      (.create (named "../evil") .done)).1 = .ok () ∧
    (FileSystem.call flatCodec flatDocs (str "config.d") (fun _ => none)
      (.create (named "../evil") .done)).2 (targetPath (str "config.d") (str "../evil")) =
        some (str "server_name: ../evil\n") ∧
    ¬ Confined flatCodec flatDocs (str "config.d") {str "../evil"} := by
  have houtside : ¬ Path.Inside (clean (str "config.d"))
      (targetPath (str "config.d") (str "../evil")) := by decide
  refine ⟨by decide, houtside, by decide, by decide, ?_⟩
  intro hconfined
  have hsame := hconfined (fun _ => none) [.create (named "../evil") .done]
    (List.forall_mem_singleton.mpr rfl) _ houtside
  exact absurd hsame (by decide)

/-- Names with separators that lead back. -/
theorem nested_confined :
    Confined flatCodec flatDocs (str "config.d") {str "a.com", str "sub/../b.com"} := by
  refine (confined_iff flatCodec flatDocs (str "config.d") _).mpr ?_
  rintro name (rfl | rfl) -
  · decide
  · decide

section

variable {dir : Str} {serverName n : Str} {files : List DirEntry} {fs : FileSystem}

/-- The file of a target has no separators in its name if the target has none. -/
theorem not_mem_filename (hname : 0x2F ∉ serverName) : 0x2F ∉ filename serverName := by
  have hyaml : (0x2F : UInt8) ∉ str ".yaml" := by decide
  rw [filename, List.mem_append, not_or]
  exact ⟨hname, hyaml⟩

/-- Without separators, the file of a target is an entry of the directory. -/
theorem targetPath_of_not_mem (hname : 0x2F ∉ serverName) :
    targetPath dir serverName =
      { clean dir with names := (clean dir).names ++ [filename serverName] } := by
  have hone : split 0x2F serverName = [serverName] := List.splitOn_eq_singleton hname
  obtain ⟨last, hlast, hpath⟩ := targetPath_eq dir serverName
  obtain rfl : serverName = last := by simpa [hone] using hlast
  rw [hpath, hone, joinStart_of_not_mem dir (not_mem_filename hname)]
  exact Path.walk_of_name _ (filename_ne (by decide) _) (filename_ne (by decide) _)
    (filename_ne (by decide) _)

/-- Different targets without separators have different files. -/
theorem targetPath_inj {n' : Str} (hn : 0x2F ∉ n) (hn' : 0x2F ∉ n')
    (heq : targetPath dir n = targetPath dir n') : n = n' := by
  rw [targetPath_of_not_mem hn, targetPath_of_not_mem hn'] at heq
  have hnames := congrArg Path.names heq
  simp only [List.append_cancel_left_eq, List.cons.injEq, and_true] at hnames
  exact filename_injective hnames

/-- The entries list the files of the directory. -/
structure Lists (dir : Str) (files : List DirEntry) (fs : FileSystem) : Prop where
  readable : ∀ e ∈ files, e.isDir = false ∧ e.contents.isSome = true
  contents : ∀ n, 0x2F ∉ n → contentsOf files (filename n) = fs (targetPath dir n)

theorem Lists.isSome_entryOf (hlists : Lists dir files fs) (hn : 0x2F ∉ n) :
    (entryOf files (filename n)).isSome = (fs (targetPath dir n)).isSome := by
  rw [← hlists.contents n hn, contentsOf]
  cases hentry : entryOf files (filename n) with
  | none => rfl
  | some e =>
    rw [Option.bind_some, (hlists.readable e (List.mem_of_find?_eq_some hentry)).2]
    rfl

theorem Lists.any_isDir (hlists : Lists dir files fs) (name : Str) :
    (entryOf files name).any DirEntry.isDir = false := by
  cases hentry : entryOf files name with
  | none => rfl
  | some e => exact (hlists.readable e (List.mem_of_find?_eq_some hentry)).1

theorem Lists.setContents (hlists : Lists dir files fs) (hn : 0x2F ∉ n) (data : Str) :
    Lists dir (ControlPlane.setContents files (filename n) data)
      (update fs (targetPath dir n) (some data)) := by
  refine ⟨fun e he => ?_, fun n' hn' => ?_⟩
  · rcases mem_setContents he with ⟨hold, -⟩ | ⟨-, hdata, hfile⟩
    · exact hlists.readable e hold
    · refine ⟨?_, by rw [hdata]; rfl⟩
      rcases hfile with hfile | ⟨old, hold, hsame⟩
      · exact hfile
      · rw [hsame]
        exact (hlists.readable old hold).1
  · rw [contentsOf_setContents]
    by_cases heq : n' = n
    · rw [heq, if_pos rfl, update_self]
    · rw [if_neg fun h => heq (filename_injective h),
        update_of_ne fun h => heq (targetPath_inj hn' hn h), hlists.contents n' hn']

theorem Lists.remove (hlists : Lists dir files fs) (hn : 0x2F ∉ n) :
    Lists dir (files.filter (·.name ≠ filename n)) (update fs (targetPath dir n) none) := by
  refine ⟨fun e he => hlists.readable e (List.mem_of_mem_filter he), fun n' hn' => ?_⟩
  have hfind : ∀ name, entryOf (files.filter (·.name ≠ filename n)) name =
      if name = filename n then none else entryOf files name := by
    intro name
    simp only [entryOf, List.find?_filter]
    split_ifs with hname
    · rw [List.find?_eq_none]
      rintro e - he
      simp [hname] at he
    · congr 1
      funext e
      by_cases he : e.name = name
      · simp [he, hname]
      · simp [he]
  rw [contentsOf, hfind]
  by_cases heq : n' = n
  · rw [heq, if_pos rfl, update_self]
    rfl
  · rw [if_neg fun h => heq (filename_injective h),
      update_of_ne fun h => heq (targetPath_inj hn' hn h), ← hlists.contents n' hn']
    rfl

theorem Lists.finishWrite (hlists : Lists dir files fs) (hn : 0x2F ∉ n) (io : FileWrite)
    {out : Except CallError (Str × Str)}
    (hout : ∀ name data, out = .ok (name, data) → name = filename n) :
    (Api.finishWrite files io out).1 = (fs.finishWrite dir io out).1 ∧
      Lists dir (Api.finishWrite files io out).2 (fs.finishWrite dir io out).2 := by
  cases out with
  | error e => exact ⟨rfl, hlists⟩
  | ok write =>
    obtain ⟨name, data⟩ := write
    obtain rfl := hout name data rfl
    simp only [Api.finishWrite, writeFile, hlists.any_isDir, Bool.false_eq_true, if_false,
      FileSystem.finishWrite]
    cases io with
    | refused => exact ⟨rfl, hlists⟩
    | cut written | done => exact ⟨rfl, hlists.setContents hn _⟩

/-- For a server name without separators, a call does the same to the directory and to the
files. -/
theorem Lists.run (hlists : Lists dir files fs) (codec : Codec R) (docs : DocumentCodec)
    {call : Call R} (hname : 0x2F ∉ call.serverName) :
    (call.run codec docs files).1 = (fs.call codec docs dir call).1 ∧
      Lists dir (call.run codec docs files).2 (fs.call codec docs dir call).2 := by
  cases call with
  | create target io =>
    have hfound := hlists.isSome_entryOf hname
    simp only [Call.serverName] at hfound
    simp only [Call.run, FileSystem.call, hfound]
    exact hlists.finishWrite hname io fun _ _ hok => (createTarget_ok hok).1
  | update serverName target io =>
    exact hlists.finishWrite hname io
      fun _ _ hok => (updateTarget_ok (ok_of_mapError hok)).1
  | patch serverName data io =>
    simp only [Call.run, FileSystem.call, hlists.contents serverName hname]
    exact hlists.finishWrite hname io
      fun _ _ hok => (patchTarget_eq_ok_iff.mp (ok_of_mapError hok)).2.1
  | delete serverName removed =>
    have hnone : (entryOf files (filename serverName)).isNone =
        (fs (targetPath dir serverName)).isNone := by
      rw [← Option.not_isSome, ← Option.not_isSome]
      exact congrArg not (hlists.isSome_entryOf hname)
    simp only [Call.run, FileSystem.call, deleteTarget, FileSystem.deleteTarget, hnone]
    split_ifs
    · exact ⟨rfl, hlists⟩
    · exact ⟨rfl, hlists⟩
    · exact ⟨rfl, hlists.remove hname⟩
    · exact ⟨rfl, hlists⟩

/-- For server names without separators, any calls do the same to the directory and to the
files. -/
theorem lists_of_calls (codec : Codec R) (docs : DocumentCodec) (hlists : Lists dir files fs)
    {calls : List (Call R)} (hnames : ∀ call ∈ calls, 0x2F ∉ call.serverName) :
    Lists dir (calls.foldl (fun files call => (call.run codec docs files).2) files)
      (calls.foldl (fun fs call => (fs.call codec docs dir call).2) fs) := by
  induction calls generalizing files fs with
  | nil => exact hlists
  | cons call calls ih =>
    obtain ⟨hcall, hrest⟩ := List.forall_mem_cons.mp hnames
    exact ih (hlists.run codec docs hcall).2 hrest

/-- The calls on one target, and a creation of another that is cut. -/
theorem edits_lists :
    Lists (str "/conf") (directoryAfter (edits ++ [.create (named "b.com") (.cut 3)]))
      (FileSystem.calls flatCodec flatDocs (str "/conf") (fun _ => none)
        (edits ++ [.create (named "b.com") (.cut 3)])) :=
  lists_of_calls flatCodec flatDocs ⟨by simp, fun _ _ => rfl⟩ (by decide)

end

end Peretum.Api
