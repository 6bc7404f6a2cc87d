import Peretum.Go.Header

/-!
# Target configurations

A target is a YAML file in the config directory. Only its `server_name` decides
where the config goes, so the other fields stay abstract here, and so do the JSON
and YAML encoders. This file embeds the parsing of `server_name` and the loading
of a directory.
-/

namespace Peretum.Config

open Go

/-- `config.TargetConfig`: the server name and the other fields. -/
structure TargetConfig (R : Type) where
  serverName : Str
  rest : R
  deriving DecidableEq

/-- The encoders of target configurations. -/
structure Codec (R : Type) where
  marshalJSON : TargetConfig R → Option Str
  unmarshalJSON : Str → Option (TargetConfig R)
  marshalYAML : TargetConfig R → Option Str
  unmarshalYAML : Str → Option (TargetConfig R)

/-- A config can be read from a file. -/
def Codec.Reads {R : Type} (codec : Codec R) (t : TargetConfig R) : Prop :=
  ∃ data, codec.unmarshalYAML data = some t

/-- Every config that is read from a file can be encoded, and decoding returns it. -/
structure Codec.Lossless {R : Type} (codec : Codec R) : Prop where
  /-- As JSON. -/
  json : ∀ t, codec.Reads t →
    ∃ data, codec.marshalJSON t = some data ∧ codec.unmarshalJSON data = some t
  /-- As YAML. -/
  yaml : ∀ t, codec.Reads t →
    ∃ data, codec.marshalYAML t = some data ∧ codec.unmarshalYAML data = some t

/-- A config that was read from YAML can be written and read again. -/
def Codec.Rereads {R : Type} (codec : Codec R) : Prop :=
  ∀ data t, codec.unmarshalYAML data = some t →
    ∃ data', codec.marshalYAML t = some data' ∧ codec.unmarshalYAML data' = some t

/-- `ParseServerNames`: the entries of a comma-separated list without surrounding
space and without what follows a colon. -/
def parseServerNames (serverName : Str) : List Str :=
  if serverName = [] then []
  else (((split 0x2C serverName).map trimSpace).filter (· ≠ [])).map (·.takeWhile (· ≠ 0x3A))

example : parseServerNames (str "a.com, b.com:80,,") = [str "a.com", str "b.com"] := by decide

variable {R : Type}

/-- The hostnames a target claims. -/
def TargetConfig.names (t : TargetConfig R) : List Str := parseServerNames t.serverName

/-- An entry of the config directory. -/
structure DirEntry where
  name : Str
  isDir : Bool
  /-- What `os.ReadFile` returns, if it succeeds. -/
  contents : Option Str

/-- What `os.ReadDir` returns for the config directory, if it succeeds. -/
abbrev Directory := Option (List DirEntry)

/-- The errors of `LoadTargets`. -/
inductive LoadError where
  | readDir
  | readFile (name : Str)
  | decode (name : Str)
  /-- `ErrNoTargetFiles`. -/
  | noTargetFiles
  deriving DecidableEq, Repr

def loadTarget (codec : Codec R) (entry : DirEntry) : Except LoadError (TargetConfig R) :=
  match entry.contents with
  | none => .error (.readFile entry.name)
  | some data =>
      match codec.unmarshalYAML data with
      | none => .error (.decode entry.name)
      | some target => .ok target

/-- The entries `LoadTargets` reads. -/
def isTargetFile (entry : DirEntry) : Bool :=
  !entry.isDir && (fileExt entry.name == str ".yaml" || fileExt entry.name == str ".yml")

/-- The loop of `LoadTargets`. -/
def loadEntries (codec : Codec R) : List DirEntry → Except LoadError (List (TargetConfig R))
  | [] => .ok []
  | entry :: entries =>
      if isTargetFile entry then
        match loadTarget codec entry with
        | .error e => .error e
        | .ok target =>
            match loadEntries codec entries with
            | .error e => .error e
            | .ok targets => .ok (target :: targets)
      else loadEntries codec entries

def loadTargets (codec : Codec R) (dir : Directory) : Except LoadError (List (TargetConfig R)) :=
  match dir with
  | none => .error .readDir
  | some entries =>
      match loadEntries codec entries with
      | .error e => .error e
      | .ok [] => .error .noTargetFiles
      | .ok (target :: targets) => .ok (target :: targets)

variable {targets : List (TargetConfig R)} {t : TargetConfig R} {name : Str}

theorem exists_data_of_mem_loadEntries {codec : Codec R} {entries : List DirEntry}
    (hload : loadEntries codec entries = .ok targets) (ht : t ∈ targets) : codec.Reads t := by
  induction entries generalizing targets with
  | nil =>
    obtain rfl : [] = targets := by simpa [loadEntries] using hload
    exact absurd ht List.not_mem_nil
  | cons entry entries ih =>
    rw [loadEntries] at hload
    split at hload
    · split at hload
      · cases hload
      · next target htarget =>
        split at hload
        · cases hload
        · next rest hrest =>
          obtain rfl : target :: rest = targets := by simpa using hload
          rcases List.mem_cons.mp ht with rfl | ht
          · unfold loadTarget at htarget
            split at htarget
            · cases htarget
            · next data _ =>
              split at htarget
              · cases htarget
              · next u hu =>
                obtain rfl : u = t := by simpa using htarget
                exact ⟨data, hu⟩
          · exact ih hrest ht
    · exact ih hload ht

theorem exists_data_of_mem_loadTargets {codec : Codec R} {dir : Directory}
    (hload : loadTargets codec dir = .ok targets) (ht : t ∈ targets) : codec.Reads t := by
  unfold loadTargets at hload
  split at hload
  · cases hload
  · next entries =>
    split at hload
    · cases hload
    · cases hload
    · next target rest hentries =>
      obtain rfl : target :: rest = targets := by simpa using hload
      exact exists_data_of_mem_loadEntries hentries ht

/-- The last target of a list that claims a hostname. -/
def owner (targets : List (TargetConfig R)) (name : Str) : Option (TargetConfig R) :=
  targets.reverse.find? (fun t => name ∈ t.names)

theorem owner_cons (t : TargetConfig R) (targets : List (TargetConfig R)) (name : Str) :
    owner (t :: targets) name =
      (owner targets name).or (if name ∈ t.names then some t else none) := by
  unfold owner
  by_cases hname : name ∈ t.names
  · simp [hname]
  · simp [hname]

theorem mem_of_owner (howner : owner targets name = some t) : t ∈ targets ∧ name ∈ t.names := by
  have hmem := List.mem_of_find?_eq_some howner
  have hname := List.find?_some howner
  exact ⟨List.mem_reverse.mp hmem, by simpa using hname⟩

theorem owner_isSome_iff : (owner targets name).isSome ↔ ∃ t ∈ targets, name ∈ t.names := by
  simp [owner]

/-- No hostname is claimed by two targets of the list. -/
def DisjointNames (targets : List (TargetConfig R)) : Prop :=
  targets.Pairwise fun t u => List.Disjoint t.names u.names

theorem DisjointNames.owner_eq (hdisjoint : DisjointNames targets) (ht : t ∈ targets)
    (hname : name ∈ t.names) : owner targets name = some t := by
  induction targets with
  | nil => cases ht
  | cons u targets ih =>
    obtain ⟨hhead, htail⟩ := List.pairwise_cons.mp hdisjoint
    rw [owner_cons]
    rcases List.mem_cons.mp ht with rfl | hmem
    · have hnone : owner targets name = none := by
        cases howner : owner targets name with
        | none => rfl
        | some v =>
          obtain ⟨hv, hclaim⟩ := mem_of_owner howner
          exact absurd hclaim (hhead v hv hname)
      simp [hnone, hname]
    · rw [ih htail hmem]
      rfl

theorem disjointNames_pair {u : TargetConfig R} (h : ∀ name ∈ t.names, name ∉ u.names) :
    DisjointNames [t, u] :=
  List.pairwise_pair.mpr fun name ht hu => h name ht hu

end Peretum.Config
