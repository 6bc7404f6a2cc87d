import Peretum.Config

/-!
# The target API

The API server changes targets by writing their files, one file per target, named
after the server name. `UpdateTarget` replaces the file and `PatchTarget` merges a
partial document into it. This file embeds what the two calls write. The document
decoder and encoder are parameters; the merge is the one of the source.
-/

namespace Peretum.Api

open Go Config

variable {R : Type}

/-- A value of a document, as `yaml.Unmarshal` gives it to an `interface{}`. -/
inductive Yaml where
  /-- A scalar that is resolved, in the text `yaml.Marshal` writes it in: what was read as `1e3`
  is `1000`, and what was read as `True` is `true`. -/
  | scalar (text : Str)
  /-- A sequence. -/
  | list (items : List Yaml)
  /-- A mapping. -/
  | map (entries : List (Str × Yaml))

/-- A `map[string]interface{}` that is not nil. -/
abbrev Object := List (Str × Yaml)

/-- The assignment `m[k] = v`. -/
def assign (m : Object) (k : Str) (v : Yaml) : Object := (k, v) :: m.filter (·.1 ≠ k)

/-- `mergeMaps`: the entries of the second map overwrite those of the first, and two
maps under the same key are merged. -/
def mergeMaps (dst : Object) : Object → Object
  | [] => dst
  | (k, v) :: src =>
      match dst.lookup k, v with
      | some (.map d), .map s => mergeMaps (assign dst k (.map (mergeMaps d s))) src
      | _, v => mergeMaps (assign dst k v) src

/-- The coding of documents as generic maps; an empty document is a nil map. -/
structure DocumentCodec where
  /-- `yaml.Unmarshal` into a `map[string]interface{}`. -/
  unmarshal : Str → Option (Option Object)
  /-- `yaml.Marshal` of such a map. -/
  marshal : Object → Option Str

/-- The errors of the two calls before they write. -/
inductive TargetError where
  /-- "server_name is required to determine filename" -/
  | noServerName
  /-- "target %s does not exist", or the file cannot be read. -/
  | read (filename : Str)
  /-- "unmarshal existing %s" -/
  | unmarshalExisting (filename : Str)
  /-- "unmarshal patch data" -/
  | unmarshalPatch
  | nilMap
  | marshal
  deriving DecidableEq, Repr

/-- The file of a target. -/
def filename (serverName : Str) : Str := serverName ++ str ".yaml"

/-- `UpdateTarget` up to the write: the file and its new contents. -/
def updateTarget (codec : Codec R) (serverName : Str) (target : TargetConfig R) :
    Except TargetError (Str × Str) :=
  if serverName = [] then .error .noServerName
  else
    match codec.marshalYAML { target with serverName := serverName } with
    | none => .error .marshal
    | some data => .ok (filename serverName, data)

/-- `PatchTarget` up to the write, on the contents it reads. -/
def patchTarget (docs : DocumentCodec) (serverName : Str) (existing : Option Str) (data : Str) :
    Except TargetError (Str × Str) :=
  if serverName = [] then .error .noServerName
  else
    match existing with
    | none => .error (.read (filename serverName))
    | some existing =>
        match docs.unmarshal existing with
        | none => .error (.unmarshalExisting (filename serverName))
        | some existingMap =>
            match docs.unmarshal data with
            | none => .error .unmarshalPatch
            | some incomingMap =>
                if existingMap.isNone ∧ incomingMap.getD [] ≠ [] then .error .nilMap
                else
                  match docs.marshal (mergeMaps (existingMap.getD []) (incomingMap.getD [])) with
                  | none => .error .marshal
                  | some out => .ok (filename serverName, out)

end Peretum.Api
