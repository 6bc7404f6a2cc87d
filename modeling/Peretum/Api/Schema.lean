import Peretum.Api.Targets

/-!
# Documents of targets

`PatchTarget` merges documents without asking what they hold, while `LoadTargets` decodes
them into a `TargetConfig`. This file writes the types of that struct down as a schema and
says which documents decode. A document merged into one that decodes gives one that
decodes exactly if the merged-in document decodes by itself.
-/

namespace Peretum.Api

open Go

/-- The scalar types of the fields. -/
inductive ScalarKind where
  | string
  | int
  | bool
  /-- `float64`. -/
  | float
  deriving DecidableEq, Repr

/-- How the decoder reads scalars. -/
structure ScalarReader where
  isNull : Str → Bool
  /-- A scalar that is not null can be stored in a field of the type. -/
  accepts : ScalarKind → Str → Bool
  text : Str → Str

/-- The types of the fields. -/
inductive Schema where
  | scalar (kind : ScalarKind)
  | list (item : Schema)
  | map (value : Schema)
  | record (fields : List (Str × Schema))

mutual

/-- The decoder reads a value into the type without an error. Null is no value for any type, and
keys without a field are ignored. -/
def Schema.accepts (reader : ScalarReader) : Schema → Yaml → Bool
  | .scalar kind, .scalar text => reader.isNull text || reader.accepts kind text
  | .list item, .list items => items.all fun v => item.accepts reader v
  | .map value, .map m => m.all fun e => (m.lookup e.1).all fun v => value.accepts reader v
  | .record fields, .map m => acceptsFields reader fields m
  | _, .scalar text => reader.isNull text
  | _, _ => false

/-- The decoder reads the fields of a struct. -/
def acceptsFields (reader : ScalarReader) : List (Str × Schema) → Object → Bool
  | [], _ => true
  | (k, s) :: fields, m =>
      ((m.lookup k).all fun v => s.accepts reader v) && acceptsFields reader fields m

end

namespace Schema

def string : Schema := .scalar .string

def int : Schema := .scalar .int

def bool : Schema := .scalar .bool

/-- `float64`. -/
def float : Schema := .scalar .float

def targetTLSConfig : Schema :=
  .record [(str "cert_file", string), (str "key_file", string)]

def healthCheckConfig : Schema :=
  .record [(str "path", string), (str "interval", string), (str "timeout", string),
    (str "expected_status", int), (str "headers", .map string)]

def upstreamConfig : Schema :=
  .record [(str "url", string), (str "weight", int), (str "health_check", healthCheckConfig)]

/-- `CORSConfig`. -/
def corsConfig : Schema :=
  .record [(str "enabled", bool), (str "allow_origins", .list string),
    (str "allow_methods", .list string), (str "allow_headers", .list string),
    (str "expose_headers", .list string), (str "allow_credentials", bool), (str "max_age", int)]

def rewriteConfig : Schema :=
  .record [(str "pattern", string), (str "replacement", string), (str "break", bool),
    (str "redirect", string)]

def headersConfig : Schema :=
  .record [(str "request_add", .map string), (str "request_remove", .list string),
    (str "response_add", .map string), (str "response_remove", .list string)]

def proxyLocationConfig : Schema :=
  .record [(str "upstream", string), (str "connect_timeout", string),
    (str "read_timeout", string), (str "send_timeout", string), (str "buffering", bool),
    (str "buffer_size", string), (str "websocket", bool), (str "pass_host_header", bool)]

def imageOptimizeConfig : Schema :=
  .record [(str "enabled", bool), (str "max_width", int), (str "max_height", int),
    (str "quality", int), (str "format", string), (str "strip_metadata", bool),
    (str "progressive", bool)]

def optimizeConfig : Schema :=
  .record [(str "minify_css", bool), (str "minify_js", bool), (str "uglify_js", bool),
    (str "images", imageOptimizeConfig), (str "enabled", bool)]

def compressionConfig : Schema :=
  .record [(str "enabled", bool), (str "level", int), (str "min_length", int),
    (str "types", .list string)]

/-- `WAFCondition`. -/
def wafCondition : Schema :=
  .record [(str "param", string), (str "param_name", string), (str "operator", string),
    (str "value", string)]

/-- `WAFRuleAction`. -/
def wafRuleAction : Schema :=
  .record [(str "type", string), (str "code", int), (str "message", string), (str "rps", float),
    (str "burst", int)]

/-- `WAFRule`. -/
def wafRule : Schema :=
  .record [(str "id", string), (str "name", string), (str "enabled", bool),
    (str "action", wafRuleAction), (str "conditions", .list (.list wafCondition))]

/-- `WAFLocationConfig`. -/
def wafLocationConfig : Schema :=
  .record [(str "enabled", bool), (str "rules", .list wafRule)]

def locationConfig : Schema :=
  .record [(str "path", string), (str "match_type", string), (str "cache", bool),
    (str "cache_ttl", string), (str "cache_excludes", .list string), (str "cors", corsConfig),
    (str "rewrite", rewriteConfig), (str "headers", headersConfig),
    (str "proxy", proxyLocationConfig), (str "optimize", optimizeConfig),
    (str "compression", compressionConfig), (str "waf", wafLocationConfig)]

def targetConfig : Schema :=
  .record [(str "server_name", string), (str "host_header", string),
    (str "upstreams", .list upstreamConfig), (str "lb_algorithm", string),
    (str "locations", .list locationConfig), (str "tls", targetTLSConfig)]

end Schema

variable {reader : ScalarReader}

/-- The server name a document gives a target: a field that is missing or null stays
empty. -/
def serverNameOf (reader : ScalarReader) (m : Object) : Str :=
  match m.lookup (str "server_name") with
  | some (.scalar text) => if reader.isNull text then [] else reader.text text
  | _ => []

/-- The server name of the target a document decodes to, if it does. -/
def decodedName (reader : ScalarReader) (m : Object) : Option Str :=
  if Schema.targetConfig.accepts reader (.map m) then some (serverNameOf reader m) else none

/-- No key of a document, and of the maps in it, is given twice. -/
def DistinctKeys : Object → Prop
  | [] => True
  | (k, .map s) :: m => k ∉ m.map Prod.fst ∧ DistinctKeys s ∧ DistinctKeys m
  | (k, _) :: m => k ∉ m.map Prod.fst ∧ DistinctKeys m

/-- The value a merge leaves under a key. -/
def mergedValue : Option Yaml → Option Yaml → Option Yaml
  | some (.map d), some (.map s) => some (.map (mergeMaps d s))
  | old, none => old
  | _, some v => some v

@[simp] theorem mergedValue_none (old : Option Yaml) : mergedValue old none = old := by
  unfold mergedValue
  split <;> simp_all

/-- The head of a list of entries under its own and other keys. -/
theorem lookup_entry (j k : Str) (v : Yaml) (m : Object) :
    ((k, v) :: m).lookup j = if j = k then some v else m.lookup j := by
  rw [List.lookup_cons]
  by_cases hj : j = k
  · simp [hj]
  · simp [hj, beq_eq_false_iff_ne.mpr hj]

/-- An assignment changes the value under its key. -/
theorem lookup_assign (m : Object) (j k : Str) (v : Yaml) :
    (assign m k v).lookup j = if j = k then some v else m.lookup j := by
  rw [assign, lookup_entry]
  split_ifs with hj
  · rfl
  · induction m with
    | nil => rfl
    | cons e m ih =>
      obtain ⟨k', v'⟩ := e
      by_cases hk : k' = k
      · subst hk
        simpa [lookup_entry, hj] using ih
      · by_cases hj' : j = k'
        · simp [hk, hj']
        · simpa [hk, hj', lookup_entry] using ih

variable {m p : Object} {k : Str}

theorem lookup_eq_none_of_not_mem (hk : k ∉ m.map Prod.fst) : m.lookup k = none := by
  rw [List.lookup_eq_none_iff]
  intro e he
  have hne : k ≠ e.1 := fun h => hk (h ▸ List.mem_map_of_mem he)
  simpa using hne

theorem DistinctKeys.cons {v : Yaml} (hm : DistinctKeys ((k, v) :: m)) :
    k ∉ m.map Prod.fst ∧ DistinctKeys m := by
  cases v with
  | map s =>
    rw [DistinctKeys] at hm
    exact ⟨hm.1, hm.2.2⟩
  | scalar text | list items => simpa [DistinctKeys] using hm

theorem mergedValue_some (old : Option Yaml) (v : Yaml) :
    (∃ d s, old = some (.map d) ∧ v = .map s ∧
      mergedValue old (some v) = some (.map (mergeMaps d s))) ∨
    mergedValue old (some v) = some v := by
  unfold mergedValue
  split
  · next d s hs =>
    cases hs
    exact .inl ⟨d, s, rfl, rfl, rfl⟩
  · next hs => cases hs
  · next hs => exact .inr hs.symm

theorem mergeMaps_cons (dst : Object) (k : Str) (v : Yaml) (src : Object) :
    ∃ v', mergedValue (dst.lookup k) (some v) = some v' ∧
      mergeMaps dst ((k, v) :: src) = mergeMaps (assign dst k v') src := by
  rw [mergeMaps.eq_def]
  dsimp only
  split
  · next d s hd => exact ⟨_, by rw [hd]; rfl, rfl⟩
  · next v _ _ hcase =>
    refine ⟨_, ?_, rfl⟩
    rcases mergedValue_some (dst.lookup k) v with ⟨d, s, hd, rfl, -⟩ | hsame
    · exact absurd rfl (hcase d s hd)
    · exact hsame

theorem mergeMaps_scalar (dst : Object) (k text : Str) :
    mergeMaps dst [(k, .scalar text)] = assign dst k (.scalar text) := by
  simp [mergeMaps]

theorem lookup_mergeMaps (dst : Object) {src : Object} (hsrc : DistinctKeys src) (j : Str) :
    (mergeMaps dst src).lookup j = mergedValue (dst.lookup j) (src.lookup j) := by
  induction src generalizing dst with
  | nil =>
    rw [mergeMaps, List.lookup_nil, mergedValue_none]
  | cons e src ih =>
    obtain ⟨k, v⟩ := e
    obtain ⟨hk, hrest⟩ := hsrc.cons
    obtain ⟨v', hv', hmerge⟩ := mergeMaps_cons dst k v src
    rw [hmerge, ih _ hrest, lookup_assign, lookup_entry]
    split_ifs with hj
    · subst hj
      rw [hv', lookup_eq_none_of_not_mem hk, mergedValue_none]
    · rfl

theorem DistinctKeys.of_lookup {s : Object} (hm : DistinctKeys m)
    (hs : m.lookup k = some (.map s)) : DistinctKeys s := by
  induction m with
  | nil => cases hs
  | cons e m ih =>
    obtain ⟨k', v⟩ := e
    rw [lookup_entry] at hs
    split_ifs at hs with hk
    · cases hs
      rw [DistinctKeys] at hm
      exact hm.2.1
    · exact ih hm.cons.2 hs

theorem object_induction {motive : Object → Prop}
    (hmaps : ∀ m, (∀ k s, m.lookup k = some (.map s) → motive s) → motive m) (m : Object) :
    motive m := by
  have hsize : ∀ {m s : Object} {k : Str}, m.lookup k = some (.map s) → sizeOf s < sizeOf m := by
    intro m s k hs
    induction m with
    | nil => cases hs
    | cons e m ih =>
      obtain ⟨k', v⟩ := e
      rw [lookup_entry] at hs
      split_ifs at hs with hk
      · cases hs
        simp only [List.cons.sizeOf_spec, Prod.mk.sizeOf_spec, Yaml.map.sizeOf_spec]
        omega
      · have hlt := ih hs
        simp only [List.cons.sizeOf_spec]
        omega
  induction hn : sizeOf m using Nat.strong_induction_on generalizing m with
  | _ n ih =>
    refine hmaps m fun k s hs => ih (sizeOf s) ?_ s rfl
    rw [← hn]
    exact hsize hs

/-- The types a key has in a map or a struct. -/
def Schema.under (k : Str) : Schema → List Schema
  | .map value => [value]
  | .record fields => (fields.filter (·.1 = k)).map Prod.snd
  | _ => []

/-- The type is a map or a struct. -/
def Schema.isObject : Schema → Bool
  | .map _ | .record _ => true
  | _ => false

theorem acceptsFields_iff {fields : List (Str × Schema)} :
    acceptsFields reader fields m = true ↔
      ∀ k v, m.lookup k = some v → ∀ s ∈ (Schema.record fields).under k,
        s.accepts reader v = true := by
  induction fields with
  | nil => simp [acceptsFields, Schema.under]
  | cons f fields ih =>
    obtain ⟨k, s⟩ := f
    rw [acceptsFields, Bool.and_eq_true, ih, Option.all_eq_true]
    simp only [Schema.under, List.filter_cons, decide_eq_true_eq]
    constructor
    · rintro ⟨hfirst, hrest⟩ j v hv t ht
      split_ifs at ht with hj
      · subst hj
        rcases List.mem_cons.mp ht with rfl | ht
        · exact hfirst v hv
        · exact hrest _ v hv t ht
      · exact hrest j v hv t ht
    · intro hall
      refine ⟨fun v hv => hall k v hv s (by simp), fun j v hv t ht => hall j v hv t ?_⟩
      split_ifs
      · exact List.mem_cons_of_mem _ ht
      · exact ht

theorem Schema.accepts_map_iff {s : Schema} :
    s.accepts reader (.map m) = true ↔ s.isObject = true ∧
      ∀ k v, m.lookup k = some v → ∀ t ∈ s.under k, t.accepts reader v = true := by
  cases s with
  | scalar kind | list item => simp [Schema.accepts, Schema.isObject]
  | record fields =>
    rw [Schema.accepts, acceptsFields_iff]
    simp [Schema.isObject]
  | map value =>
    simp only [Schema.accepts, Schema.isObject, Schema.under, List.all_eq_true,
      Option.all_eq_true, List.mem_singleton, forall_eq, true_and]
    constructor
    · intro hall k v hv
      obtain ⟨l, r, hm, -⟩ := List.lookup_eq_some_iff.mp hv
      exact hall (k, v) (hm ▸ List.mem_append_cons_self) v hv
    · intro hall e _ v hv
      exact hall e.1 v hv

/-- What is merged into a document that can be read has to be readable, and that is
enough. -/
theorem Schema.accepts_mergeMaps {s : Schema} (hm : s.accepts reader (.map m) = true)
    (hp : DistinctKeys p) :
    s.accepts reader (.map (mergeMaps m p)) = true ↔ s.accepts reader (.map p) = true := by
  induction p using object_induction generalizing s m with
  | hmaps p ih =>
    obtain ⟨hobject, hold⟩ := Schema.accepts_map_iff.mp hm
    -- Under one key, old and new maps are merged; any other value is replaced.
    have hkey : ∀ k v w, p.lookup k = some v → (mergeMaps m p).lookup k = some w →
        ∀ t ∈ s.under k, (t.accepts reader w = true ↔ t.accepts reader v = true) := by
      intro k v w hv hw t ht
      rw [lookup_mergeMaps m hp, hv] at hw
      rcases mergedValue_some (m.lookup k) v with ⟨d, q, hd, rfl, hmerged⟩ | hsame
      · obtain rfl := Option.some.inj (hmerged.symm.trans hw)
        exact ih k q hv (hold k _ hd t ht) (hp.of_lookup hv)
      · rw [Option.some.inj (hsame.symm.trans hw)]
    rw [Schema.accepts_map_iff, Schema.accepts_map_iff]
    constructor
    · rintro ⟨-, hall⟩
      refine ⟨hobject, fun k v hv t ht => ?_⟩
      obtain ⟨w, hw⟩ : ∃ w, (mergeMaps m p).lookup k = some w := by
        rw [lookup_mergeMaps m hp, hv]
        rcases mergedValue_some (m.lookup k) v with ⟨d, q, -, -, hmerged⟩ | hsame
        · exact ⟨_, hmerged⟩
        · exact ⟨_, hsame⟩
      exact (hkey k v w hv hw t ht).mp (hall k w hw t ht)
    · rintro ⟨-, hall⟩
      refine ⟨hobject, fun k w hw t ht => ?_⟩
      cases hv : p.lookup k with
      | none =>
        rw [lookup_mergeMaps m hp, hv, mergedValue_none] at hw
        exact hold k w hw t ht
      | some v => exact (hkey k v w hv hw t ht).mpr (hall k v hv t ht)

theorem serverNameOf_mergeMaps (hm : Schema.targetConfig.accepts reader (.map m) = true)
    (hp : DistinctKeys p) :
    serverNameOf reader (mergeMaps m p) =
      if (p.lookup (str "server_name")).isSome then serverNameOf reader p
      else serverNameOf reader m := by
  unfold serverNameOf
  rw [lookup_mergeMaps m hp]
  cases hv : p.lookup (str "server_name") with
  | none => simp
  | some v =>
    rcases mergedValue_some (m.lookup (str "server_name")) v with ⟨d, q, hd, rfl, -⟩ | hsame
    · -- A map is no server name.
      have hmap := (Schema.accepts_map_iff.mp hm).2 _ _ hd .string
        (by simp [Schema.targetConfig, Schema.under])
      simp [Schema.string, Schema.accepts] at hmap
    · rw [hsame]
      rfl

/-- A patch fits a target: it decodes by itself, and if it gives a server name, it gives
the one the target has. -/
structure Fits (reader : ScalarReader) (serverName : Str) (p : Object) : Prop where
  accepted : Schema.targetConfig.accepts reader (.map p) = true
  name : (p.lookup (str "server_name")).isSome = true → serverNameOf reader p = serverName

/-- The file of a target still decodes to a target of that name after a merge exactly if
the patch fits. -/
theorem decodedName_mergeMaps_iff {serverName : Str} (hm : decodedName reader m = some serverName)
    (hp : DistinctKeys p) :
    decodedName reader (mergeMaps m p) = some serverName ↔ Fits reader serverName p := by
  unfold decodedName at hm ⊢
  split_ifs at hm with haccepts
  cases hm
  rw [serverNameOf_mergeMaps haccepts hp]
  constructor
  · intro hmerged
    split_ifs at hmerged with hall hgiven
    · exact ⟨(Schema.accepts_mergeMaps haccepts hp).mp hall, fun _ => Option.some.inj hmerged⟩
    · exact ⟨(Schema.accepts_mergeMaps haccepts hp).mp hall, fun h => absurd h hgiven⟩
  · intro hfits
    rw [if_pos ((Schema.accepts_mergeMaps haccepts hp).mpr hfits.accepted)]
    split_ifs with hgiven
    · rw [hfits.name hgiven]
    · rfl

end Peretum.Api
