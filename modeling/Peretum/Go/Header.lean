import Mathlib.Data.List.AList
import Peretum.Go.Strings

/-!
# Maps and HTTP headers

A Go map is an association list without duplicate keys; the order of its entries
is the order in which one `range` loop visits them, so a statement about every
association list covers every iteration order. `Header` is `net/http`'s map from
canonical header names to value lists, with the operations that canonicalize the
name they are given.
-/

namespace Go

/-- A Go map together with one order of iteration. -/
abbrev Map (K V : Type) := AList (fun _ : K => V)

variable {K V W : Type}

theorem Map.mem_of_lookup [DecidableEq K] {m : Map K V} {k : K} {v : V} (h : m.lookup k = some v) :
    k ∈ m :=
  AList.lookup_isSome.mp (by rw [h]; rfl)

theorem Map.length_insert [DecidableEq K] (m : Map K V) (k : K) (v : V) :
    (m.insert k v).entries.length =
      if k ∈ m then m.entries.length else m.entries.length + 1 := by
  split
  · next hmem =>
    have hkeys : ∀ s : Map K V, s.entries.length = s.keys.length := fun s => by
      simp [AList.keys, List.keys]
    have hpos : 0 < m.keys.length := List.length_pos_of_mem (AList.mem_keys.mp hmem)
    rw [hkeys, hkeys, AList.keys_insert, List.length_cons,
      List.length_erase_of_mem (AList.mem_keys.mp hmem)]
    omega
  · next hnotMem => rw [AList.entries_insert_of_notMem hnotMem, List.length_cons]

theorem Map.length_erase [DecidableEq K] {m : Map K V} {k : K} (hmem : k ∈ m) :
    (m.erase k).entries.length = m.entries.length - 1 := by
  have hkeys : ∀ s : Map K V, s.entries.length = s.keys.length := fun s => by
    simp [AList.keys, List.keys]
  rw [hkeys, hkeys, AList.keys_erase, List.length_erase_of_mem (AList.mem_keys.mp hmem)]

/-- Inserting the images of the entries of one map into another: the entries of
the first map win. -/
theorem Map.lookup_foldl_insert [DecidableEq K] (f : V → W) (src : Map K V) (acc : Map K W)
    (k : K) :
    (src.entries.foldl (fun m e => m.insert e.1 (f e.2)) acc).lookup k =
      ((src.lookup k).map f).or (acc.lookup k) := by
  induction src using AList.insertRec generalizing acc with
  | H0 => simp
  | IH key val src hnotMem ih =>
    rw [AList.entries_insert_of_notMem hnotMem, List.foldl_cons, ih]
    by_cases hk : k = key
    · subst hk
      have hnone : src.lookup k = none := AList.lookup_eq_none.mpr hnotMem
      simp [hnone]
    · rw [AList.lookup_insert_ne hk, AList.lookup_insert_ne hk]

/-- A map with the images of the entries of another has them as its entries, in some
order. -/
theorem Map.entries_perm_of_lookup_map [DecidableEq K] {m : Map K V} {m' : Map K W} (f : V → W)
    (h : ∀ k, m'.lookup k = (m.lookup k).map f) :
    m'.entries.Perm (m.entries.map fun e => ⟨e.1, f e.2⟩) := by
  change m'.entries.Perm (m.entries.map (.map id fun _ => f))
  refine List.lookup_ext m'.nodupKeys (m.nodupKeys.map₂ _ _) fun k w => ?_
  rw [List.dlookup_map₂]
  exact iff_of_eq (congrArg (w ∈ ·) (h k))

theorem Map.map_filter_entries [DecidableEq K] (f : V → W) (m : Map K V) (k : K) :
    (m.entries.filter (fun e => k = e.1)).map (fun e => f e.2) = ((m.lookup k).map f).toList := by
  induction m using AList.insertRec with
  | H0 => simp
  | IH key val m hnotMem ih =>
    rw [AList.entries_insert_of_notMem hnotMem, List.filter_cons]
    by_cases hk : k = key
    · subst hk
      rw [AList.lookup_eq_none.mpr hnotMem] at ih
      simp [ih]
    · simp [hk, ih, AList.lookup_insert_ne hk]

theorem Map.lookup_foldl_insert_const [DecidableEq K] (keys : List K) (v : V) (m : Map K V)
    (k : K) :
    (keys.foldl (fun m key => m.insert key v) m).lookup k =
      if k ∈ keys then some v else m.lookup k := by
  induction keys generalizing m with
  | nil => simp
  | cons key keys ih =>
    rw [List.foldl_cons, ih]
    by_cases hk : k = key
    · subst hk
      simp
    · rw [AList.lookup_insert_ne hk]
      simp [hk]

/-- The bytes `net/textproto` allows in a header field name. -/
def validHeaderFieldByte (b : UInt8) : Bool :=
  (0x30 ≤ b && b ≤ 0x39) || (0x41 ≤ b && b ≤ 0x5A) || (0x61 ≤ b && b ≤ 0x7A) ||
    (str "!#$%&'*+-.^_`|~").contains b

/-- Capitalize the first letter and every letter after a hyphen. -/
def capitalize : Bool → Str → Str
  | _, [] => []
  | upper, b :: t =>
      let c := if upper then upperByte b else lowerByte b
      c :: capitalize (c == 0x2D) t

/-- `textproto.CanonicalMIMEHeaderKey`: names with an invalid byte are left alone. -/
def canonicalMIMEHeaderKey (s : Str) : Str :=
  if s.all validHeaderFieldByte then capitalize true s else s

theorem validHeaderFieldByte_case {b : UInt8} (hvalid : validHeaderFieldByte b = true)
    (upper : Bool) :
    validHeaderFieldByte (if upper then upperByte b else lowerByte b) = true := by
  cases upper with
  | true =>
    simp only [if_true, upperByte]
    split
    · next h =>
      have hrange : 0x41 ≤ b - 0x20 ∧ b - 0x20 ≤ 0x5A := by
        simp only [UInt8.le_iff_toNat_le, UInt8.toNat_sub, UInt8.reduceToNat] at *
        omega
      simp [validHeaderFieldByte, hrange]
    · exact hvalid
  | false =>
    simp only [Bool.false_eq_true, if_false, lowerByte]
    split
    · next h =>
      have hrange : 0x61 ≤ b + 0x20 ∧ b + 0x20 ≤ 0x7A := by
        simp only [UInt8.le_iff_toNat_le, UInt8.toNat_add, UInt8.reduceToNat] at *
        omega
      simp [validHeaderFieldByte, hrange]
    · exact hvalid

theorem capitalize_valid (upper : Bool) {s : Str} (hvalid : s.all validHeaderFieldByte = true) :
    (capitalize upper s).all validHeaderFieldByte = true := by
  induction s generalizing upper with
  | nil => rfl
  | cons b t ih =>
    simp only [List.all_cons, Bool.and_eq_true] at hvalid
    simp only [capitalize, List.all_cons, Bool.and_eq_true]
    exact ⟨validHeaderFieldByte_case hvalid.1 upper, ih _ hvalid.2⟩

theorem capitalize_capitalize (upper : Bool) (s : Str) :
    capitalize upper (capitalize upper s) = capitalize upper s := by
  induction s generalizing upper with
  | nil => rfl
  | cons b t ih =>
    have hcase : (if upper then upperByte (if upper then upperByte b else lowerByte b)
        else lowerByte (if upper then upperByte b else lowerByte b)) =
        if upper then upperByte b else lowerByte b := by
      cases upper <;> simp [upperByte_upperByte, lowerByte_lowerByte]
    simp only [capitalize, hcase, ih]

@[simp] theorem canonicalMIMEHeaderKey_idem (s : Str) :
    canonicalMIMEHeaderKey (canonicalMIMEHeaderKey s) = canonicalMIMEHeaderKey s := by
  by_cases hvalid : s.all validHeaderFieldByte = true
  · simp only [canonicalMIMEHeaderKey, hvalid, if_true, capitalize_valid true hvalid,
      capitalize_capitalize]
  · simp [canonicalMIMEHeaderKey, hvalid]

example : canonicalMIMEHeaderKey (str "x-cache-AGE") = str "X-Cache-Age" := by decide

/-- `http.Header`. -/
abbrev Header := Map Str (List Str)

namespace Header

/-- `Header.Set`. -/
def set (h : Header) (k v : Str) : Header := h.insert (canonicalMIMEHeaderKey k) [v]

/-- `Header.Add`. -/
def add (h : Header) (k v : Str) : Header :=
  h.insert (canonicalMIMEHeaderKey k) ((h.lookup (canonicalMIMEHeaderKey k)).getD [] ++ [v])

/-- `Header.Del`. -/
def del (h : Header) (k : Str) : Header := h.erase (canonicalMIMEHeaderKey k)

/-- `Header.Get`: the first value, or the empty string. -/
def get (h : Header) (k : Str) : Str :=
  ((h.lookup (canonicalMIMEHeaderKey k)).getD []).headD []

@[simp] theorem lookup_set (h : Header) (k v name : Str) :
    (h.set k v).lookup name =
      if name = canonicalMIMEHeaderKey k then some [v] else h.lookup name := by
  split
  · next heq => subst heq; exact AList.lookup_insert h
  · next hne => exact AList.lookup_insert_ne hne

theorem lookup_add (h : Header) (k v name : Str) :
    (h.add k v).lookup name =
      if name = canonicalMIMEHeaderKey k then some ((h.lookup name).getD [] ++ [v])
      else h.lookup name := by
  split
  · next heq => subst heq; exact AList.lookup_insert h
  · next hne => exact AList.lookup_insert_ne hne

@[simp] theorem lookup_del (h : Header) (k name : Str) :
    (h.del k).lookup name =
      if name = canonicalMIMEHeaderKey k then none else h.lookup name := by
  split
  · next heq => subst heq; exact AList.lookup_erase _ h
  · next hne => exact AList.lookup_erase_ne hne

/-- The loop that adds every value of one entry of a header map. -/
def addAll (dst : Header) (k : Str) (vals : List Str) : Header :=
  vals.foldl (fun h v => h.add k v) dst

/-- The loop that adds every entry of a list to a header map. -/
def addEntries (dst : Header) (entries : List (Sigma fun _ : Str => List Str)) : Header :=
  entries.foldl (fun h e => h.addAll e.1 e.2) dst

/-- Copy every value of one header map into another with `Header.Add`. -/
def copy (dst src : Header) : Header := dst.addEntries src.entries

/-- The header names of the map are in canonical form. -/
def Canonical (h : Header) : Prop := ∀ k ∈ h, canonicalMIMEHeaderKey k = k

/-- No header of the map has an empty list of values. -/
def Valued (h : Header) : Prop := ∀ k, h.lookup k ≠ some []

variable {h : Header}

theorem canonical_of_entries (hentries : ∀ e ∈ h.entries, canonicalMIMEHeaderKey e.1 = e.1) :
    Canonical h := by
  intro k hk
  obtain ⟨e, he, rfl⟩ := List.mem_map.mp (AList.mem_keys.mp hk)
  exact hentries e he

theorem valued_of_entries (hentries : ∀ e ∈ h.entries, e.2 ≠ []) : Valued h := by
  intro k hk
  exact hentries ⟨k, []⟩ (AList.mem_lookup_iff.mp hk) rfl

theorem Canonical.set (hcanon : Canonical h) (k v : Str) : Canonical (h.set k v) := by
  intro name hname
  rcases (AList.mem_insert h).mp hname with rfl | hmem
  · exact canonicalMIMEHeaderKey_idem k
  · exact hcanon name hmem

theorem Canonical.del (hcanon : Canonical h) (k : Str) : Canonical (h.del k) :=
  fun name hname => hcanon name (AList.mem_erase.mp hname).2

/-- Delete several headers. -/
def delAll (h : Header) (keys : List Str) : Header := keys.foldl del h

theorem lookup_delAll (h : Header) (keys : List Str) (name : Str) :
    (h.delAll keys).lookup name =
      if name ∈ keys.map canonicalMIMEHeaderKey then none else h.lookup name := by
  induction keys generalizing h with
  | nil => simp [delAll]
  | cons k keys ih =>
    change ((h.del k).delAll keys).lookup name = _
    rw [ih, lookup_del]
    by_cases hmem : name ∈ keys.map canonicalMIMEHeaderKey
    · simp [hmem]
    · by_cases hk : name = canonicalMIMEHeaderKey k
      · simp [hk]
      · simp only [hmem, hk, if_false, List.map_cons, List.mem_cons, or_self]

/-- Deleting several headers keeps the names canonical. -/
theorem Canonical.delAll (hcanon : Canonical h) (keys : List Str) : Canonical (h.delAll keys) := by
  induction keys generalizing h with
  | nil => exact hcanon
  | cons k keys ih => exact ih (hcanon.del k)

/-- Set the headers of a map from names to single values. -/
def setAll (h : Header) (entries : List (Sigma fun _ : Str => Str)) : Header :=
  entries.foldl (fun h e => h.set e.1 e.2) h

/-- The values a list of entries has for a name in any spelling. -/
def spelled (entries : List (Sigma fun _ : Str => Str)) (name : Str) : List Str :=
  (entries.filter (fun e => name = canonicalMIMEHeaderKey e.1)).map Sigma.snd

/-- Setting several headers leaves the last value for each name. -/
theorem lookup_setAll (h : Header) (entries : List (Sigma fun _ : Str => Str)) (name : Str) :
    (h.setAll entries).lookup name =
      (((spelled entries name).getLast?).map (fun v => [v])).or (h.lookup name) := by
  induction entries generalizing h with
  | nil => simp [setAll, spelled]
  | cons e entries ih =>
    change ((h.set e.1 e.2).setAll entries).lookup name = _
    rw [ih, lookup_set]
    by_cases hname : name = canonicalMIMEHeaderKey e.1
    · have hcons : spelled (e :: entries) name = e.2 :: spelled entries name := by
        simp [spelled, hname]
      rw [hcons, List.getLast?_cons, if_pos hname]
      cases (spelled entries name).getLast? <;> simp
    · have hskip : spelled (e :: entries) name = spelled entries name := by
        simp [spelled, hname]
      rw [hskip, if_neg hname]

/-- Setting several headers keeps the names canonical. -/
theorem Canonical.setAll (hcanon : Canonical h) (entries : List (Sigma fun _ : Str => Str)) :
    Canonical (h.setAll entries) := by
  induction entries generalizing h with
  | nil => exact hcanon
  | cons e entries ih => exact ih (hcanon.set e.1 e.2)

/-- Adding several values appends them in order. -/
theorem lookup_addAll (dst : Header) (k : Str) (vals : List Str) (name : Str) :
    (dst.addAll k vals).lookup name =
      if name = canonicalMIMEHeaderKey k ∧ vals ≠ [] then
        some ((dst.lookup name).getD [] ++ vals)
      else dst.lookup name := by
  induction vals generalizing dst with
  | nil => simp [addAll]
  | cons v vals ih =>
    change ((dst.add k v).addAll k vals).lookup name = _
    rw [ih, lookup_add]
    by_cases hname : name = canonicalMIMEHeaderKey k
    · by_cases hvals : vals = []
      · simp [hname, hvals]
      · simp [hname, hvals]
    · simp [hname]

/-- Adding the entries of a map with canonical names appends, for each name, the
values the map has for it. -/
theorem lookup_copy (dst src : Header) (hcanon : src.Canonical) (name : Str) :
    (dst.copy src).lookup name =
      if (src.lookup name).getD [] = [] then dst.lookup name
      else some ((dst.lookup name).getD [] ++ (src.lookup name).getD []) := by
  induction src using AList.insertRec generalizing dst with
  | H0 => simp [copy, addEntries]
  | IH k vals src hnotMem ih =>
    have hk : canonicalMIMEHeaderKey k = k := hcanon k (by simp)
    have hsrc : Canonical src := fun j hj => hcanon j (by simp [hj])
    have hentries : (AList.insert k vals src).entries = ⟨k, vals⟩ :: src.entries :=
      AList.entries_insert_of_notMem hnotMem
    have hcopy : dst.copy (AList.insert k vals src) = (dst.addAll k vals).copy src := by
      simp only [copy, addEntries, hentries, List.foldl_cons]
    rw [hcopy, ih _ hsrc, lookup_addAll, hk]
    by_cases hname : name = k
    · subst hname
      have hnone : src.lookup name = none := AList.lookup_eq_none.mpr hnotMem
      simp [hnone]
    · rw [AList.lookup_insert_ne hname]
      simp [hname]

theorem values_addEntries (dst : Header) (entries : List (Sigma fun _ : Str => List Str))
    (name : Str) :
    ((dst.addEntries entries).lookup name).getD [] = (dst.lookup name).getD [] ++
      (entries.filter (fun e => name = canonicalMIMEHeaderKey e.1)).flatMap Sigma.snd := by
  induction entries generalizing dst with
  | nil => simp [addEntries]
  | cons e entries ih =>
    change (((dst.addAll e.1 e.2).addEntries entries).lookup name).getD [] = _
    rw [ih, lookup_addAll]
    by_cases hname : name = canonicalMIMEHeaderKey e.1
    · by_cases hvals : e.2 = []
      · simp [hname, hvals]
      · simp [hname, hvals, List.append_assoc]
    · simp [hname]

end Header

end Go
