import Mathlib.Data.List.TakeWhile
import Peretum.Config

/-!
# Hostnames of targets and of requests

A target is stored under the hostnames `ParseServerNames` finds in its
`server_name`, and a request looks up what `NormalizeHost` makes of its `Host`
header. The two functions were written separately: one keeps the case of letters and
cuts at the first colon, the other lower-cases and knows about brackets. This file
embeds both with the lookup of the router, and shows for which entries of a
`server_name` they agree.
-/

namespace Peretum.Router

open Go Config

variable {H : Type}

def normalizeHost (unicode : Str → Str) (host : Str) : Str :=
  let host := toLower unicode (trimSpace host)
  if host = [] then []
  else if hasPrefix host (str "[") then
    if 0x5D ∈ host then host.takeWhile (· ≠ 0x5D) ++ [0x5D] else host
  else
    -- More than one colon means an IPv6 literal without brackets.
    let host := if host.count 0x3A = 1 then host.takeWhile (· ≠ 0x3A) else host
    trimSuffix host (str ".")

example : normalizeHost id (str " Example.COM.:443") = str "example.com" := by decide

example : normalizeHost id (str "[::1]:8443") = str "[::1]" := by decide

def defaultHostname : Str := str "_default"

structure HostRouter (H : Type) where
  targets : Map Str H
  defaultHandler : Option H
  resolver : Option (Str → Option H)

namespace HostRouter

/-- `lookup`: the table goes before the resolver. -/
def lookup (hr : HostRouter H) (host : Str) : Option H :=
  match hr.targets.lookup host with
  | some h => some h
  | none => hr.resolver.bind (· host)

/-- The handler `ServeHTTP` calls for a `Host` header; without one it answers 404. -/
def route (unicode : Str → Str) (hr : HostRouter H) (host : Str) : Option H :=
  match hr.lookup (normalizeHost unicode host) with
  | some h => some h
  | none =>
      match hr.lookup defaultHostname with
      | some h => some h
      | none => hr.defaultHandler

theorem route_cases {unicode : Str → Str} {hr : HostRouter H} {host : Str} {h : H}
    (hroute : hr.route unicode host = some h) :
    hr.lookup (normalizeHost unicode host) = some h ∨ hr.lookup defaultHostname = some h ∨
      hr.defaultHandler = some h := by
  unfold route at hroute
  split at hroute
  · next hlookup => exact .inl (hlookup.trans hroute)
  · split at hroute
    · next hlookup => exact .inr (.inl (hlookup.trans hroute))
    · exact .inr (.inr hroute)

end HostRouter

/-- The router of lazy mode: the store is the routing table, and a handler is known by the
stored config it is made from. -/
def lazyHostRouter (store : Map Str Str) : HostRouter Str := ⟨∅, none, some store.lookup⟩

/-- A letter, a digit, a hyphen, an underscore or a dot. -/
def nameByte (b : UInt8) : Bool :=
  (0x61 ≤ b && b ≤ 0x7A) || (0x41 ≤ b && b ≤ 0x5A) || (0x30 ≤ b && b ≤ 0x39) ||
    b = 0x2D || b = 0x5F || b = 0x2E

/-- A DNS name, or an IPv4 literal. The results on hostnames leave out names with a
trailing dot, which `NormalizeHost` takes from the host of a request. -/
structure DNSName (n : Str) : Prop where
  nonempty : n ≠ []
  bytes : ∀ b ∈ n, nameByte b = true
  relative : n.getLast? ≠ some 0x2E

/-- A hexadecimal digit, a colon or a dot. -/
def addressByte (b : UInt8) : Bool :=
  (0x61 ≤ b && b ≤ 0x66) || (0x41 ≤ b && b ≤ 0x46) || (0x30 ≤ b && b ≤ 0x39) ||
    b = 0x3A || b = 0x2E

/-- An IPv6 literal in brackets. -/
def IPv6Literal (n : Str) : Prop :=
  ∃ address, n = 0x5B :: (address ++ [0x5D]) ∧ (∀ b ∈ address, addressByte b = true) ∧
    0x3A ∈ address

/-- An optional port. -/
def Port (p : Str) : Prop :=
  p = [] ∨ ∃ digits : Str, p = 0x3A :: digits ∧ ∀ b ∈ digits, 0x30 ≤ b ∧ b ≤ 0x39

/-- An entry of `server_name`, and the key `ParseServerNames` makes of it. -/
structure EntryOf (serverName entry key : Str) : Prop where
  /-- The entry stands between commas and spaces. -/
  part : ∃ part ∈ split 0x2C serverName, trimSpace part = entry
  /-- Empty entries are skipped. -/
  nonempty : entry ≠ []
  /-- The entry is cut at its first colon. -/
  key_eq : key = entry.takeWhile (· ≠ 0x3A)

/-- An entry is a DNS name, perhaps in its absolute form, or a literal address, with or
without a port. -/
def Names (entry n : Str) : Prop :=
  ∃ dot port, (DNSName n ∧ (dot = [] ∨ dot = [0x2E]) ∨ IPv6Literal n ∧ dot = []) ∧ Port port ∧
    entry = n ++ dot ++ port

/-- A `Host` header for a name: any letter case, with or without a port, and for a DNS
name with or without a trailing dot. -/
def HostFor (n host : Str) : Prop :=
  ∃ v dot port, v.map lowerByte = n.map lowerByte ∧ (dot = [] ∨ (DNSName n ∧ dot = [0x2E])) ∧
    Port port ∧ host = v ++ dot ++ port

/-- The target with this `server_name` is stored with this config. -/
def Stored (store : Map Str Str) (serverName config : Str) : Prop :=
  ∀ key ∈ parseServerNames serverName, store.lookup key = some config

/-- The two sides agree on an entry. -/
structure KeyAgrees (unicode : Str → Str) (serverName entry key : Str) : Prop where
  /-- The key is not empty. -/
  nonempty : key ≠ []
  /-- The key is what a request for it looks up. -/
  normal : normalizeHost unicode key = key
  /-- Requests for the name that the entry is resolve to the target. -/
  resolves : ∀ n, Names entry n → ∀ host, HostFor n host → ∀ store config,
    Stored store serverName config → (lazyHostRouter store).route unicode host = some config

/-- What `unicode.ToLower` does, rune by rune: an ASCII byte is a rune of its own, and no
other rune becomes a dot, a colon or a bracket. -/
structure LowersRunes (unicode : Str → Str) : Prop where
  /-- The string is mapped on both sides of an ASCII byte. -/
  ascii : ∀ s t (b : UInt8), b < 0x80 →
    toLower unicode (s ++ b :: t) = toLower unicode s ++ lowerByte b :: toLower unicode t
  /-- Punctuation is not made. -/
  punctuation : ∀ s, ∀ b ∈ [0x2E, 0x3A, 0x5D], b ∈ toLower unicode s → b ∈ s

/-- A key that trimming and lower-casing leave as it is, without a trailing dot, or with
nothing after its bracket. -/
structure PlainKey (unicode : Str → Str) (key : Str) : Prop where
  /-- There is no space before the port and no upper-case letter. -/
  folded : toLower unicode (trimSpace key) = key
  /-- There is no trailing dot. -/
  undotted : ¬ hasPrefix key (str "[") = true → ¬ hasSuffix key (str ".") = true
  /-- Nothing follows a closing bracket. -/
  closed : hasPrefix key (str "[") = true → 0x5D ∈ key → key.takeWhile (· ≠ 0x5D) ++ [0x5D] = key

variable {unicode : Str → Str} {serverName entry n key host : Str}

/-- The keys that are written are those of the entries. -/
theorem mem_parseServerNames_iff :
    key ∈ parseServerNames serverName ↔ ∃ entry, EntryOf serverName entry key := by
  have hsplit : parseServerNames serverName =
      (((split 0x2C serverName).map trimSpace).filter (· ≠ [])).map (·.takeWhile (· ≠ 0x3A)) := by
    rw [parseServerNames]
    split
    · next hempty =>
      subst hempty
      decide
    · rfl
  rw [hsplit, List.mem_map]
  refine exists_congr fun entry => ⟨?_, ?_⟩
  · rintro ⟨hentry, rfl⟩
    obtain ⟨hpart, hne⟩ := List.mem_filter.mp hentry
    exact ⟨List.mem_map.mp hpart, by simpa using hne, rfl⟩
  · rintro ⟨hpart, hne, rfl⟩
    exact ⟨List.mem_filter.mpr ⟨List.mem_map.mpr hpart, by simpa using hne⟩, rfl⟩

/-- No key has a colon. -/
theorem EntryOf.colon_not_mem (hentry : EntryOf serverName entry key) : 0x3A ∉ key := by
  rw [hentry.key_eq]
  intro hcolon
  simpa using List.mem_takeWhile_imp hcolon

/-- A request resolves to the target wherever it is stored exactly when its host is
one of the target's hostnames. -/
theorem forall_route_eq_iff (unicode : Str → Str) (serverName host : Str) :
    (∀ store config, Stored store serverName config →
      (lazyHostRouter store).route unicode host = some config) ↔
    normalizeHost unicode host ∈ parseServerNames serverName := by
  constructor
  · intro hroute
    by_contra hnot
    -- Another target is stored under the host the request looks up.
    have hstore : Stored (((parseServerNames serverName).foldl (fun m key => m.insert key [1])
        (∅ : Map Str Str)).insert (normalizeHost unicode host) []) serverName [1] := by
      intro key hkey
      have hne : key ≠ normalizeHost unicode host := fun h => hnot (h ▸ hkey)
      rw [AList.lookup_insert_ne hne, Map.lookup_foldl_insert_const, if_pos hkey]
    have hother := hroute _ _ hstore
    simp [HostRouter.route, HostRouter.lookup, lazyHostRouter] at hother
  · intro hmem store config hstored
    simp [HostRouter.route, HostRouter.lookup, lazyHostRouter, hstored _ hmem]

/-- The bytes of names are graphic, and lower-casing keeps them. -/
theorem nameByte_spec {b : UInt8} (hb : nameByte b = true) :
    Graphic b ∧ nameByte (lowerByte b) = true ∧ b ≠ 0x3A ∧ b ≠ 0x5B := by
  simp only [nameByte, Bool.or_eq_true, Bool.and_eq_true, decide_eq_true_eq, Graphic, lowerByte,
    UInt8.le_iff_toNat_le, UInt8.lt_iff_toNat_lt, ne_eq, ← UInt8.toNat_inj] at hb ⊢
  split
  · simp only [UInt8.toNat_add, UInt8.reduceToNat] at *
    omega
  · simp only [UInt8.reduceToNat] at *
    omega

/-- The bytes of addresses are graphic, and lower-casing keeps them from being a
bracket. -/
theorem addressByte_spec {b : UInt8} (hb : addressByte b = true) :
    Graphic b ∧ lowerByte b ≠ 0x5D ∧ (b = 0x3A → lowerByte b = 0x3A) := by
  simp only [addressByte, Bool.or_eq_true, Bool.and_eq_true, decide_eq_true_eq, Graphic, lowerByte,
    UInt8.le_iff_toNat_le, UInt8.lt_iff_toNat_lt, ne_eq, ← UInt8.toNat_inj] at hb ⊢
  split
  · simp only [UInt8.toNat_add, UInt8.reduceToNat] at *
    omega
  · simp only [UInt8.reduceToNat] at *
    omega

theorem Port.spec {p : Str} (hp : Port p) :
    (∀ b ∈ p, Graphic b) ∧ p.map lowerByte = p := by
  have hbyte : ∀ b : UInt8, 0x30 ≤ b ∧ b ≤ 0x3A → Graphic b ∧ lowerByte b = b := by
    intro b hb
    simp only [Graphic, lowerByte, UInt8.le_iff_toNat_le, UInt8.lt_iff_toNat_lt,
      UInt8.reduceToNat] at hb ⊢
    refine ⟨by omega, if_neg (by omega)⟩
  have hall : ∀ b ∈ p, 0x30 ≤ b ∧ b ≤ 0x3A := by
    rcases hp with rfl | ⟨digits, rfl, hdigits⟩
    · simp
    · intro b hb
      rcases List.mem_cons.mp hb with rfl | hb
      · decide
      · have hdigit := hdigits b hb
        simp only [UInt8.le_iff_toNat_le, UInt8.reduceToNat] at hdigit ⊢
        omega
  refine ⟨fun b hb => (hbyte b (hall b hb)).1, ?_⟩
  calc p.map lowerByte = p.map id := List.map_congr_left fun b hb => (hbyte b (hall b hb)).2
    _ = p := List.map_id p

theorem HostFor.toLower_eq (hn : ∀ b ∈ n, Graphic b) (hhost : HostFor n host)
    (unicode : Str → Str) :
    ∃ dot port, (dot = [] ∨ (DNSName n ∧ dot = [0x2E])) ∧ Port port ∧
      toLower unicode (trimSpace host) = n.map lowerByte ++ dot ++ port := by
  obtain ⟨v, dot, port, hv, hdot, hport, rfl⟩ := hhost
  refine ⟨dot, port, hdot, hport, ?_⟩
  have hvgraphic : ∀ b ∈ v, Graphic b := by
    intro b hb
    have hlower : lowerByte b ∈ n.map lowerByte := hv ▸ List.mem_map_of_mem hb
    obtain ⟨c, hc, hsame⟩ := List.mem_map.mp hlower
    rw [← graphic_lowerByte, ← hsame, graphic_lowerByte]
    exact hn c hc
  have hdotspec : (∀ b ∈ dot, Graphic b) ∧ dot.map lowerByte = dot := by
    rcases hdot with rfl | ⟨-, rfl⟩
    · simp
    · simp [Graphic, lowerByte]
  have hgraphic : ∀ b ∈ v ++ dot ++ port, Graphic b := by
    intro b hb
    simp only [List.mem_append] at hb
    rcases hb with (hb | hb) | hb
    · exact hvgraphic b hb
    · exact hdotspec.1 b hb
    · exact hport.spec.1 b hb
  rw [trimSpace_of_graphic hgraphic, toLower_of_graphic unicode hgraphic, List.map_append,
    List.map_append, hv, hdotspec.2, hport.spec.2]

theorem DNSName.lower (hn : DNSName n) : DNSName (n.map lowerByte) := by
  refine ⟨by simpa using hn.nonempty, ?_, ?_⟩
  · intro b hb
    obtain ⟨c, hc, rfl⟩ := List.mem_map.mp hb
    exact (nameByte_spec (hn.bytes c hc)).2.1
  · intro hlast
    rw [List.getLast?_map] at hlast
    obtain ⟨b, hb, hdot⟩ := Option.map_eq_some_iff.mp hlast
    have hbyte : b = 0x2E := by
      have hname := hn.bytes b (List.mem_of_getLast? hb)
      simp only [nameByte, Bool.or_eq_true, Bool.and_eq_true, decide_eq_true_eq, lowerByte,
        UInt8.le_iff_toNat_le, ← UInt8.toNat_inj] at hname hdot ⊢
      split at hdot
      · simp only [UInt8.toNat_add, UInt8.reduceToNat] at *
        omega
      · exact hdot
    exact hn.relative (hbyte ▸ hb)

theorem cut_port {m port : Str} (hm : 0x3A ∉ m) (hport : Port port) :
    (if (m ++ port).count 0x3A = 1 then (m ++ port).takeWhile (· ≠ 0x3A) else m ++ port) = m := by
  have hpos : ∀ b ∈ m, decide (b ≠ 0x3A) = true := by
    intro b hb
    have hne : b ≠ 0x3A := fun h => hm (h ▸ hb)
    simpa using hne
  rcases hport with rfl | ⟨digits, rfl, hdigits⟩
  · simp [List.count_eq_zero_of_not_mem hm]
  · have hcolon : 0x3A ∉ digits := by
      intro hmem
      exact absurd (hdigits _ hmem).2 (by decide)
    rw [if_pos (by simp [List.count_eq_zero_of_not_mem hm, List.count_eq_zero_of_not_mem hcolon]),
      List.takeWhile_append_of_pos hpos]
    simp

theorem trimSuffix_dot {m dot : Str} (hm : m.getLast? ≠ some 0x2E)
    (hdot : dot = [] ∨ dot = [0x2E]) :
    trimSuffix (m ++ dot) (str ".") = m := by
  have hstr : str "." = [0x2E] := by decide
  rw [hstr, trimSuffix]
  rcases hdot with rfl | rfl
  · rw [List.append_nil, if_neg]
    intro hsuffix
    obtain ⟨t, rfl⟩ := List.isSuffixOf_iff_suffix.mp hsuffix
    simp at hm
  · have hsuffix : hasSuffix (m ++ [0x2E]) [0x2E] = true :=
      List.isSuffixOf_iff_suffix.mpr (List.suffix_append m _)
    rw [if_pos hsuffix]
    simp

/-- A request for a DNS name looks up the name in lower case. -/
theorem normalizeHost_of_dnsName (unicode : Str → Str) (hn : DNSName n) (hhost : HostFor n host) :
    normalizeHost unicode host = n.map lowerByte := by
  have hgraphic : ∀ b ∈ n, Graphic b := fun b hb => (nameByte_spec (hn.bytes b hb)).1
  obtain ⟨dot, port, hdot, hport, hlower⟩ := hhost.toLower_eq hgraphic unicode
  have hm := hn.lower
  set m := n.map lowerByte
  have hdot' : dot = [] ∨ dot = [0x2E] := hdot.imp_right And.right
  have hcolon : 0x3A ∉ m ++ dot := by
    intro hmem
    rcases List.mem_append.mp hmem with hmem | hmem
    · exact (nameByte_spec (hm.bytes _ hmem)).2.2.1 rfl
    · rcases hdot' with rfl | rfl <;> simp at hmem
  have hbracket : ¬ hasPrefix (m ++ dot ++ port) (str "[") = true := by
    obtain ⟨b, t, hbt⟩ := List.exists_cons_of_ne_nil hm.nonempty
    have hb := (nameByte_spec (hm.bytes b (hbt ▸ List.mem_cons_self))).2.2.2
    have hstr : str "[" = [0x5B] := by decide
    simp [hbt, hstr, Ne.symm hb]
  have hne : m ++ dot ++ port ≠ [] := by simp [hm.nonempty]
  simp only [normalizeHost, hlower, if_neg hne, if_neg hbracket, cut_port hcolon hport,
    trimSuffix_dot hm.relative hdot']

/-- A request for an IPv6 literal looks up the literal in lower case. -/
theorem normalizeHost_of_ipv6Literal (unicode : Str → Str) (hn : IPv6Literal n)
    (hhost : HostFor n host) : normalizeHost unicode host = n.map lowerByte := by
  obtain ⟨address, rfl, haddress, -⟩ := hn
  have hgraphic : ∀ b ∈ (0x5B :: (address ++ [0x5D]) : Str), Graphic b := by
    intro b hb
    simp only [List.mem_cons, List.mem_append, List.not_mem_nil, or_false] at hb
    rcases hb with rfl | hb | rfl
    · exact ⟨by decide, by decide⟩
    · exact (addressByte_spec (haddress b hb)).1
    · exact ⟨by decide, by decide⟩
  obtain ⟨dot, port, hdot, -, hlower⟩ := hhost.toLower_eq hgraphic unicode
  obtain rfl : dot = [] := by
    refine hdot.resolve_right fun h => ?_
    exact absurd (h.1.bytes 0x5B List.mem_cons_self) (by decide)
  have hopen : ∀ b ∈ (0x5B :: address.map lowerByte : Str), decide (b ≠ 0x5D) = true := by
    intro b hb
    rcases List.mem_cons.mp hb with rfl | hb
    · decide
    · obtain ⟨c, hc, rfl⟩ := List.mem_map.mp hb
      simpa using (addressByte_spec (haddress c hc)).2.1
  have hmap : (0x5B :: (address ++ [0x5D]) : Str).map lowerByte =
      (0x5B :: address.map lowerByte) ++ [0x5D] := by
    simp [lowerByte]
  have hstr : str "[" = [0x5B] := by decide
  rw [hmap] at hlower ⊢
  have hprefix : hasPrefix ((0x5B :: address.map lowerByte : Str) ++ [0x5D] ++ [] ++ port)
      (str "[") = true := by
    simp [hstr]
  have hmem : (0x5D : UInt8) ∈ (0x5B :: address.map lowerByte : Str) ++ [0x5D] ++ [] ++ port := by
    simp
  simp only [normalizeHost, hlower, if_pos hprefix, if_pos hmem]
  rw [if_neg (by simp), List.append_nil, List.append_assoc, List.takeWhile_append_of_pos hopen]
  simp

theorem hostFor_self (n : Str) : HostFor n n := ⟨n, [], [], rfl, .inl rfl, .inl rfl, by simp⟩

theorem parseServerNames_of_dnsName (hn : DNSName n) : parseServerNames n = [n] := by
  have hbytes : ∀ b ∈ n, Graphic b ∧ b ≠ 0x3A := fun b hb =>
    ⟨(nameByte_spec (hn.bytes b hb)).1, (nameByte_spec (hn.bytes b hb)).2.2.1⟩
  have hcomma : (0x2C : UInt8) ∉ n := fun hmem => absurd (hn.bytes _ hmem) (by decide)
  rw [parseServerNames, if_neg hn.nonempty, split, List.splitOn_eq_singleton hcomma]
  simpa [trimSpace_of_graphic fun b hb => (hbytes b hb).1, hn.nonempty]
    using fun b hb => (hbytes b hb).2

/-- Lower-casing keeps the number of dots. -/
theorem LowersRunes.count_dot (hunicode : LowersRunes unicode) (s : Str) :
    (toLower unicode s).count 0x2E = s.count 0x2E := by
  induction hlength : s.length using Nat.strong_induction_on generalizing s with
  | _ length ih =>
    subst hlength
    by_cases hdot : 0x2E ∈ s
    · obtain ⟨before, after, rfl⟩ := List.append_of_mem hdot
      have hlower : lowerByte 0x2E = 0x2E := by decide
      rw [hunicode.ascii before after 0x2E (by decide), hlower, List.count_append,
        List.count_append, List.count_cons_self, List.count_cons_self,
        ih before.length (by simp) before rfl, ih after.length (by simp; omega) after rfl]
    · rw [List.count_eq_zero_of_not_mem hdot, List.count_eq_zero_of_not_mem]
      exact fun hmem => hdot (hunicode.punctuation s _ (by simp) hmem)

/-- A key that ends with its first closing bracket is lower-cased in front of it. -/
theorem LowersRunes.takeWhile_bracket (hunicode : LowersRunes unicode) {a : Str}
    (ha : 0x5D ∉ a) :
    (toLower unicode (a ++ [0x5D])).takeWhile (· ≠ 0x5D) ++ [0x5D] =
      toLower unicode (a ++ [0x5D]) := by
  have hempty : toLower unicode [] = [] := rfl
  have hlower : lowerByte 0x5D = 0x5D := by decide
  have hopen : ∀ b ∈ toLower unicode a, decide (b ≠ 0x5D) = true := by
    intro b hb
    have hne : b ≠ 0x5D := by
      rintro rfl
      exact ha (hunicode.punctuation a _ (by simp) hb)
    simpa using hne
  rw [hunicode.ascii a [] 0x5D (by decide), hempty, hlower, List.takeWhile_append_of_pos hopen]
  simp

/-- A key that is cut behind its bracket is plain if that leaves it as it is. -/
theorem LowersRunes.plainKey_of_bracket (hunicode : LowersRunes unicode)
    (hstart : hasPrefix (toLower unicode (trimSpace key)) (str "[") = true)
    (hcut : (toLower unicode (trimSpace key)).takeWhile (· ≠ 0x5D) ++ [0x5D] = key) :
    PlainKey unicode key := by
  set h := toLower unicode (trimSpace key) with hh
  obtain ⟨t, ht⟩ := hasPrefix_iff.mp hstart
  have hkey : key = 0x5B :: (t.takeWhile (· ≠ 0x5D) ++ [0x5D]) := by
    rw [← hcut, ← ht]
    rfl
  have htrim : trimSpace key = key :=
    trimSpace_of_ends hkey hcut.symm ⟨by decide, by decide⟩ ⟨by decide, by decide⟩
  have hnot : 0x5D ∉ h.takeWhile (· ≠ 0x5D) := fun hmem => by
    simpa using List.mem_takeWhile_imp hmem
  have hclosed := hunicode.takeWhile_bracket hnot
  rw [hcut, ← htrim, ← hh, hcut] at hclosed
  refine ⟨hclosed.symm, fun hopen => absurd (hasPrefix_iff.mpr ⟨_, hkey.symm⟩) hopen, fun _ _ => ?_⟩
  rw [hclosed]
  exact hcut.trans hclosed

/-- Nothing is cut off as a dot: it would be one more than the key has. -/
theorem LowersRunes.toLower_ne_dotted (hunicode : LowersRunes unicode) (key : Str) :
    toLower unicode (trimSpace key) ≠ key ++ [0x2E] := by
  intro hdotted
  have hdots := hunicode.count_dot (trimSpace key)
  have hle := (trimSpace_within key).sublist.count_le 0x2E
  rw [hdotted, List.count_append, List.count_singleton_self] at hdots
  omega

/-- A key without a colon is its own normal form if and only if it is plain. -/
theorem normalizeHost_eq_self_iff (hunicode : LowersRunes unicode) (hcolon : 0x3A ∉ key)
    (hne : key ≠ []) : normalizeHost unicode key = key ↔ PlainKey unicode key := by
  have hcount : ∀ h, 0x3A ∉ h → ¬ List.count (0x3A : UInt8) h = 1 := by
    intro h hnot
    simp [List.count_eq_zero_of_not_mem hnot]
  constructor
  · intro hnormal
    simp only [normalizeHost] at hnormal
    -- In each branch the lower-cased key turns out to be the key itself.
    split at hnormal
    · exact absurd hnormal.symm hne
    · split at hnormal
      · next hprefix =>
        split at hnormal
        · exact hunicode.plainKey_of_bracket hprefix hnormal
        · next hopen =>
          rw [hnormal] at hprefix hopen
          exact ⟨hnormal, fun h => absurd hprefix h, fun _ hclose => absurd hclose hopen⟩
      · next hprefix =>
        have hfree : 0x3A ∉ toLower unicode (trimSpace key) := fun hmem =>
          hcolon ((trimSpace_within key).subset (hunicode.punctuation _ _ (by simp) hmem))
        rw [if_neg (hcount _ hfree), trimSuffix] at hnormal
        split at hnormal
        · next hsuffix =>
          obtain ⟨u, hu⟩ := List.isSuffixOf_iff_suffix.mp hsuffix
          rw [← hu, List.length_append, Nat.add_sub_cancel, List.take_left] at hnormal
          exact absurd (hnormal ▸ hu.symm) (hunicode.toLower_ne_dotted key)
        · next hsuffix =>
          rw [hnormal] at hprefix hsuffix
          exact ⟨hnormal, fun _ => hsuffix, fun hopen => absurd hopen hprefix⟩
  · rintro ⟨hfolded, hundotted, hclosed⟩
    simp only [normalizeHost, hfolded, if_neg hne, if_neg (hcount key hcolon)]
    by_cases hprefix : hasPrefix key (str "[") = true
    · rw [if_pos hprefix]
      split
      · next hclose => exact hclosed hprefix hclose
      · rfl
    · rw [if_neg hprefix, trimSuffix, if_neg (hundotted hprefix)]

/-- A DNS name with a port is cut to the name. -/
theorem takeWhile_colon {m port : Str} (hm : 0x3A ∉ m) (hport : Port port) :
    (m ++ port).takeWhile (· ≠ 0x3A) = m := by
  have hpos : ∀ b ∈ m, decide (b ≠ 0x3A) = true := by
    intro b hb
    have hne : b ≠ 0x3A := fun h => hm (h ▸ hb)
    simpa using hne
  rw [List.takeWhile_append_of_pos hpos]
  rcases hport with rfl | ⟨digits, rfl, -⟩ <;> simp

/-- A plain key of an entry that is a DNS name is the name in lower case. -/
theorem PlainKey.eq_name (hplain : PlainKey unicode key) (hn : DNSName n) {dot port : Str}
    (hdot : dot = [] ∨ dot = [0x2E]) (hport : Port port)
    (hkey : key = (n ++ dot ++ port).takeWhile (· ≠ 0x3A)) :
    key = n ∧ n.map lowerByte = n := by
  have hname : 0x3A ∉ n ++ dot := by
    intro hmem
    rcases List.mem_append.mp hmem with hmem | hmem
    · exact (nameByte_spec (hn.bytes _ hmem)).2.2.1 rfl
    · rcases hdot with rfl | rfl <;> simp at hmem
  rw [takeWhile_colon hname hport] at hkey
  obtain ⟨b, t, rfl⟩ := List.exists_cons_of_ne_nil hn.nonempty
  have hopen : ¬ hasPrefix key (str "[") = true := by
    have hb := (nameByte_spec (hn.bytes b List.mem_cons_self)).2.2.2
    have hstr : str "[" = [0x5B] := by decide
    simp [hkey, hstr, Ne.symm hb]
  obtain rfl : dot = [] := by
    refine hdot.resolve_right fun hdot => hplain.undotted hopen ?_
    have hstr : str "." = [0x2E] := by decide
    rw [hkey, hdot, hstr]
    exact List.isSuffixOf_iff_suffix.mpr (List.suffix_append _ _)
  rw [List.append_nil] at hkey
  subst hkey
  have hgraphic : ∀ c ∈ b :: t, Graphic c := fun c hc => (nameByte_spec (hn.bytes c hc)).1
  have hfolded := hplain.folded
  rw [trimSpace_of_graphic hgraphic, toLower_of_graphic unicode hgraphic] at hfolded
  exact ⟨rfl, hfolded⟩

/-- The two sides agree on an entry of a `server_name` if and only if its text before the
first colon is not empty and plain, and the entry is no IPv6 literal. -/
theorem keyAgrees_iff {unicode : Str → Str} (hunicode : LowersRunes unicode)
    {serverName entry key : Str} (hentry : EntryOf serverName entry key) :
    KeyAgrees unicode serverName entry key ↔
      key ≠ [] ∧ PlainKey unicode key ∧ ∀ n, Names entry n → ¬ IPv6Literal n := by
  have hcolon := hentry.colon_not_mem
  constructor
  · intro hagrees
    refine ⟨hagrees.nonempty,
      (normalizeHost_eq_self_iff hunicode hcolon hagrees.nonempty).mp hagrees.normal, ?_⟩
    -- A request for a literal looks up a key with a colon, and no target is stored under one.
    intro n hn hipv6
    have hmem := (forall_route_eq_iff unicode serverName n).mp
      (hagrees.resolves n hn n (hostFor_self n))
    rw [normalizeHost_of_ipv6Literal unicode hipv6 (hostFor_self n)] at hmem
    obtain ⟨other, hother⟩ := mem_parseServerNames_iff.mp hmem
    obtain ⟨address, rfl, haddress, hcolon⟩ := hipv6
    refine absurd ?_ hother.colon_not_mem
    have hlower := (addressByte_spec (haddress _ hcolon)).2.2 rfl
    rw [← hlower]
    exact List.mem_map_of_mem (by simp [hcolon])
  · rintro ⟨hne, hplain, hliteral⟩
    refine ⟨hne, (normalizeHost_eq_self_iff hunicode hcolon hne).mpr hplain, ?_⟩
    intro n hn host hhost
    have hname := hn
    obtain ⟨dot, port, hname | hname, hport, rfl⟩ := hname
    · obtain ⟨rfl, hlower⟩ := hplain.eq_name hname.1 hname.2 hport hentry.key_eq
      rw [forall_route_eq_iff, normalizeHost_of_dnsName unicode hname.1 hhost, hlower]
      exact mem_parseServerNames_iff.mpr ⟨_, hentry⟩
    · exact absurd hname.1 (hliteral n hn)

/-- A target whose name has upper-case letters is stored under a key that no request
looks up. -/
theorem upperCase_not_keyAgrees :
    EntryOf (str "Example.COM") (str "Example.COM") (str "Example.COM") ∧
    Names (str "Example.COM") (str "Example.COM") ∧
    HostFor (str "Example.COM") (str "example.com") ∧
    Stored ((∅ : Map Str Str).insert (str "Example.COM") (str "config")) (str "Example.COM")
      (str "config") ∧
    (lazyHostRouter ((∅ : Map Str Str).insert (str "Example.COM") (str "config"))).route id
      (str "example.com") = none ∧
    ¬ KeyAgrees id (str "Example.COM") (str "Example.COM") (str "Example.COM") := by
  have hdns : DNSName (str "Example.COM") :=
    ⟨by decide, List.all_eq_true.mp (by decide), by decide⟩
  refine ⟨⟨⟨_, List.mem_singleton_self _, by decide⟩, by decide, by decide⟩,
    ⟨[], [], .inl ⟨hdns, .inl rfl⟩, .inl rfl, by decide⟩,
    ⟨str "example.com", [], [], by decide, .inl rfl, .inl rfl, by decide⟩, ?_, by decide, ?_⟩
  · intro key hkey
    obtain rfl : key = str "Example.COM" := List.mem_singleton.mp hkey
    exact AList.lookup_insert _
  · intro hagrees
    exact absurd hagrees.normal (by decide)

/-- Mapping byte by byte is lower-casing for strings whose other runes have no case. -/
theorem lowersRunes_map : LowersRunes (List.map lowerByte) := by
  have hmap : ∀ s, toLower (List.map lowerByte) s = s.map lowerByte := by
    intro s
    rw [toLower]
    split <;> rfl
  constructor
  · intro s t b _
    simp [hmap]
  · intro s b hb hmem
    rw [hmap] at hmem
    obtain ⟨c, hc, rfl⟩ := List.mem_map.mp hmem
    have hsame : lowerByte c = c := by
      simp only [List.mem_cons, List.not_mem_nil, or_false, lowerByte, ← UInt8.toNat_inj,
        UInt8.le_iff_toNat_le] at hb ⊢
      split at hb
      · simp only [UInt8.toNat_add, UInt8.reduceToNat] at *
        omega
      · next hcase => rw [if_neg hcase]
    rwa [hsame]

/-- The second name of a list, with a port and a space in front of it. -/
theorem lowerCase_keyAgrees :
    KeyAgrees (List.map lowerByte) (str "a.example, www.example.com:443")
      (str "www.example.com:443") (str "www.example.com") := by
  have hentry : EntryOf (str "a.example, www.example.com:443") (str "www.example.com:443")
      (str "www.example.com") :=
    ⟨⟨str " www.example.com:443", by decide, by decide⟩, by decide, by decide⟩
  refine (keyAgrees_iff lowersRunes_map hentry).mpr ⟨by decide, ⟨by decide, fun _ => by decide,
    fun h => absurd h (by decide)⟩, ?_⟩
  rintro n ⟨dot, port, -, -, hn⟩ ⟨address, rfl, -⟩
  exact absurd (congrArg List.head? hn) (by simp; decide)

end Peretum.Router
