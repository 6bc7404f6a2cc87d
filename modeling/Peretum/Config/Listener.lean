import Peretum.Config.Proxy
import Peretum.Go.Net
import Peretum.Waf.Meaning

/-!
# Addresses of listeners

A listen directive starts with an address, `ParseListener` of `internal/config/config.go`. It is
taken as it is if `net.SplitHostPort` splits it, as a port if it is a number, and as a host with
the default port otherwise. What an address says is stated here on its own: a number is a port, and
anything else is a host, in brackets or not, with a port after a colon or without one. The
resolved address says the same unless the port is not a number in range or a host in brackets
with colons comes without a port.
-/

namespace Peretum.Config

open Go

variable {F R A N : Type}

/-! ### What a directive says -/

/-- A host and a port, if there is one. -/
structure Endpoint where
  /-- The host, without brackets around it. -/
  host : Str
  port : Option Str
  deriving DecidableEq

/-- What is in brackets. -/
def bracketed (s : Str) : Option Str :=
  if hasPrefix s (str "[") && hasSuffix s (str "]") then some (s.drop 1).dropLast else none

/-- What an address says: a number is a port; there may be a port after a host in brackets or after
a single colon; anything else is a host. -/
def Endpoint.ofAddress (address : Str) : Endpoint :=
  if Digits (unsigned address) then ⟨[], some address⟩
  else
    match bracketed address with
    | some host => ⟨host, none⟩
    | none =>
        match cutLast 0x3A address with
        | none => ⟨address, none⟩
        | some (before, port) =>
            match bracketed before with
            | some host => ⟨host, some port⟩
            | none => if 0x3A ∈ before then ⟨address, none⟩ else ⟨before, some port⟩

/-- The address of a directive. -/
def address (raw : Str) : Str := (fields raw).headD []

/-- The flags of encrypted listeners. -/
def tlsFlags : List Str := [str "ssl", str "h3", str "http3", str "quic"]

/-- The port if the directive gives none. -/
def defaultPort (raw : Str) : Nat :=
  if (fields raw).tail.any tlsFlags.contains then 443 else 80

/-- The address to bind is a host without brackets and a decimal port in range, those of the
endpoint. -/
def Binds (addr : Str) (e : Endpoint) (defaultPort : Nat) : Prop :=
  ∃ host port, splitHostPort addr = some (host, port) ∧ NoBrackets host ∧
    Digits port ∧ decimal port ≤ 65535 ∧ host = e.host ∧
    e.port.elim (decimal port = defaultPort) fun given => atoi given = some (decimal port : Int)

/-- A port is a number in range. If there is none, there are no colons in brackets. -/
def SoundPort (address : Str) : Option Str → Prop
  | some given => Digits given ∧ decimal given ≤ 65535
  | none => ¬ (0x3A ∈ address ∧ hasPrefix address (str "[") = true)

instance (address : Str) : DecidablePred (SoundPort address)
  | some _ => inferInstanceAs (Decidable (_ ∧ _))
  | none => inferInstanceAs (Decidable (¬ (_ ∧ _)))

/-- A number is in range. Another address has no brackets but those around its host, and the port
is sound. -/
def Sound (address : Str) : Prop :=
  if Digits (unsigned address) then decimal (unsigned address) ≤ 65535
  else NoBrackets (Endpoint.ofAddress address).host ∧
    SoundPort address (Endpoint.ofAddress address).port

instance (address : Str) : Decidable (Sound address) :=
  inferInstanceAs (Decidable (if Digits (unsigned address) then _ else _ ∧ _))

/-! ### Fields and flags -/

theorem parseFlags_tls {seen flags : List Str} {acc f : ListenerFlags}
    (hparse : parseFlags seen flags acc = .ok f) :
    (f.ssl || f.quic) = (acc.ssl || acc.quic || flags.any tlsFlags.contains) := by
  induction flags generalizing seen acc with
  | nil =>
    cases hparse
    rw [List.any_nil, Bool.or_false]
  | cons flag flags ih =>
    rw [List.any_cons]
    by_cases hseen : flag ∈ seen
    · cases (if_pos hseen).symm.trans hparse
    replace hparse := (if_neg hseen).symm.trans hparse
    split at hparse
    · next hflag =>
      rw [ih hparse, hflag]
      simp [tlsFlags]
    split at hparse
    · next hflag =>
      rw [ih hparse]
      rcases hflag with rfl | rfl | rfl <;> simp [tlsFlags]
    · next hssl hquic =>
      have hflag : tlsFlags.contains flag = false := by
        simpa [tlsFlags] using ⟨hssl, not_or.mp hquic |>.imp_right not_or.mp⟩
      rw [hflag, Bool.false_or]
      split at hparse
      · exact (ih hparse).trans rfl
      split at hparse
      · exact ih hparse
      · cases hparse

theorem of_parseListener {lib : Waf.Library F R A N} {raw : Str} {spec : ListenersSpec}
    (haccepted : parseListener lib raw = .ok spec) :
    trimSpace (address raw) = address raw ∧
      resolveListenAddr lib (address raw) (defaultPort raw) = .ok spec.addr := by
  rw [parseListener] at haccepted
  split at haccepted
  · cases haccepted
  · next addr flags hfields =>
    have haddress : address raw = addr := by rw [address, hfields, List.headD_cons]
    split at haccepted
    · cases haccepted
    · next f hflags =>
      have hport : defaultPort raw = if f.ssl || f.quic then 443 else 80 := by
        rw [defaultPort, hfields, List.tail_cons, parseFlags_tls hflags]
        rfl
      split at haccepted
      · cases haccepted
      split at haccepted
      · cases haccepted
      · next resolved hresolve =>
        cases haccepted
        rw [haddress, hport]
        exact ⟨trimSpace_of_mem_fields (hfields ▸ List.mem_cons_self), hresolve⟩

/-! ### Reading addresses -/

section Reading

variable {t host port before : Str}

theorem bracketed_eq_some_iff : bracketed t = some host ↔ t = 0x5B :: host ++ [0x5D] := by
  rw [bracketed]
  constructor
  · intro h
    split at h
    · next hends =>
      obtain ⟨hstart, hend⟩ := Bool.and_eq_true_iff.mp hends
      obtain ⟨rest, rfl⟩ := (hasPrefix_singleton (b := 0x5B)).mp hstart
      obtain ⟨init, hinit⟩ := List.isSuffixOf_iff_suffix.mp hend
      change init ++ [0x5D] = 0x5B :: rest at hinit
      cases init with
      | nil => exact absurd (List.cons.inj hinit).1 (by decide)
      | cons b init =>
        obtain ⟨rfl, rfl⟩ := List.cons.inj hinit
        cases h
        simp
    · cases h
  · rintro rfl
    have hends : (hasPrefix (0x5B :: host ++ [0x5D]) (str "[") &&
        hasSuffix (0x5B :: host ++ [0x5D]) (str "]")) = true := by
      exact List.isSuffixOf_iff_suffix.mpr ⟨0x5B :: host, rfl⟩
    rw [if_pos hends]
    simp

theorem notMem_of_number (ht : Digits (unsigned t)) {b : UInt8}
    (hb : b = 0x3A ∨ b = 0x5B ∨ b = 0x5D) : b ∉ t := by
  intro hmem
  rcases hb with rfl | rfl | rfl
  · exact ht.notMem (by decide) (mem_unsigned (by decide) hmem)
  · exact ht.notMem (by decide) (mem_unsigned (by decide) hmem)
  · exact ht.notMem (by decide) (mem_unsigned (by decide) hmem)

theorem bracketed_eq_none (ht : NoBrackets t) : bracketed t = none := by
  rw [Option.eq_none_iff_forall_ne_some]
  rintro host hsome
  rw [bracketed_eq_some_iff.mp hsome] at ht
  exact ht.1 (by simp)

theorem ofAddress_number (ht : Digits (unsigned t)) : Endpoint.ofAddress t = ⟨[], some t⟩ :=
  if_pos ht

theorem ofAddress_of_split (hsplit : splitHostPort t = some (host, port)) :
    ¬ Digits (unsigned t) ∧ Endpoint.ofAddress t = ⟨host, some port⟩ := by
  obtain ⟨hhost, hport, hcolon, hcases⟩ := of_splitHostPort hsplit
  have hcut : ∀ before, t = before ++ 0x3A :: port → cutLast 0x3A t = some (before, port) :=
    fun before h => cutLast_eq_some_iff.mpr ⟨h, hcolon⟩
  have hmem : (0x3A : UInt8) ∈ t := by
    rcases hcases with ⟨-, rfl⟩ | rfl <;> simp
  have hnumber : ¬ Digits (unsigned t) := fun h => notMem_of_number h (.inl rfl) hmem
  refine ⟨hnumber, ?_⟩
  rw [Endpoint.ofAddress, if_neg hnumber]
  have hopen : bracketed t = none := by
    rw [Option.eq_none_iff_forall_ne_some]
    intro inner hsome
    have hlast : [0x5D] <:+ t := ⟨0x5B :: inner, (bracketed_eq_some_iff.mp hsome).symm⟩
    have htail : 0x3A :: port <:+ t := by
      rcases hcases with ⟨-, hs⟩ | hs
      · exact ⟨_, hs.symm⟩
      · exact ⟨_, hs.symm⟩
    have hbracket := (List.suffix_of_suffix_length_le hlast htail (by simp)).subset
      (List.mem_singleton_self _)
    exact hport.2 ((List.mem_cons.mp hbracket).resolve_left (by decide))
  rcases hcases with ⟨hplain, hs⟩ | hs
  · simp only [hopen, hcut host hs, bracketed_eq_none hhost, if_neg hplain]
  · simp only [hopen, hcut _ hs, bracketed_eq_some_iff.mpr rfl]

end Reading

/-! ### Binding -/

section Binding

variable {t d host port addr : Str} {e : Endpoint} {dp : Nat}

theorem colon_unique {a b a' b' : Str} (h : a ++ 0x3A :: b = a' ++ 0x3A :: b') (hb : 0x3A ∉ b)
    (hb' : 0x3A ∉ b') : a = a' ∧ b = b' := by
  have hcut : cutLast 0x3A (a ++ 0x3A :: b) = some (a, b) := cutLast_append a hb
  rw [h, cutLast_append a' hb', Option.some.injEq, Prod.mk.injEq] at hcut
  exact ⟨hcut.1.symm, hcut.2.symm⟩

/-- A joined host is split off again if it has no brackets. One that is in brackets loses them,
unless it has colons. -/
theorem splitHostPort_joinHostPort (hd : Digits d) :
    splitHostPort (joinHostPort t d) = some (host, port) ↔
      NoBrackets host ∧ port = d ∧ (host = t ∨ 0x3A ∉ t ∧ t = 0x5B :: host ++ [0x5D]) := by
  have hcolon : (0x3A : UInt8) ∉ d := hd.notMem (by decide)
  by_cases ht : 0x3A ∈ t
  · have hjoin : joinHostPort t d = (0x5B :: t ++ [0x5D]) ++ 0x3A :: d := by
      rw [joinHostPort, if_pos ht]
      change [0x5B] ++ t ++ [0x5D, 0x3A] ++ d = _
      simp
    rw [hjoin]
    constructor
    · intro hsplit
      obtain ⟨hhost, -, hport, ⟨-, hs⟩ | hs⟩ := of_splitHostPort hsplit
      · obtain ⟨rfl, -⟩ := colon_unique hs hcolon hport
        exact absurd (by simp) hhost.1
      · obtain ⟨hboth, rfl⟩ := colon_unique hs hcolon hport
        have hsame : t = host := by simpa using hboth
        exact ⟨hhost, rfl, .inl hsame.symm⟩
    · rintro ⟨hhost, rfl, rfl | ⟨hnotMem, -⟩⟩
      · exact splitHostPort_bracketed hhost hd.noBrackets hcolon
      · exact absurd ht hnotMem
  · have hjoin : joinHostPort t d = t ++ 0x3A :: d := by
      rw [joinHostPort, if_neg ht]
      change t ++ [0x3A] ++ d = _
      simp
    rw [hjoin]
    constructor
    · intro hsplit
      obtain ⟨hhost, -, hport, ⟨-, hs⟩ | hs⟩ := of_splitHostPort hsplit
      · obtain ⟨rfl, rfl⟩ := colon_unique hs hcolon hport
        exact ⟨hhost, rfl, .inl rfl⟩
      · obtain ⟨hbrackets, rfl⟩ := colon_unique hs hcolon hport
        exact ⟨hhost, rfl, .inr ⟨ht, hbrackets⟩⟩
    · rintro ⟨hhost, rfl, rfl | ⟨-, rfl⟩⟩
      · exact splitHostPort_plain hhost hd.noBrackets ht hcolon
      · exact splitHostPort_bracketed hhost hd.noBrackets hcolon

theorem host_of_binds_join (h : Binds (joinHostPort t (natString dp)) e dp) :
    NoBrackets e.host ∧ (e.host = t ∨ 0x3A ∉ t ∧ t = 0x5B :: e.host ++ [0x5D]) := by
  obtain ⟨host, port, hsplit, -, -, -, rfl, -⟩ := h
  obtain ⟨hhost, -, hcases⟩ := (splitHostPort_joinHostPort (digits_natString dp)).mp hsplit
  exact ⟨hhost, hcases⟩

/-- A joined address binds the host that is split off, with the default port. -/
theorem binds_join_iff (hdp : dp ≤ 65535) :
    Binds (joinHostPort t (natString dp)) ⟨host, none⟩ dp ↔
      NoBrackets host ∧ (host = t ∨ 0x3A ∉ t ∧ t = 0x5B :: host ++ [0x5D]) := by
  constructor
  · exact host_of_binds_join
  · rintro ⟨hhost, hcases⟩
    have hdecimal := decimal_natString dp
    refine ⟨host, natString dp, ?_, hhost, digits_natString dp, hdecimal.trans_le hdp, rfl,
      hdecimal⟩
    exact (splitHostPort_joinHostPort (digits_natString dp)).mpr ⟨hhost, rfl, hcases⟩

theorem splitHostPort_port (hport : NoBrackets port) (hcolon : 0x3A ∉ port) :
    splitHostPort (0x3A :: port) = some ([], port) := by
  have hnil : NoBrackets [] := by decide
  exact splitHostPort_plain hnil hport (List.not_mem_nil) hcolon

theorem binds_port {n : Nat} (hn : n ≤ 65535)
    (hport : e.port.elim (n = dp) fun given => atoi given = some (n : Int)) (hhost : e.host = []) :
    Binds (str ":" ++ natString n) e dp := by
  have hdigits := digits_natString n
  have hdecimal := decimal_natString n
  refine ⟨[], natString n, ?_, by decide, hdigits, hdecimal.trans_le hn, hhost.symm, ?_⟩
  · exact splitHostPort_port hdigits.noBrackets (hdigits.notMem (by decide))
  · rw [hdecimal]
    exact hport

theorem binds_split_iff (hsplit : splitHostPort t = some (host, port)) :
    Binds t (Endpoint.ofAddress t) dp ↔ Sound t := by
  obtain ⟨hnumber, hof⟩ := ofAddress_of_split hsplit
  rw [Sound, if_neg hnumber, hof]
  obtain ⟨hhost, -⟩ := of_splitHostPort hsplit
  constructor
  · rintro ⟨host', port', hsplit', -, hdigits, hrange, -⟩
    cases hsplit.symm.trans hsplit'
    exact ⟨hhost, hdigits, hrange⟩
  · rintro ⟨-, hdigits, hrange⟩
    exact ⟨host, port, hsplit, hhost, hdigits, hrange, rfl, hdigits.atoi_eq (by omega)⟩

/-- If an address is not split, it makes no difference whether a colon is removed before a number
is read. -/
theorem atoi_trim (hsplit : splitHostPort t = none) :
    atoi (if hasPrefix t (str ":") then t.drop 1 else t) = atoi t := by
  split
  · next hcolon =>
    obtain ⟨r, rfl⟩ := (hasPrefix_singleton (b := 0x3A)).mp hcolon
    have hrest : ¬ Digits (unsigned r) := fun h => by
      have hport := splitHostPort_port
        ⟨notMem_of_number h (.inr (.inl rfl)), notMem_of_number h (.inr (.inr rfl))⟩
        (notMem_of_number h (.inl rfl))
      exact absurd (hsplit.symm.trans hport) (by simp)
    have hwhole : ¬ Digits (unsigned (0x3A :: r)) :=
      fun h => notMem_of_number h (.inl rfl) List.mem_cons_self
    rw [List.drop_succ_cons, List.drop_zero, atoi_eq, if_neg hrest, atoi_eq, if_neg hwhole]
  · rfl

theorem binds_number_iff {n : Int} (hatoi : atoi t = some n) (hrange : 0 ≤ n ∧ n ≤ 65535) :
    Binds (str ":" ++ natString n.toNat) (Endpoint.ofAddress t) dp ↔ Sound t := by
  have ht : Digits (unsigned t) := not_not.mp fun h => by
    rw [atoi_eq, if_neg h] at hatoi
    cases hatoi
  have habs : n.natAbs = decimal (unsigned t) := by
    rcases atoi_cases ht with ⟨hnone, -⟩ | ⟨m, hm, habs⟩
    · exact absurd (hnone.symm.trans hatoi) (by simp)
    · cases hatoi.symm.trans hm
      exact habs
  rw [Sound, if_pos ht, ofAddress_number ht]
  refine iff_of_true (binds_port (by omega) ?_ rfl) (by omega)
  exact hatoi.trans (congrArg some (by omega))

theorem binds_join_number_iff (ht : Digits (unsigned t)) (hatoi : atoi t = none) :
    Binds (joinHostPort t (natString dp)) (Endpoint.ofAddress t) dp ↔ Sound t := by
  rw [Sound, if_pos ht, ofAddress_number ht]
  refine iff_of_false (fun hbinds => ?_) fun hsmall => ?_
  · obtain ⟨-, hempty | ⟨-, hbrackets⟩⟩ := host_of_binds_join hbinds
    · exact ht.1 (hempty ▸ rfl)
    · exact notMem_of_number ht (.inr (.inl rfl)) (hbrackets ▸ List.mem_cons_self)
  · rcases atoi_cases ht with ⟨-, hlarge⟩ | ⟨n, hn, -⟩
    · omega
    · exact absurd (hatoi.symm.trans hn) (by simp)

theorem not_binds_join (hcolon : 0x3A ∈ t) (hhost : e.host.length < t.length) :
    ¬ Binds (joinHostPort t (natString dp)) e dp := by
  intro hbinds
  obtain ⟨-, hsame | ⟨hnotMem, -⟩⟩ := host_of_binds_join hbinds
  · exact absurd (congrArg List.length hsame) hhost.ne
  · exact hnotMem hcolon

/-- A host in brackets without a port keeps them, or loses them if it has no colons. -/
theorem binds_join_bracketed_iff {inner : Str} (ht : ¬ Digits (unsigned t))
    (hbracketed : bracketed t = some inner) (hdp : dp ≤ 65535) :
    Binds (joinHostPort t (natString dp)) (Endpoint.ofAddress t) dp ↔ Sound t := by
  have hinner := bracketed_eq_some_iff.mp hbracketed
  have hstart : hasPrefix t (str "[") = true := hasPrefix_singleton.mpr ⟨_, hinner⟩
  have hne : inner ≠ t := fun h => by
    have hlength := congrArg List.length hinner
    simp only [List.length_append, List.length_cons, h] at hlength
    omega
  have hof : Endpoint.ofAddress t = ⟨inner, none⟩ := by
    rw [Endpoint.ofAddress, if_neg ht, hbracketed]
  rw [Sound, if_neg ht, hof, binds_join_iff hdp]
  simp [SoundPort, hne, ← hinner, hstart]

theorem binds_join_colon_iff {before : Str} (hsplit : splitHostPort t = none)
    (ht : ¬ Digits (unsigned t)) (hbracketed : bracketed t = none)
    (hcut : cutLast 0x3A t = some (before, port)) (hdp : dp ≤ 65535) :
    Binds (joinHostPort t (natString dp)) (Endpoint.ofAddress t) dp ↔ Sound t := by
  obtain ⟨hs, hport⟩ := cutLast_eq_some_iff.mp hcut
  have hcolon : 0x3A ∈ t := by simp [hs]
  have hlength : before.length < t.length := by
    rw [hs, List.length_append, List.length_cons]
    omega
  rw [Sound, if_neg ht, Endpoint.ofAddress, if_neg ht, hbracketed, hcut]
  dsimp only
  cases hbefore : bracketed before with
  | some inner =>
    -- the address would have been split if the port were a number
    have hinner := bracketed_eq_some_iff.mp hbefore
    refine iff_of_false (not_binds_join hcolon ?_) ?_
    · have hshorter := congrArg List.length hinner
      simp only [List.length_append, List.length_cons] at hshorter
      dsimp only
      omega
    · rintro ⟨hhost, hdigits, -⟩
      have hsome := splitHostPort_bracketed hhost hdigits.noBrackets hport
      rw [← hinner, ← hs, hsplit] at hsome
      cases hsome
  | none =>
    dsimp only
    split
    · -- with another colon, all of it is the host
      rw [binds_join_iff hdp]
      refine and_congr_right fun hbrackets => iff_of_true (.inl rfl) ?_
      rintro ⟨-, hstart⟩
      obtain ⟨r, hr⟩ := (hasPrefix_singleton (b := 0x5B)).mp hstart
      exact hbrackets.1 (hr ▸ List.mem_cons_self)
    · next hplain =>
      refine iff_of_false (not_binds_join hcolon hlength) ?_
      rintro ⟨hhost, hdigits, -⟩
      have hsome := splitHostPort_plain hhost hdigits.noBrackets hplain hport
      rw [← hs, hsplit] at hsome
      cases hsome

theorem binds_join_host_iff (hsplit : splitHostPort t = none) (ht : ¬ Digits (unsigned t))
    (hdp : dp ≤ 65535) :
    Binds (joinHostPort t (natString dp)) (Endpoint.ofAddress t) dp ↔ Sound t := by
  cases hbracketed : bracketed t with
  | some inner => exact binds_join_bracketed_iff ht hbracketed hdp
  | none =>
    cases hcut : cutLast 0x3A t with
    | some parts => exact binds_join_colon_iff hsplit ht hbracketed hcut hdp
    | none =>
      have hcolon := cutLast_eq_none_iff.mp hcut
      have hof : Endpoint.ofAddress t = ⟨t, none⟩ := by
        rw [Endpoint.ofAddress, if_neg ht, hbracketed, hcut]
      rw [Sound, if_neg ht, hof, binds_join_iff hdp]
      simp [SoundPort, hcolon]

theorem binds_resolve_iff {lib : Waf.Library F R A N}
    (hnet : ∀ s, lib.splitHostPort s = (splitHostPort s).map Prod.fst) (htrim : trimSpace t = t)
    (hdp : dp ≤ 65535) (hresolve : resolveListenAddr lib t dp = .ok addr) :
    Binds addr (Endpoint.ofAddress t) dp ↔ Sound t := by
  rw [resolveListenAddr, htrim, hnet, Option.isSome_map] at hresolve
  split at hresolve
  · next hempty =>
    cases hresolve
    subst hempty
    exact iff_of_true (binds_port hdp rfl rfl) (by decide)
  split at hresolve
  · next hsome =>
    cases hresolve
    obtain ⟨⟨host, port⟩, hsplit⟩ := Option.isSome_iff_exists.mp hsome
    exact binds_split_iff hsplit
  · next hnone =>
    have hsplit : splitHostPort t = none := Option.not_isSome_iff_eq_none.mp hnone
    rw [atoi_trim hsplit] at hresolve
    split at hresolve
    · next n hn =>
      split at hresolve
      · cases hresolve
      · next hrange =>
        cases hresolve
        exact binds_number_iff hn (by omega)
    · next hatoi =>
      cases hresolve
      by_cases ht : Digits (unsigned t)
      · exact binds_join_number_iff ht hatoi
      · exact binds_join_host_iff hsplit ht hdp

end Binding

/-- An accepted directive gives an address that can be bound, with the host and the port it names,
just when its own address is sound. -/
theorem parseListener_binds_iff {lib : Waf.Library F R A N}
    (hnet : ∀ s, lib.splitHostPort s = (splitHostPort s).map Prod.fst) {raw : Str}
    {spec : ListenersSpec} (haccepted : parseListener lib raw = .ok spec) :
    Binds spec.addr (Endpoint.ofAddress (address raw)) (defaultPort raw) ↔ Sound (address raw) := by
  obtain ⟨htrim, hresolve⟩ := of_parseListener haccepted
  refine binds_resolve_iff hnet htrim ?_ hresolve
  rw [defaultPort]
  split <;> decide

def netLibrary : Waf.Library Int Str Str Str :=
  { Waf.plainLibrary with splitHostPort := fun s => (splitHostPort s).map Prod.fst }

/-- An address in brackets with a port is bound. -/
theorem loopback_binds :
    parseListener netLibrary (str "[::1]:8443 ssl") = .ok ⟨str "[::1]:8443", true, false⟩ ∧
      Binds (str "[::1]:8443") (Endpoint.ofAddress (address (str "[::1]:8443 ssl")))
        (defaultPort (str "[::1]:8443 ssl")) := by
  have haccepted : parseListener netLibrary (str "[::1]:8443 ssl") =
      .ok ⟨str "[::1]:8443", true, false⟩ := by decide
  exact ⟨haccepted, (parseListener_binds_iff (fun _ => rfl) haccepted).mpr (by decide)⟩

/-- Without its port, it is given brackets once more, and cannot be split. A port out of range is
accepted after a colon. -/
theorem loopback_not_binds :
    parseListener netLibrary (str "[::1]") = .ok ⟨str "[[::1]]:80", false, false⟩ ∧
      splitHostPort (str "[[::1]]:80") = none ∧
      ¬ Binds (str "[[::1]]:80") (Endpoint.ofAddress (address (str "[::1]")))
        (defaultPort (str "[::1]")) ∧
      parseListener netLibrary (str ":99999") = .ok ⟨str ":99999", false, false⟩ ∧
      ¬ Binds (str ":99999") (Endpoint.ofAddress (address (str ":99999")))
        (defaultPort (str ":99999")) := by
  have hnone : splitHostPort (str "[[::1]]:80") = none := by decide
  have hport : splitHostPort (str ":99999") = some ([], str "99999") := by decide
  refine ⟨by decide, hnone, ?_, by decide, ?_⟩
  · rintro ⟨host, port, hsplit, -⟩
    cases hnone.symm.trans hsplit
  · rintro ⟨host, port, hsplit, -, -, hrange, -⟩
    cases hport.symm.trans hsplit
    exact absurd hrange (by decide)

end Peretum.Config
