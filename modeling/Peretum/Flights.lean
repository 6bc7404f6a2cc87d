import Mathlib.Logic.Function.Basic
import Peretum.Runs

/-!
# Single flights

Of the parties that want the same work done, one claims a flight under the key of
the work and the others wait on the channel of that flight. When the owner is done
it closes the channel and takes the flight off the table, in two steps that others
may come between. Flights are named by their channels. This file gives the protocol
by itself, over arbitrary parties and keys, and what holds in every run of it.
-/

namespace Flights

open Function

/-- A flight as its owner has it. -/
structure Flight (K : Type*) where
  key : K
  channel : Nat
  closed : Bool

/-- The table, the channels and the flights the parties own. -/
@[ext]
structure State (P K : Type*) where
  table : K → Option Nat
  next : Nat
  /-- How often each channel was closed. -/
  closes : Nat → Nat
  owned : P → Option (Flight K)

/-- A step of an owner. -/
inductive Action (P K : Type*) where
  | claim (p : P) (key : K)
  | close (p : P)
  /-- Take the flight off the table. -/
  | remove (p : P)

variable {P K : Type*}

/-- Before anything is claimed. -/
def State.init : State P K := ⟨fun _ => none, 0, fun _ => 0, fun _ => none⟩

/-- What holds in every run: flights on the table are the flights the parties own, and
a channel is closed once, by the owner of its flight and before the flight leaves. -/
structure Safe (s : State P K) : Prop where
  tabled : ∀ p f, s.owned p = some f → s.table f.key = some f.channel
  owner : ∀ key channel, s.table key = some channel →
    ∃ p closed, s.owned p = some ⟨key, channel, closed⟩
  unique : ∀ p q f g, s.owned p = some f → s.owned q = some g → f.channel = g.channel → p = q
  allocated : ∀ p f, s.owned p = some f → f.channel < s.next
  closes : ∀ p f, s.owned p = some f → s.closes f.channel = if f.closed then 1 else 0
  left : ∀ channel, channel < s.next → (∀ p f, s.owned p = some f → f.channel ≠ channel) →
    s.closes channel = 1
  unborn : ∀ channel, s.next ≤ channel → s.closes channel = 0

theorem Safe.init : Safe (.init : State P K) := by
  refine ⟨?_, ?_, ?_, ?_, ?_, ?_, fun _ _ => rfl⟩
  · intro p f hf
    cases hf
  · intro key channel htable
    cases htable
  · intro p q f g hf
    cases hf
  · intro p f hf
    cases hf
  · intro p f hf
    cases hf
  · intro channel hlt
    cases hlt

variable {s t : State P K} {p : P} {f : Flight K} {channel : Nat} {key : K}

theorem Safe.owner_unique (hs : Safe s) {q : P} {g : Flight K} (hf : s.owned p = some f)
    (hg : s.owned q = some g) (hkey : f.key = g.key) : p = q := by
  have htable := hs.tabled p f hf
  rw [hkey, hs.tabled q g hg] at htable
  exact hs.unique p q f g hf hg (Option.some.inj htable).symm

theorem Safe.exists_owner (hs : Safe s) (hlt : channel < s.next) (hopen : s.closes channel = 0) :
    ∃ p f, s.owned p = some f ∧ f.channel = channel ∧ f.closed = false := by
  by_contra hnone
  have hleft : ∀ p f, s.owned p = some f → f.channel ≠ channel := by
    rintro p f hf rfl
    have hcloses := hs.closes p f hf
    cases hclosed : f.closed with
    | false => exact hnone ⟨p, f, hf, rfl, hclosed⟩
    | true =>
      rw [hclosed, if_pos rfl] at hcloses
      omega
  have hone := hs.left channel hlt hleft
  omega

variable [DecidableEq P]

theorem owned_update_cases {owned : P → Option (Flight K)} {q : P} {x : Option (Flight K)}
    (hf : update owned p x q = some f) :
    (q = p ∧ x = some f) ∨ (q ≠ p ∧ owned q = some f) := by
  by_cases hq : q = p
  · subst hq
    rw [update_self] at hf
    exact .inl ⟨rfl, hf⟩
  · rw [update_of_ne hq] at hf
    exact .inr ⟨hq, hf⟩

variable [DecidableEq K]

/-- One step of the protocol. -/
def step (s : State P K) : Action P K → Option (State P K)
  | .claim p key =>
      if s.table key = none ∧ (s.owned p).isNone then
        some { s with
          table := update s.table key (some s.next)
          next := s.next + 1
          owned := update s.owned p (some ⟨key, s.next, false⟩) }
      else none
  | .close p =>
      match s.owned p with
      | some ⟨key, channel, false⟩ =>
          some { s with
            closes := update s.closes channel (s.closes channel + 1)
            owned := update s.owned p (some ⟨key, channel, true⟩) }
      | _ => none
  | .remove p =>
      match s.owned p with
      | some ⟨key, _, true⟩ =>
          some { s with
            table := update s.table key none
            owned := update s.owned p none }
      | _ => none

theorem claim_spec (hstep : step s (.claim p key) = some t) :
    s.table key = none ∧ s.owned p = none ∧
      { s with
        table := update s.table key (some s.next)
        next := s.next + 1
        owned := update s.owned p (some ⟨key, s.next, false⟩) } = t := by
  simp only [step] at hstep
  split at hstep
  · next hfree =>
    exact ⟨hfree.1, Option.isNone_iff_eq_none.mp hfree.2, Option.some.inj hstep⟩
  · cases hstep

theorem close_spec (hstep : step s (.close p) = some t) :
    ∃ key channel, s.owned p = some ⟨key, channel, false⟩ ∧
      { s with
        closes := update s.closes channel (s.closes channel + 1)
        owned := update s.owned p (some ⟨key, channel, true⟩) } = t := by
  simp only [step] at hstep
  split at hstep
  · next key channel howned => exact ⟨key, channel, howned, Option.some.inj hstep⟩
  · cases hstep

theorem remove_spec (hstep : step s (.remove p) = some t) :
    ∃ key channel, s.owned p = some ⟨key, channel, true⟩ ∧
      { s with
        table := update s.table key none
        owned := update s.owned p none } = t := by
  simp only [step] at hstep
  split at hstep
  · next key channel howned => exact ⟨key, channel, howned, Option.some.inj hstep⟩
  · cases hstep

theorem Safe.claim (hs : Safe s) (hstep : step s (.claim p key) = some t) : Safe t := by
  obtain ⟨hkey, hnone, rfl⟩ := claim_spec hstep
  refine ⟨?_, ?_, ?_, ?_, ?_, ?_, ?_⟩
  · intro q f hf
    rcases owned_update_cases hf with ⟨rfl, hx⟩ | ⟨-, hold⟩
    · cases hx
      exact update_self ..
    · have htable := hs.tabled q f hold
      have hne : f.key ≠ key := by
        intro heq
        rw [heq, hkey] at htable
        cases htable
      dsimp only
      rw [update_of_ne hne]
      exact htable
  · intro k channel htable
    by_cases hk : k = key
    · subst hk
      dsimp only at htable
      rw [update_self] at htable
      cases htable
      exact ⟨p, false, update_self ..⟩
    · dsimp only at htable
      rw [update_of_ne hk] at htable
      obtain ⟨q, closed, hq⟩ := hs.owner k channel htable
      have hne : q ≠ p := by
        rintro rfl
        rw [hnone] at hq
        cases hq
      refine ⟨q, closed, ?_⟩
      dsimp only
      rw [update_of_ne hne]
      exact hq
  · intro q r f g hf hg hchannel
    rcases owned_update_cases hf with ⟨rfl, hx⟩ | ⟨-, hfold⟩ <;>
      rcases owned_update_cases hg with ⟨rfl, hy⟩ | ⟨-, hgold⟩
    · rfl
    · cases hx
      have hlt := hs.allocated r g hgold
      dsimp only at hchannel
      omega
    · cases hy
      have hlt := hs.allocated q f hfold
      dsimp only at hchannel
      omega
    · exact hs.unique q r f g hfold hgold hchannel
  · intro q f hf
    dsimp only
    rcases owned_update_cases hf with ⟨rfl, hx⟩ | ⟨-, hold⟩
    · cases hx
      exact Nat.lt_succ_self _
    · have hlt := hs.allocated q f hold
      omega
  · intro q f hf
    rcases owned_update_cases hf with ⟨rfl, hx⟩ | ⟨-, hold⟩
    · cases hx
      exact hs.unborn s.next (Nat.le_refl _)
    · exact hs.closes q f hold
  · intro channel hlt hleft
    dsimp only at hlt
    have hne : s.next ≠ channel := hleft p ⟨key, s.next, false⟩ (update_self ..)
    refine hs.left channel (by omega) fun q f hold => ?_
    have hq : q ≠ p := by
      rintro rfl
      rw [hnone] at hold
      cases hold
    refine hleft q f ?_
    dsimp only
    rw [update_of_ne hq]
    exact hold
  · intro channel hle
    dsimp only at hle
    exact hs.unborn channel (by omega)

/-- Closing a channel keeps the protocol safe. -/
theorem Safe.close (hs : Safe s) (hstep : step s (.close p) = some t) : Safe t := by
  obtain ⟨key, channel, howned, rfl⟩ := close_spec hstep
  -- The other flights have other channels.
  have hother : ∀ q f, q ≠ p → s.owned q = some f → f.channel ≠ channel := by
    intro q f hq hf heq
    exact hq (hs.unique q p f ⟨key, channel, false⟩ hf howned heq)
  refine ⟨?_, ?_, ?_, ?_, ?_, ?_, ?_⟩
  · intro q f hf
    rcases owned_update_cases hf with ⟨rfl, hx⟩ | ⟨-, hold⟩
    · cases hx
      exact hs.tabled q ⟨key, channel, false⟩ howned
    · exact hs.tabled q f hold
  · intro k c htable
    obtain ⟨q, closed, hq⟩ := hs.owner k c htable
    by_cases hqp : q = p
    · subst hqp
      obtain ⟨rfl, rfl, rfl⟩ : k = key ∧ c = channel ∧ closed = false := by
        simpa [howned, eq_comm] using hq
      exact ⟨q, true, update_self ..⟩
    · refine ⟨q, closed, ?_⟩
      dsimp only
      rw [update_of_ne hqp]
      exact hq
  · intro q r f g hf hg hchannel
    rcases owned_update_cases hf with ⟨rfl, hx⟩ | ⟨hq, hfold⟩ <;>
      rcases owned_update_cases hg with ⟨rfl, hy⟩ | ⟨hr, hgold⟩
    · rfl
    · cases hx
      exact absurd hchannel.symm (hother r g hr hgold)
    · cases hy
      exact absurd hchannel (hother q f hq hfold)
    · exact hs.unique q r f g hfold hgold hchannel
  · intro q f hf
    rcases owned_update_cases hf with ⟨rfl, hx⟩ | ⟨-, hold⟩
    · cases hx
      exact hs.allocated q ⟨key, channel, false⟩ howned
    · exact hs.allocated q f hold
  · intro q f hf
    rcases owned_update_cases hf with ⟨rfl, hx⟩ | ⟨hq, hold⟩
    · cases hx
      have hopen := hs.closes q _ howned
      simpa using hopen
    · dsimp only
      rw [update_of_ne (hother q f hq hold)]
      exact hs.closes q f hold
  · intro c hlt hleft
    have hne : channel ≠ c := hleft p ⟨key, channel, true⟩ (update_self ..)
    dsimp only
    rw [update_of_ne hne.symm]
    refine hs.left c hlt fun q f hold => ?_
    by_cases hq : q = p
    · subst hq
      obtain rfl := Option.some.inj (howned.symm.trans hold)
      exact hne
    · refine hleft q f ?_
      dsimp only
      rw [update_of_ne hq]
      exact hold
  · intro c hle
    have hlt := hs.allocated p _ howned
    dsimp only at hle hlt ⊢
    rw [update_of_ne (by omega)]
    exact hs.unborn c hle

/-- Taking a flight off the table keeps the protocol safe. -/
theorem Safe.remove (hs : Safe s) (hstep : step s (.remove p) = some t) : Safe t := by
  obtain ⟨key, channel, howned, rfl⟩ := remove_spec hstep
  have hkept : ∀ q f, update s.owned p none q = some f → q ≠ p ∧ s.owned q = some f := by
    intro q f hf
    rcases owned_update_cases hf with ⟨-, hx⟩ | hold
    · cases hx
    · exact hold
  refine ⟨?_, ?_, ?_, ?_, ?_, ?_, hs.unborn⟩
  · intro q f hf
    obtain ⟨hq, hold⟩ := hkept q f hf
    have hne : f.key ≠ key := fun heq => hq (hs.owner_unique hold howned heq)
    dsimp only
    rw [update_of_ne hne]
    exact hs.tabled q f hold
  · intro k c htable
    have hk : k ≠ key := by
      rintro rfl
      exact absurd htable (by simp)
    dsimp only at htable
    rw [update_of_ne hk] at htable
    obtain ⟨q, closed, hq⟩ := hs.owner k c htable
    have hne : q ≠ p := by
      rintro rfl
      rw [howned] at hq
      exact hk (by simpa [eq_comm] using congrArg (Option.map Flight.key) hq)
    refine ⟨q, closed, ?_⟩
    dsimp only
    rw [update_of_ne hne]
    exact hq
  · intro q r f g hf hg hchannel
    exact hs.unique q r f g (hkept q f hf).2 (hkept r g hg).2 hchannel
  · intro q f hf
    exact hs.allocated q f (hkept q f hf).2
  · intro q f hf
    exact hs.closes q f (hkept q f hf).2
  · intro c hlt hleft
    by_cases hc : c = channel
    · subst hc
      have hclosed := hs.closes p _ howned
      simpa using hclosed
    · refine hs.left c hlt fun q f hold => ?_
      by_cases hq : q = p
      · subst hq
        obtain rfl := Option.some.inj (howned.symm.trans hold)
        exact Ne.symm hc
      · refine hleft q f ?_
        dsimp only
        rw [update_of_ne hq]
        exact hold

theorem reaches_claim (hfree : s.table key = none) (hnone : s.owned p = none)
    (htable : t.table = update s.table key (some s.next)) (hnext : t.next = s.next + 1)
    (hcloses : t.closes = s.closes)
    (howned : t.owned = update s.owned p (some ⟨key, s.next, false⟩)) :
    Runs.Reaches step Runs.Unrestricted s t := by
  obtain ⟨table, next, closes, owned⟩ := t
  subst htable hnext hcloses howned
  refine .of_step (a := .claim p key) trivial ?_
  simp [step, hfree, hnone]

theorem reaches_close (hp : s.owned p = some ⟨key, channel, false⟩) (htable : t.table = s.table)
    (hnext : t.next = s.next)
    (hcloses : t.closes = update s.closes channel (s.closes channel + 1))
    (howned : t.owned = update s.owned p (some ⟨key, channel, true⟩)) :
    Runs.Reaches step Runs.Unrestricted s t := by
  obtain ⟨table, next, closes, owned⟩ := t
  subst htable hnext hcloses howned
  refine .of_step (a := .close p) trivial ?_
  simp only [step, hp]

theorem reaches_remove (hp : s.owned p = some ⟨key, channel, true⟩)
    (htable : t.table = update s.table key none) (hnext : t.next = s.next)
    (hcloses : t.closes = s.closes) (howned : t.owned = update s.owned p none) :
    Runs.Reaches step Runs.Unrestricted s t := by
  obtain ⟨table, next, closes, owned⟩ := t
  subst htable hnext hcloses howned
  refine .of_step (a := .remove p) trivial ?_
  simp only [step, hp]

theorem next_le_of_reaches (hreach : Runs.Reaches step Runs.Unrestricted s t) :
    s.next ≤ t.next := by
  induction hreach with
  | refl => exact Nat.le_refl _
  | tail _ hlast ih =>
    obtain ⟨a, -, hstep⟩ := hlast
    cases a with
    | claim p key =>
      obtain ⟨-, -, rfl⟩ := claim_spec hstep
      exact Nat.le_succ_of_le ih
    | close p =>
      obtain ⟨key, channel, -, rfl⟩ := close_spec hstep
      exact ih
    | remove p =>
      obtain ⟨key, channel, -, rfl⟩ := remove_spec hstep
      exact ih

/-- A flight whose channel was allocated before a run was owned before it, under the
same key. -/
theorem owned_of_reaches (hreach : Runs.Reaches step Runs.Unrestricted s t)
    (hf : t.owned p = some f) (hlt : f.channel < s.next) :
    ∃ q g, s.owned q = some g ∧ g.key = f.key ∧ g.channel = f.channel := by
  induction hreach generalizing p f with
  | refl => exact ⟨p, f, hf, rfl, rfl⟩
  | tail hrun hlast ih =>
    obtain ⟨a, -, hstep⟩ := hlast
    cases a with
    | claim q key =>
      have hle := next_le_of_reaches hrun
      obtain ⟨-, -, rfl⟩ := claim_spec hstep
      rcases owned_update_cases hf with ⟨-, hnew⟩ | ⟨-, hold⟩
      · cases hnew
        dsimp only at hlt
        omega
      · exact ih hold hlt
    | close q =>
      obtain ⟨key, channel, howned, rfl⟩ := close_spec hstep
      rcases owned_update_cases hf with ⟨-, hnew⟩ | ⟨-, hold⟩
      · cases hnew
        obtain ⟨q, g, hg, hkey, hchannel⟩ := ih howned hlt
        exact ⟨q, g, hg, hkey, hchannel⟩
      · exact ih hold hlt
    | remove q =>
      obtain ⟨key, channel, -, rfl⟩ := remove_spec hstep
      rcases owned_update_cases hf with ⟨-, hnew⟩ | ⟨-, hold⟩
      · cases hnew
      · exact ih hold hlt

theorem safe_of_reaches (hreach : Runs.Reaches step Runs.Unrestricted (.init : State P K) s) :
    Safe s := by
  refine hreach.invariant (fun s a t hs _ hstep => ?_) Safe.init
  cases a with
  | claim p key => exact hs.claim hstep
  | close p => exact hs.close hstep
  | remove p => exact hs.remove hstep

end Flights
