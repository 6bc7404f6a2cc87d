import Mathlib.Algebra.Order.Ring.Rat
import Peretum.Go.Header
import Peretum.TokenBucket

/-!
# The store of token buckets

`ratelimit.Store` keeps a limiter for every key it has seen, with the parameters it was made for
and the time of its last use. It makes a new one when the key is new or the parameters are
others. When the number of limiters is a multiple of 1024, it drops those that have not been
used for five minutes. Times are in seconds, and a limiter is an exact token bucket.
-/

namespace Peretum.RateLimit

open Go

/-- `rate.Limiter`. -/
structure Limiter where
  limit : ℚ
  burst : Int
  tokens : ℚ
  last : ℚ
  deriving DecidableEq

namespace Limiter

/-- `rate.NewLimiter`: the bucket starts full. -/
def new (limit : ℚ) (burst : Int) (now : ℚ) : Limiter := ⟨limit, burst, burst, now⟩

/-- The tokens at a time. -/
def level (l : Limiter) (now : ℚ) : ℚ := TokenBucket.level l.limit l.burst l.tokens l.last now

/-- `Limiter.Allow`. -/
def allow (l : Limiter) (now : ℚ) : Bool × Limiter :=
  if 1 ≤ l.level now then (true, { l with tokens := l.level now - 1, last := now })
  else (false, { l with tokens := l.level now, last := now })

/-- A limiter is as its parameters and the time allow. -/
structure Sound (rps : ℚ) (burst : Int) (now : ℚ) (l : Limiter) : Prop where
  limit_eq : l.limit = rps
  burst_eq : l.burst = burst
  nonneg : 0 ≤ l.tokens
  bound : l.tokens ≤ burst
  past : l.last ≤ now

variable {rps : ℚ} {burst : Int} {now later : ℚ} {l : Limiter}

theorem sound_new (hburst : 0 < burst) : (new rps burst now).Sound rps burst now :=
  ⟨rfl, rfl, Int.cast_nonneg hburst.le, le_rfl, le_rfl⟩

theorem level_new : (new rps burst now).level now = burst := TokenBucket.level_self le_rfl

theorem Sound.level_eq (hl : l.Sound rps burst now) (later : ℚ) :
    l.level later = TokenBucket.level rps burst l.tokens l.last later := by
  rw [level, hl.limit_eq, hl.burst_eq]

theorem Sound.mono (hl : l.Sound rps burst now) (hlater : now ≤ later) :
    l.Sound rps burst later := ⟨hl.limit_eq, hl.burst_eq, hl.nonneg, hl.bound, hl.past.trans hlater⟩

/-- A sound limiter owes no token at any later time. -/
theorem Sound.level_nonneg (hl : l.Sound rps burst now) (hrps : 0 < rps) (hburst : 0 < burst) :
    0 ≤ l.level now := by
  rw [hl.level_eq]
  exact TokenBucket.level_nonneg hrps.le (Int.cast_nonneg hburst.le) hl.nonneg hl.past

/-- `Allow` takes a token out if there is one, and remembers the time. -/
theorem allow_snd (l : Limiter) (now : ℚ) :
    (l.allow now).2 =
      { l with tokens := l.level now - (if (l.allow now).1 then 1 else 0), last := now } := by
  unfold allow
  split <;> simp

/-- `Allow` leaves a sound limiter. -/
theorem Sound.allow (hl : l.Sound rps burst now) (hrps : 0 < rps) (hburst : 0 < burst) :
    (l.allow now).2.Sound rps burst now := by
  have hle : l.level now ≤ burst := by
    rw [hl.level_eq]
    exact TokenBucket.level_le
  have hnonneg := hl.level_nonneg hrps hburst
  unfold Limiter.allow
  split
  · next htoken =>
    refine ⟨hl.limit_eq, hl.burst_eq, sub_nonneg.mpr htoken, ?_, le_rfl⟩
    linarith
  · exact ⟨hl.limit_eq, hl.burst_eq, hnonneg, hle, le_rfl⟩

/-- The tokens after `Allow`. -/
theorem Sound.level_allow (hl : l.Sound rps burst now) (hrps : 0 < rps) (hburst : 0 < burst) :
    (l.allow now).2.level now = l.level now - (if (l.allow now).1 then 1 else 0) := by
  have hsound := hl.allow hrps hburst
  have hlast : (l.allow now).2.last = now := by rw [allow_snd]
  rw [hsound.level_eq, hlast, TokenBucket.level_self hsound.bound, allow_snd]

end Limiter

structure Store where
  limiters : Map Str Limiter
  params : Map Str (ℚ × Int)
  lastSeen : Map Str ℚ

/-- The rate that is used for a configured one. -/
def effectiveRps (rps : ℚ) : ℚ := if rps ≤ 0 then 100 else rps

/-- The burst that is used for a configured one. -/
def effectiveBurst (burst : Int) : Int := if burst ≤ 0 then 200 else burst

theorem effectiveRps_pos (rps : ℚ) : 0 < effectiveRps rps := by
  unfold effectiveRps
  split
  · norm_num
  · next hpos => exact not_le.mp hpos

theorem effectiveBurst_pos (burst : Int) : 0 < effectiveBurst burst := by
  unfold effectiveBurst
  split <;> omega

namespace Store

def ttl : ℚ := 300

theorem ttl_nonneg : 0 ≤ ttl := by decide

/-- `NewStore`. -/
def new : Store := ⟨∅, ∅, ∅⟩

/-- The limiter of a key, which is a new one if there is none for these parameters. -/
def limiter (s : Store) (key : Str) (rps : ℚ) (burst : Int) (now : ℚ) : Limiter :=
  match s.limiters.lookup key with
  | none => .new rps burst now
  | some l => if s.params.lookup key = some (rps, burst) then l else .new rps burst now

/-- The keys that have not been used for longer than `ttl`. -/
def expired (s : Store) (now : ℚ) : List Str :=
  (s.lastSeen.entries.filter fun e => ttl < now - e.2).map Sigma.fst

def drop (s : Store) (key : Str) : Store :=
  ⟨s.limiters.erase key, s.params.erase key, s.lastSeen.erase key⟩

/-- The loop of `Allow` over `lastSeen`. -/
def reap (s : Store) (now : ℚ) : Store := (s.expired now).foldl drop s

/-- `Store.Allow`, at a time. -/
def allow (now : ℚ) (s : Store) (key : Str) (rps : ℚ) (burst : Int) : Bool × Store :=
  let rps := effectiveRps rps
  let burst := effectiveBurst burst
  let (allowed, l) := (s.limiter key rps burst now).allow now
  let s : Store :=
    ⟨s.limiters.insert key l, s.params.insert key (rps, burst), s.lastSeen.insert key now⟩
  (allowed, if s.limiters.entries.length % 1024 = 0 then s.reap now else s)

theorem lookup_foldl_drop (s : Store) (keys : List Str) (k : Str) :
    (keys.foldl drop s).limiters.lookup k = (if k ∈ keys then none else s.limiters.lookup k) ∧
    (keys.foldl drop s).params.lookup k = (if k ∈ keys then none else s.params.lookup k) ∧
    (keys.foldl drop s).lastSeen.lookup k = (if k ∈ keys then none else s.lastSeen.lookup k) := by
  induction keys generalizing s with
  | nil => simp
  | cons key keys ih =>
    rw [List.foldl_cons]
    obtain ⟨hlimiters, hparams, hlastSeen⟩ := ih (s.drop key)
    rw [hlimiters, hparams, hlastSeen]
    by_cases hk : k = key
    · subst hk
      simp [drop]
    · simp [drop, hk]

/-- A key is expired just when its last use is too long ago. -/
theorem mem_expired_iff {s : Store} {now : ℚ} {k : Str} :
    k ∈ s.expired now ↔ ∃ t, s.lastSeen.lookup k = some t ∧ ttl < now - t := by
  simp only [expired, List.mem_map, List.mem_filter, decide_eq_true_eq]
  constructor
  · rintro ⟨⟨k', t⟩, ⟨hmem, hold⟩, rfl⟩
    exact ⟨t, AList.mem_lookup_iff.mpr hmem, hold⟩
  · rintro ⟨t, hlookup, hold⟩
    exact ⟨⟨k, t⟩, ⟨AList.mem_lookup_iff.mp hlookup, hold⟩, rfl⟩

end Store

/-- A call of `Allow`. -/
structure Call where
  now : ℚ
  key : Str
  rps : ℚ
  burst : Int

namespace Store

/-- Whether a call is allowed. -/
def allows (s : Store) (c : Call) : Bool := (s.allow c.now c.key c.rps c.burst).1

/-- The store after a call. -/
def step (s : Store) (c : Call) : Store := (s.allow c.now c.key c.rps c.burst).2

/-- The limiter that a call uses. -/
def used (s : Store) (c : Call) : Limiter :=
  s.limiter c.key (effectiveRps c.rps) (effectiveBurst c.burst) c.now

/-- The number of limiters when a call looks for those to drop. -/
def sizeAt (s : Store) (c : Call) : Nat :=
  if c.key ∈ s.limiters then s.limiters.entries.length else s.limiters.entries.length + 1

/-- A call drops another key. -/
def Drops (s : Store) (c : Call) (k : Str) : Prop :=
  k ≠ c.key ∧ s.sizeAt c % 1024 = 0 ∧ ∃ t, s.lastSeen.lookup k = some t ∧ ttl < c.now - t

/-- The store when a call looks for keys to drop. -/
def touched (s : Store) (c : Call) : Store :=
  ⟨s.limiters.insert c.key ((s.used c).allow c.now).2,
    s.params.insert c.key (effectiveRps c.rps, effectiveBurst c.burst),
    s.lastSeen.insert c.key c.now⟩

variable {s : Store} {c : Call} {k : Str}

/-- A call touches its key, and drops keys if the number of limiters says so. -/
theorem step_eq (s : Store) (c : Call) :
    s.step c =
      if s.sizeAt c % 1024 = 0 then (s.touched c).reap c.now else s.touched c := by
  unfold step allow sizeAt
  rw [← Map.length_insert]
  rfl

theorem lookup_step_self (s : Store) (c : Call) :
    (s.step c).limiters.lookup c.key = some ((s.used c).allow c.now).2 ∧
    (s.step c).params.lookup c.key = some (effectiveRps c.rps, effectiveBurst c.burst) ∧
    (s.step c).lastSeen.lookup c.key = some c.now := by
  have htouched : (s.touched c).limiters.lookup c.key = some ((s.used c).allow c.now).2 ∧
      (s.touched c).params.lookup c.key = some (effectiveRps c.rps, effectiveBurst c.burst) ∧
      (s.touched c).lastSeen.lookup c.key = some c.now := by simp [touched]
  rw [step_eq]
  split
  · have hkept : c.key ∉ (s.touched c).expired c.now := by
      rw [mem_expired_iff, htouched.2.2]
      rintro ⟨t, ht, hold⟩
      cases ht
      rw [sub_self] at hold
      exact absurd hold (by decide)
    obtain ⟨hlimiters, hparams, hlastSeen⟩ :=
      lookup_foldl_drop (s.touched c) ((s.touched c).expired c.now) c.key
    rw [reap, hlimiters, hparams, hlastSeen, if_neg hkept, if_neg hkept, if_neg hkept]
    exact htouched
  · exact htouched

theorem lookup_step_other (hk : k ≠ c.key) :
    (s.Drops c k ∧ (s.step c).limiters.lookup k = none) ∨
    (¬ s.Drops c k ∧ (s.step c).limiters.lookup k = s.limiters.lookup k ∧
      (s.step c).params.lookup k = s.params.lookup k ∧
      (s.step c).lastSeen.lookup k = s.lastSeen.lookup k) := by
  have htouched : (s.touched c).limiters.lookup k = s.limiters.lookup k ∧
      (s.touched c).params.lookup k = s.params.lookup k ∧
      (s.touched c).lastSeen.lookup k = s.lastSeen.lookup k := by simp [touched, hk]
  rw [step_eq]
  by_cases hsize : s.sizeAt c % 1024 = 0
  · obtain ⟨hlimiters, hparams, hlastSeen⟩ :=
      lookup_foldl_drop (s.touched c) ((s.touched c).expired c.now) k
    rw [if_pos hsize, reap, hlimiters, hparams, hlastSeen]
    have hdrops : s.Drops c k ↔ k ∈ (s.touched c).expired c.now := by
      rw [mem_expired_iff, htouched.2.2]
      simp [Drops, hk, hsize]
    by_cases hexpired : k ∈ (s.touched c).expired c.now
    · exact .inl ⟨hdrops.mpr hexpired, if_pos hexpired⟩
    · rw [if_neg hexpired, if_neg hexpired, if_neg hexpired]
      exact .inr ⟨mt hdrops.mp hexpired, htouched⟩
  · rw [if_neg hsize]
    exact .inr ⟨fun hdrops => hsize hdrops.2.1, htouched⟩

/-- The tokens of a key at a time; a new limiter would be full. -/
def avail (s : Store) (key : Str) (burst : Int) (now : ℚ) : ℚ :=
  (s.limiters.lookup key).elim burst fun l => l.level now

/-- The limiter of a key, if there is one, is sound and filed under these parameters. -/
structure Keeps (key : Str) (rps : ℚ) (burst : Int) (now : ℚ) (s : Store) : Prop where
  sound : ∀ l, s.limiters.lookup key = some l → l.Sound rps burst now
  params : ∀ l, s.limiters.lookup key = some l → s.params.lookup key = some (rps, burst)
  lastSeen : ∀ l, s.limiters.lookup key = some l → s.lastSeen.lookup key = some l.last

/-- The key has not been used before a time. -/
def Since (key : Str) (begin : ℚ) (s : Store) : Prop :=
  ∀ t, s.lastSeen.lookup key = some t → begin ≤ t

/-- The call is for the key with the parameters, or for another key. -/
def Fits (key : Str) (rps : ℚ) (burst : Int) (c : Call) : Prop :=
  c.key = key → effectiveRps c.rps = rps ∧ effectiveBurst c.burst = burst

/-- A call does not drop the key unless its bucket is full. -/
def Spares (key : Str) (burst : Int) (s : Store) (c : Call) : Prop :=
  s.Drops c key → s.avail key burst c.now = burst

end Store

end Peretum.RateLimit
