import Peretum.RateLimit.Store

/-!
# The rate of a key

A key that is always used with the same parameters gets no more calls through than its bucket
holds and flows in, as long as its limiter is dropped only when it is full. A limiter that takes
longer than five minutes to fill can be dropped before that, and the key then starts with a full
bucket again.
-/

namespace Peretum.RateLimit

open Go TokenBucket

namespace Store

variable {s : Store} {c : Call} {key : Str} {rps : ℚ} {burst : Int} {now : ℚ}

/-- A call for the key is allowed. -/
def lets (key : Str) (s : Store) (c : Call) : Bool := c.key = key && s.allows c

theorem Keeps.avail_le (hs : s.Keeps key rps burst now) (later : ℚ) :
    s.avail key burst later ≤ burst := by
  unfold avail
  cases hl : s.limiters.lookup key with
  | none => exact le_rfl
  | some l =>
    rw [Option.elim_some, (hs.sound l hl).level_eq]
    exact level_le

variable {later begin start stop : ℚ} {calls : List Call}

/-- The tokens of a key grow no faster than its rate. -/
theorem Keeps.avail_le_add (hs : s.Keeps key rps burst now) (hrps : 0 < rps) {t : ℚ}
    (hlater : t ≤ later) : s.avail key burst later ≤ s.avail key burst t + rps * (later - t) := by
  unfold avail
  cases hl : s.limiters.lookup key with
  | none =>
    have hflow : 0 ≤ rps * (later - t) := mul_nonneg hrps.le (sub_nonneg.mpr hlater)
    simpa using hflow
  | some l =>
    rw [Option.elim_some, Option.elim_some, (hs.sound l hl).level_eq, (hs.sound l hl).level_eq]
    exact level_le_add hrps.le hlater

theorem Keeps.avail_nonneg (hs : s.Keeps key rps burst now) (hrps : 0 < rps) (hburst : 0 < burst) :
    0 ≤ s.avail key burst now := by
  unfold avail
  cases hl : s.limiters.lookup key with
  | none => exact Int.cast_nonneg hburst.le
  | some l => exact (hs.sound l hl).level_nonneg hrps hburst

theorem Keeps.used (hs : s.Keeps key rps burst now) (hburst : 0 < burst) (hkey : c.key = key)
    (hfits : Fits key rps burst c) (hnow : now ≤ c.now) :
    (s.used c).Sound rps burst c.now ∧ (s.used c).level c.now = s.avail key burst c.now := by
  obtain ⟨hrps', hburst'⟩ := hfits hkey
  unfold Store.used limiter avail
  rw [hkey, hrps', hburst']
  cases hl : s.limiters.lookup key with
  | none => exact ⟨Limiter.sound_new hburst, Limiter.level_new⟩
  | some l =>
    dsimp only
    rw [if_pos (hs.params l hl)]
    exact ⟨(hs.sound l hl).mono hnow, rfl⟩

theorem Keeps.avail_step (hs : s.Keeps key rps burst now) (hrps : 0 < rps) (hburst : 0 < burst)
    (hkey : c.key = key) (hfits : Fits key rps burst c) (hnow : now ≤ c.now) :
    (s.step c).avail key burst c.now =
      s.avail key burst c.now - (if s.allows c then 1 else 0) := by
  obtain ⟨hsound, hlevel⟩ := hs.used hburst hkey hfits hnow
  have hlookup := (lookup_step_self s c).1
  rw [← hlevel, avail, ← hkey, hlookup, Option.elim_some]
  exact hsound.level_allow hrps hburst

/-- A call leaves the limiter of the key sound. -/
theorem Keeps.step (hs : s.Keeps key rps burst now) (hrps : 0 < rps) (hburst : 0 < burst)
    (hfits : Fits key rps burst c) (hnow : now ≤ c.now) : (s.step c).Keeps key rps burst c.now := by
  by_cases hkey : c.key = key
  · obtain ⟨hsound, -⟩ := hs.used hburst hkey hfits hnow
    obtain ⟨hrps', hburst'⟩ := hfits hkey
    obtain ⟨hlimiters, hparams, hlastSeen⟩ := lookup_step_self s c
    rw [hkey] at hlimiters hparams hlastSeen
    rw [hrps', hburst'] at hparams
    refine ⟨fun l hl => ?_, fun l _ => hparams, fun l hl => ?_⟩
    · obtain rfl := Option.some.inj (hlimiters.symm.trans hl)
      exact hsound.allow hrps hburst
    · obtain rfl := Option.some.inj (hlimiters.symm.trans hl)
      rw [hlastSeen, Limiter.allow_snd]
  · rcases lookup_step_other (s := s) (c := c) (Ne.symm hkey) with
      ⟨-, hnone⟩ | ⟨-, hlimiters, hparams, hlastSeen⟩
    · refine ⟨fun l hl => ?_, fun l hl => ?_, fun l hl => ?_⟩
      all_goals
        rw [hnone] at hl
        cases hl
    · refine ⟨fun l hl => ?_, fun l hl => ?_, fun l hl => ?_⟩
      · exact (hs.sound l (hlimiters ▸ hl)).mono hnow
      · exact hparams.trans (hs.params l (hlimiters ▸ hl))
      · exact hlastSeen.trans (hs.lastSeen l (hlimiters ▸ hl))

/-- A call that spares the key takes a token out for each call it allows, and makes none up. -/
theorem Keeps.pays (hs : s.Keeps key rps burst now) (hrps : 0 < rps) (hburst : 0 < burst)
    (hfits : Fits key rps burst c) (hspares : Spares key burst s c) (hnow : now ≤ c.now) :
    Pays Store.step (lets key) Call.now (fun s now => s.avail key burst now) rps burst s c := by
  have hnext := hs.step hrps hburst hfits hnow
  refine ⟨hs.avail_le _, hnext.avail_nonneg hrps hburst, fun later hlater => ?_⟩
  by_cases hkey : c.key = key
  · have hstep := hs.avail_step hrps hburst hkey hfits hnow
    have hgrowth := hnext.avail_le_add hrps hlater
    have hlets : lets key s c = s.allows c := by simp [lets, hkey]
    rw [hlets]
    linarith
  · have hlets : ¬ lets key s c = true := by simp [lets, hkey]
    rw [if_neg hlets, add_zero]
    rcases lookup_step_other (s := s) (c := c) (Ne.symm hkey) with ⟨hdrops, -⟩ | ⟨-, hlimiters, -⟩
    · have hfull := hspares hdrops
      have hbound := hnext.avail_le later
      have hflow : 0 ≤ rps * (later - c.now) := mul_nonneg hrps.le (sub_nonneg.mpr hlater)
      linarith
    · have hsame : (s.step c).avail key burst later = s.avail key burst later := by
        rw [avail, avail, hlimiters]
      rw [hsame]
      exact hs.avail_le_add hrps hlater

/-- A bucket that fills within `ttl` is full when it is dropped. -/
theorem Keeps.spares (hs : s.Keeps key rps burst now) (hrps : 0 < rps)
    (hfast : (burst : ℚ) ≤ rps * ttl) : Spares key burst s c := by
  rintro ⟨-, -, t, ht, hold⟩
  unfold avail
  cases hl : s.limiters.lookup key with
  | none => rfl
  | some l =>
    have hlast := hs.lastSeen l hl
    obtain rfl := Option.some.inj (ht.symm.trans hlast)
    rw [Option.elim_some, (hs.sound l hl).level_eq]
    refine level_eq_size (hs.sound l hl).nonneg (hfast.trans ?_)
    exact mul_le_mul_of_nonneg_left hold.le hrps.le

theorem Keeps.mono (hs : s.Keeps key rps burst now) (hlater : now ≤ later) :
    s.Keeps key rps burst later :=
  ⟨fun l hl => (hs.sound l hl).mono hlater, hs.params, hs.lastSeen⟩

/-- No key is dropped that was used within `ttl`. -/
theorem Since.not_drops (hsince : s.Since key begin) (hbrief : c.now - begin ≤ ttl) :
    ¬ s.Drops c key := by
  rintro ⟨-, -, t, ht, hold⟩
  have hbegin := hsince t ht
  linarith

/-- A call spares a key that was used within `ttl`. -/
theorem Since.spares (hsince : s.Since key begin) (hbrief : c.now - begin ≤ ttl) :
    Spares key burst s c := fun hdrops => absurd hdrops (hsince.not_drops hbrief)

/-- A call that drops nothing moves no use of a key back. -/
theorem Since.step (hsince : s.Since key begin) (hbegin : begin ≤ c.now)
    (hbrief : c.now - begin ≤ ttl) : (s.step c).Since key begin := by
  intro t ht
  by_cases hkey : key = c.key
  · subst hkey
    rw [(lookup_step_self s c).2.2] at ht
    exact Option.some.inj ht ▸ hbegin
  · rcases lookup_step_other (s := s) (c := c) hkey with ⟨hdrops, -⟩ | ⟨-, -, -, hlastSeen⟩
    · exact absurd hdrops (hsince.not_drops hbrief)
    · exact hsince t (hlastSeen ▸ ht)

/-- A call finds a full bucket if the call before had its key and other parameters. -/
theorem allows_of_other_params {d : Call} (hkey : c.key = d.key)
    (hdiffer : ¬ (effectiveRps c.rps = effectiveRps d.rps ∧
      effectiveBurst c.burst = effectiveBurst d.burst)) : (s.step c).allows d = true := by
  obtain ⟨hlimiters, hparams, -⟩ := lookup_step_self s c
  rw [hkey] at hlimiters hparams
  have hused : (s.step c).used d =
      .new (effectiveRps d.rps) (effectiveBurst d.burst) d.now := by
    rw [Store.used, limiter, hlimiters, hparams]
    exact if_neg fun hsame => hdiffer (Prod.mk.inj (Option.some.inj hsame))
  have htoken : 1 ≤ ((s.step c).used d).level d.now := by
    rw [hused, Limiter.level_new]
    exact_mod_cast effectiveBurst_pos d.burst
  rw [show (s.step c).allows d = (((s.step c).used d).allow d.now).1 from rfl, Limiter.allow,
    if_pos htoken]

/-- A run whose calls all spare the key pays for every call it allows. -/
theorem Keeps.throughout (hs : s.Keeps key rps burst now) (hrps : 0 < rps) (hburst : 0 < burst)
    (htimed : calls.Pairwise fun c d => c.now ≤ d.now) (hnow : ∀ c ∈ calls, now ≤ c.now)
    (hfits : ∀ c ∈ calls, Fits key rps burst c)
    (hspares : Throughout Store.step (Spares key burst) s calls) :
    Throughout Store.step
      (Pays Store.step (lets key) Call.now (fun s now => s.avail key burst now) rps burst)
      s calls := by
  induction calls generalizing s now with
  | nil => trivial
  | cons c calls ih =>
    have hfirst := hfits c List.mem_cons_self
    have hcnow := hnow c List.mem_cons_self
    obtain ⟨hlater, hrest⟩ := List.pairwise_cons.mp htimed
    refine ⟨hs.pays hrps hburst hfirst hspares.1 hcnow, ?_⟩
    exact ih (hs.step hrps hburst hfirst hcnow) hrest hlater
      (fun d hd => hfits d (List.mem_cons_of_mem c hd)) hspares.2

/-- A run spares every key whose bucket fills within `ttl`. -/
theorem Keeps.throughout_spares (hs : s.Keeps key rps burst now) (hrps : 0 < rps)
    (hburst : 0 < burst) (hfast : (burst : ℚ) ≤ rps * ttl)
    (htimed : calls.Pairwise fun c d => c.now ≤ d.now) (hnow : ∀ c ∈ calls, now ≤ c.now)
    (hfits : ∀ c ∈ calls, Fits key rps burst c) :
    Throughout Store.step (Spares key burst) s calls := by
  induction calls generalizing s now with
  | nil => trivial
  | cons c calls ih =>
    obtain ⟨hlater, hrest⟩ := List.pairwise_cons.mp htimed
    refine ⟨hs.spares hrps hfast, ?_⟩
    exact ih (hs.step hrps hburst (hfits c List.mem_cons_self) (hnow c List.mem_cons_self)) hrest
      hlater fun d hd => hfits d (List.mem_cons_of_mem c hd)

theorem keeps_new (key : Str) (rps : ℚ) (burst : Int) (now : ℚ) : new.Keeps key rps burst now :=
  ⟨nofun, nofun, nofun⟩

theorem since_new (key : Str) (begin : ℚ) : new.Since key begin := nofun

/-- The number of calls for a key that are allowed in a window of time. -/
def allowed (key : Str) (start stop : ℚ) (s : Store) (calls : List Call) : Nat :=
  spent step (lets key) Call.now start stop s calls

theorem Keeps.allowed_le (hs : s.Keeps key rps burst now) (hrps : 0 < rps) (hburst : 0 < burst)
    (htimed : calls.Pairwise fun c d => c.now ≤ d.now) (hnow : ∀ c ∈ calls, now ≤ c.now)
    (hfits : ∀ c ∈ calls, Fits key rps burst c)
    (hspares : Throughout Store.step (Spares key burst) s calls) (hwindow : start ≤ stop) :
    (allowed key start stop s calls : ℚ) ≤ burst + rps * (stop - start) :=
  spent_le hrps.le (Int.cast_nonneg hburst.le) hwindow htimed
    (hs.throughout hrps hburst htimed hnow hfits hspares)

theorem Keeps.allowed_replicate (hs : s.Keeps key rps burst now) (hrps : 0 < rps)
    (hburst : 0 < burst) (hkey : c.key = key) (hfits : Fits key rps burst c) (hnow : now ≤ c.now)
    {n : Nat} (hn : (n : ℚ) ≤ s.avail key burst c.now) (hstart : start ≤ c.now)
    (hstop : c.now ≤ stop) : allowed key start stop s (List.replicate n c) = n := by
  induction n generalizing s now with
  | zero => rfl
  | succ n ih =>
    rw [Nat.cast_add, Nat.cast_one] at hn
    obtain ⟨-, hlevel⟩ := hs.used hburst hkey hfits hnow
    have hallows : s.allows c = true := by
      have htoken : 1 ≤ (s.used c).level c.now := by
        linarith
      rw [show s.allows c = ((s.used c).allow c.now).1 from rfl, Limiter.allow, if_pos htoken]
    have hstep := hs.avail_step hrps hburst hkey hfits hnow
    rw [hallows, if_pos rfl] at hstep
    have hrest := ih (hs.step hrps hburst hfits hnow) le_rfl (by linarith)
    have hlets : lets key s c = true := by simp [lets, hkey, hallows]
    rw [allowed] at hrest
    rw [allowed, List.replicate_succ, spent, if_pos ⟨hlets, hstart, hstop⟩, hrest, Nat.add_comm]

/-- A store in which the key is one of a number of keys, all different, and has not been used
since time 0. -/
structure Crowd (key : Str) (other : Nat → Str) (j : Nat) (s : Store) : Prop where
  size : s.limiters.entries.length = j + 1
  mem : key ∈ s.limiters
  /-- It has not been used since. -/
  seen : s.lastSeen.lookup key = some 0
  fresh : ∀ i, j ≤ i → other i ∉ s.limiters

variable {other : Nat → Str} {j others : Nat}

/-- A call that finds a small number of limiters drops nothing. -/
theorem step_eq_touched (hsize : s.sizeAt c % 1024 ≠ 0) : s.step c = s.touched c := by
  rw [step_eq, if_neg hsize]

theorem crowd_new (hkey : c.key = key) (hnow : c.now = 0) (hother : ∀ i, other i ≠ key) :
    (new.step c).Crowd key other 0 := by
  have hsize : new.sizeAt c = 1 := rfl
  rw [step_eq_touched (by rw [hsize]; decide)]
  refine ⟨rfl, ?_, ?_, fun i _ hmem => ?_⟩
  · simp [touched, hkey]
  · simp [touched, hkey, hnow]
  · have hi : other i = key ∨ other i ∈ new.limiters := by simpa [touched, hkey] using hmem
    exact hi.elim (hother i) (AList.notMem_empty _)

theorem Crowd.again (hs : s.Crowd key other 0) (hkey : c.key = key) (hnow : c.now = 0)
    (hother : ∀ i, other i ≠ key) : (s.step c).Crowd key other 0 := by
  have hmem : c.key ∈ s.limiters := hkey ▸ hs.mem
  have hsize : s.sizeAt c = 1 := by rw [sizeAt, if_pos hmem, hs.size]
  rw [step_eq_touched (by rw [hsize]; decide)]
  refine ⟨?_, ?_, ?_, fun i hi hin => ?_⟩
  · rw [touched, Map.length_insert, if_pos hmem, hs.size]
  · simp [touched, hkey]
  · simp [touched, hkey, hnow]
  · have hcases : other i = key ∨ other i ∈ s.limiters := by simpa [touched, hkey] using hin
    exact hcases.elim (hother i) (hs.fresh i hi)

theorem Crowd.next (hs : s.Crowd key other j) (hkey : c.key = other j)
    (hother : ∀ i, other i ≠ key) (hinj : Function.Injective other) (hj : j + 2 < 1024) :
    (s.step c).Crowd key other (j + 1) := by
  have hnew : c.key ∉ s.limiters := hkey ▸ hs.fresh j le_rfl
  have hne : key ≠ c.key := fun h => hother j (h ▸ hkey).symm
  have hsize : s.sizeAt c = j + 2 := by rw [sizeAt, if_neg hnew, hs.size]
  rw [step_eq_touched (by rw [hsize]; omega)]
  refine ⟨?_, ?_, ?_, fun i hi hin => ?_⟩
  · rw [touched, Map.length_insert, if_neg hnew, hs.size]
  · simp [touched, hs.mem]
  · simp [touched, hne, hs.seen]
  · have hcases : other i = other j ∨ other i ∈ s.limiters := by simpa [touched, hkey] using hin
    rcases hcases with hsame | hin
    · have := hinj hsame
      omega
    · exact hs.fresh i (by omega) hin

theorem Crowd.last (hs : s.Crowd key other j) (hj : j + 2 = 1024) (hkey : c.key = other j)
    (hother : ∀ i, other i ≠ key) (hnow : ttl < c.now) :
    (s.step c).limiters.lookup key = none := by
  have hnew : c.key ∉ s.limiters := hkey ▸ hs.fresh j le_rfl
  have hne : key ≠ c.key := fun h => hother j (h ▸ hkey).symm
  have hdrops : s.Drops c key := by
    refine ⟨hne, ?_, 0, hs.seen, by rwa [sub_zero]⟩
    rw [sizeAt, if_neg hnew, hs.size]
    omega
  rcases lookup_step_other (s := s) (c := c) hne with ⟨-, hnone⟩ | ⟨hkept, -⟩
  · exact hnone
  · exact absurd hdrops hkept

theorem crowd_replicate (hkey : c.key = key) (hnow : c.now = 0) (hother : ∀ i, other i ≠ key)
    (n : Nat) : ((List.replicate (n + 1) c).foldl step new).Crowd key other 0 := by
  induction n with
  | zero => exact crowd_new hkey hnow hother
  | succ n ih =>
    rw [List.replicate_succ', List.foldl_append]
    exact ih.again hkey hnow hother

theorem Crowd.range (hs : s.Crowd key other 0) {call : Nat → Call}
    (hkey : ∀ i, (call i).key = other i) (hother : ∀ i, other i ≠ key)
    (hinj : Function.Injective other) (hj : j < 1023) :
    (((List.range j).map call).foldl step s).Crowd key other j := by
  induction j with
  | zero => exact hs
  | succ j ih =>
    rw [List.range_succ, List.map_append, List.foldl_append]
    exact (ih (by omega)).next (hkey j) hother hinj (by omega)

theorem Crowd.dropped (hs : s.Crowd key other 0) {call : Nat → Call}
    (hkey : ∀ i, (call i).key = other i) (hother : ∀ i, other i ≠ key)
    (hinj : Function.Injective other) (hnow : ∀ i, ttl < (call i).now) {n : Nat}
    (hn : n = 1023) : (((List.range n).map call).foldl step s).limiters.lookup key = none := by
  obtain ⟨j, rfl⟩ : ∃ j, n = j + 1 := ⟨n - 1, by omega⟩
  have hrange := hs.range hkey hother hinj (by omega : j < 1023)
  rw [List.range_succ, List.map_append, List.foldl_append]
  exact hrange.last (by omega) (hkey j) hother (hnow j)

/-- Keys that differ from one another and from a given one. -/
def otherKey (key : Str) (i : Nat) : Str := key ++ List.replicate (i + 1) 0

theorem otherKey_ne (key : Str) (i : Nat) : otherKey key i ≠ key := by
  intro hsame
  have hlength := congrArg List.length hsame
  simp [otherKey] at hlength

theorem otherKey_injective (key : Str) : Function.Injective (otherKey key) := by
  intro i j hsame
  have hlength := congrArg List.length hsame
  simpa [otherKey] using hlength

/-- Calls that use the whole burst of a key at time 0, later one call for each of a number of
other keys, and the whole burst of the key again. -/
def rush (key : Str) (rps : ℚ) (burst : Int) (others : Nat) (later : ℚ) : List Call :=
  List.replicate burst.toNat ⟨0, key, rps, burst⟩ ++
    ((List.range others).map (fun i => ⟨later, otherKey key i, rps, burst⟩) ++
      List.replicate burst.toNat ⟨later, key, rps, burst⟩)

theorem timed_rush (hlater : 0 ≤ later) :
    (rush key rps burst others later).Pairwise fun c d => c.now ≤ d.now := by
  have hconst : ∀ l : List Call, (∀ c ∈ l, c.now = later) →
      l.Pairwise fun c d => c.now ≤ d.now := by
    intro l hl
    refine List.pairwise_of_forall_mem_list fun c hc d hd => ?_
    rw [hl c hc, hl d hd]
  have hsecond : ∀ c ∈
      (List.range others).map (fun i => (⟨later, otherKey key i, rps, burst⟩ : Call)) ++
      List.replicate burst.toNat ⟨later, key, rps, burst⟩, c.now = later := by
    intro c hc
    rcases List.mem_append.mp hc with hc | hc
    · obtain ⟨i, -, rfl⟩ := List.mem_map.mp hc
      rfl
    · rw [List.eq_of_mem_replicate hc]
  refine List.pairwise_append.mpr ⟨?_, hconst _ hsecond, fun c hc d hd => ?_⟩
  · exact List.pairwise_replicate.mpr (.inr le_rfl)
  · rw [List.eq_of_mem_replicate hc, hsecond d hd]
    exact hlater

theorem params_rush (hc : c ∈ rush key rps burst others later) : c.rps = rps ∧ c.burst = burst := by
  rcases List.mem_append.mp hc with hc | hc
  · rw [List.eq_of_mem_replicate hc]
    exact ⟨rfl, rfl⟩
  · rcases List.mem_append.mp hc with hc | hc
    · obtain ⟨i, -, rfl⟩ := List.mem_map.mp hc
      exact ⟨rfl, rfl⟩
    · rw [List.eq_of_mem_replicate hc]
      exact ⟨rfl, rfl⟩

/-- If the second time is later than `ttl` and the keys are 1024, the calls get the burst through
twice. -/
theorem allowed_rush (hrps : 0 < rps) (hburst : 0 < burst) (hothers : others = 1023)
    (hlater : ttl < later) :
    2 * burst.toNat ≤ allowed key 0 later new (rush key rps burst others later) := by
  have hpos : 0 ≤ later := le_trans (by decide) hlater.le
  have heffective : ∀ now k, Fits key rps burst ⟨now, k, rps, burst⟩ := by
    intro now k _
    exact ⟨if_neg (not_le.mpr hrps), if_neg (not_le.mpr hburst)⟩
  have hcast : ((burst.toNat : Nat) : ℚ) = burst := by
    have hnat : (burst.toNat : Int) = burst := Int.toNat_of_nonneg hburst.le
    exact_mod_cast hnat
  have hfirst : allowed key 0 later new (List.replicate burst.toNat ⟨0, key, rps, burst⟩) =
      burst.toNat :=
    (keeps_new key rps burst 0).allowed_replicate hrps hburst rfl (heffective 0 key) le_rfl hcast.le
      le_rfl hpos
  obtain ⟨n, hn⟩ : ∃ n, burst.toNat = n + 1 := ⟨burst.toNat - 1, by omega⟩
  set first := (List.replicate burst.toNat (⟨0, key, rps, burst⟩ : Call)).foldl step new with hdef
  have hcrowd : first.Crowd key (otherKey key) 0 := by
    rw [hdef, hn]
    exact crowd_replicate (c := ⟨0, key, rps, burst⟩) rfl rfl (otherKey_ne key) n
  set crowded := ((List.range others).map
    (fun i => (⟨later, otherKey key i, rps, burst⟩ : Call))).foldl step first with hcrowded
  have hdropped : crowded.limiters.lookup key = none :=
    hcrowd.dropped (fun _ => rfl) (otherKey_ne key) (otherKey_injective key) (fun _ => hlater)
      hothers
  have hkeeps : crowded.Keeps key rps burst later := by
    refine ⟨fun l hl => ?_, fun l hl => ?_, fun l hl => ?_⟩
    all_goals
      rw [hdropped] at hl
      cases hl
  have hfull : crowded.avail key burst later = burst := by rw [avail, hdropped, Option.elim_none]
  have hsecond : allowed key 0 later crowded
      (List.replicate burst.toNat ⟨later, key, rps, burst⟩) = burst.toNat :=
    hkeeps.allowed_replicate hrps hburst rfl (heffective later key) le_rfl
      (hcast.trans hfull.symm).le hpos le_rfl
  rw [allowed] at hfirst hsecond
  rw [allowed, rush, spent_append, spent_append, hfirst, hsecond]
  omega

/-- A bucket that takes longer than `ttl` to fill lets more through than its rate allows. -/
theorem exists_rush (hrps : 0 < rps) (hburst : 0 < burst) (hslow : rps * ttl < burst)
    (hothers : others = 1023) (key : Str) :
    ∃ later, 0 ≤ later ∧
      burst + rps * (later - 0) <
        (allowed key 0 later new (rush key rps burst others later) : ℚ) := by
  obtain ⟨later, hlater, hless⟩ : ∃ later, ttl < later ∧ later < burst / rps :=
    exists_between ((lt_div_iff₀' hrps).mpr hslow)
  have hflow : rps * later < burst := (lt_div_iff₀' hrps).mp hless
  have hallowed : ((2 * burst.toNat : Nat) : ℚ) ≤
      allowed key 0 later new (rush key rps burst others later) :=
    Nat.cast_le.mpr (allowed_rush hrps hburst hothers hlater)
  have hcast : ((2 * burst.toNat : Nat) : ℚ) = burst + burst := by
    have hnat : (burst.toNat : Int) = burst := Int.toNat_of_nonneg hburst.le
    rw [two_mul, Nat.cast_add]
    congr 1 <;> exact_mod_cast hnat
  refine ⟨later, le_trans (by decide) hlater.le, ?_⟩
  linarith

/-- The calls of a run are in the order of their times. -/
def Timed (calls : List Call) : Prop := calls.Pairwise fun c d => c.now ≤ d.now

/-- A key is always used with the same parameters. -/
def Steady (calls : List Call) : Prop :=
  ∀ c ∈ calls, ∀ d ∈ calls, c.key = d.key → c.rps = d.rps ∧ c.burst = d.burst

/-- The calls for the key have these parameters. -/
def UsedWith (key : Str) (rps : ℚ) (burst : Int) (calls : List Call) : Prop :=
  ∀ c ∈ calls, c.key = key → c.rps = rps ∧ c.burst = burst

/-- In every window of time, no more calls for the key are allowed than its burst and what flows
in. -/
def WithinRate (key : Str) (rps : ℚ) (burst : Int) (calls : List Call) : Prop :=
  ∀ start stop, start ≤ stop →
    (allowed key start stop new calls : ℚ) ≤ burst + rps * (stop - start)

theorem UsedWith.fits (hrps : 0 < rps) (hburst : 0 < burst) (hused : UsedWith key rps burst calls) :
    ∀ c ∈ calls, Fits key rps burst c := by
  intro c hc hkey
  obtain ⟨rfl, rfl⟩ := hused c hc hkey
  exact ⟨if_neg (not_le.mpr hrps), if_neg (not_le.mpr hburst)⟩

theorem Timed.exists_before (htimed : Timed calls) : ∃ now, ∀ c ∈ calls, now ≤ c.now := by
  cases calls with
  | nil => exact ⟨0, nofun⟩
  | cons c calls =>
    refine ⟨c.now, fun d hd => ?_⟩
    rcases List.mem_cons.mp hd with rfl | hd
    · exact le_rfl
    · exact (List.pairwise_cons.mp htimed).1 d hd

theorem steady_of_params (hparams : ∀ c ∈ calls, c.rps = rps ∧ c.burst = burst) : Steady calls := by
  intro c hc d hd _
  rw [(hparams c hc).1, (hparams c hc).2, (hparams d hd).1, (hparams d hd).2]
  exact ⟨rfl, rfl⟩

/-- A key keeps its rate in every run that drops its limiter only when it is full. It does so in
every run exactly if its bucket fills within `ttl`. -/
theorem withinRate_iff (hrps : 0 < rps) (hburst : 0 < burst) (key : Str) :
    (∀ calls, Timed calls → UsedWith key rps burst calls →
      Throughout step (Spares key burst) new calls → WithinRate key rps burst calls) ∧
    ((∀ calls, Timed calls → Steady calls → UsedWith key rps burst calls →
      WithinRate key rps burst calls) ↔ (burst : ℚ) ≤ rps * ttl) := by
  refine ⟨fun calls htimed hused hspares start stop hwindow => ?_, fun hall => ?_, ?_⟩
  · obtain ⟨now, hnow⟩ := htimed.exists_before
    exact (keeps_new key rps burst now).allowed_le hrps hburst htimed hnow
      (hused.fits hrps hburst) hspares hwindow
  · by_contra hslow
    obtain ⟨later, hpos, hmore⟩ := exists_rush hrps hburst (not_le.mp hslow) rfl key
    have hparams : ∀ c ∈ rush key rps burst 1023 later, c.rps = rps ∧ c.burst = burst :=
      fun c hc => params_rush hc
    exact absurd (hall (rush key rps burst 1023 later) (timed_rush hpos) (steady_of_params hparams)
      (fun c hc _ => hparams c hc) 0 later hpos) (not_le.mpr hmore)
  · intro hfast calls htimed _ hused start stop hwindow
    obtain ⟨now, hnow⟩ := htimed.exists_before
    have hs := keeps_new key rps burst now
    have hfits := hused.fits hrps hburst
    -- A bucket that fills within `ttl` is full when its key is dropped.
    exact hs.allowed_le hrps hburst htimed hnow hfits
      (hs.throughout_spares hrps hburst hfast htimed hnow hfits) hwindow

/-- Two requests with the default parameters keep the rate. -/
theorem defaults_withinRate :
    WithinRate (str "k") 100 200 [⟨0, str "k", 100, 200⟩, ⟨1, str "k", 100, 200⟩] := by
  have hparams : ∀ c ∈ [(⟨0, str "k", 100, 200⟩ : Call), ⟨1, str "k", 100, 200⟩],
      c.rps = 100 ∧ c.burst = 200 := by simp
  refine (withinRate_iff (by decide) (by decide) (str "k")).2.mpr (by norm_num [ttl]) _ ?_
    (steady_of_params hparams) fun c hc _ => hparams c hc
  simp [Timed]

/-- With one request in 100 seconds and a burst of 10, it does not. -/
theorem slowBucket_overruns :
    ∃ later : ℚ, 0 ≤ later ∧ Timed (rush (str "k") (1 / 100) 10 1023 later) ∧
      Steady (rush (str "k") (1 / 100) 10 1023 later) ∧
      UsedWith (str "k") (1 / 100) 10 (rush (str "k") (1 / 100) 10 1023 later) ∧
      ¬ WithinRate (str "k") (1 / 100) 10 (rush (str "k") (1 / 100) 10 1023 later) := by
  have hrps : (0 : ℚ) < 1 / 100 := by norm_num
  have hburst : (0 : Int) < 10 := by decide
  obtain ⟨later, hpos, hmore⟩ := exists_rush hrps hburst (by norm_num [ttl]) rfl (str "k")
  exact ⟨later, hpos, timed_rush hpos, steady_of_params fun c hc => params_rush hc,
    fun c hc _ => params_rush hc, fun hwithin => absurd (hwithin 0 later hpos) (not_le.mpr hmore)⟩

end Store

end Peretum.RateLimit
