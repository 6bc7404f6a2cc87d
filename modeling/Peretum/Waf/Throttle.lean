import Peretum.RateLimit.Bound
import Peretum.Waf.Body

/-!
# The rate of a throttling rule

A rule that throttles takes its tokens from the bucket of its id and the client's address. The
bucket is made anew whenever it is asked for with other parameters, and the id of a rule need not
be its own. So a client that turns to two rules of one id by turns finds a full bucket every time.
-/

namespace Peretum.Waf

open Go RateLimit TokenBucket

variable {R A N : Type}

/-- A request to a location at a time. -/
structure Visit where
  now : ℚ
  order : KeyOrder
  r : Request
  target : Str
  location : Str

/-- The call of `Allow` for a visit that a rule throttles. -/
def Visit.call (lib : Library ℚ R A N) (v : Visit) (rule : CompiledRule ℚ) : Call :=
  ⟨v.now, rule.id ++ str "|" ++ clientIP lib v.r, rule.rps, rule.burst⟩

namespace WAFPlugin

variable (lib : Library ℚ R A N)

/-- `BeforeProxy` on a visit, with the buckets as they are then. -/
def serve (p : WAFPlugin ℚ R A N Store) (s : Store) (v : Visit) : HookResult Store :=
  { p with limiter := s }.beforeProxy lib (Store.allow v.now) v.order .fresh v.r v.target v.location

/-- The rule that throttles a visit. -/
def throttling (p : WAFPlugin ℚ R A N Store) (v : Visit) : Option (CompiledRule ℚ) :=
  (p.consulted v.target v.location).bind fun rs =>
    match (rs.evaluate lib v.order v.r p.gs).1 with
    | (.block, some rule) => if rule.action = .rateLimit then some rule else none
    | _ => none

/-- The buckets after a visit. -/
def after (p : WAFPlugin ℚ R A N Store) (s : Store) (v : Visit) : Store :=
  (p.serve lib s v).limiter

/-- The visit is let through by a rule of a location. -/
def letsThrough (p : WAFPlugin ℚ R A N Store) (target location : Str) (rule : CompiledRule ℚ)
    (s : Store) (v : Visit) : Bool :=
  decide (v.target = target ∧ v.location = location ∧ p.throttling lib v = some rule) &&
    !(p.serve lib s v).blocked

/-- The number of visits in a window of time that are let through by a rule of a location. -/
def passed (p : WAFPlugin ℚ R A N Store) (target location : Str) (rule : CompiledRule ℚ)
    (start stop : ℚ) (visits : List Visit) : Nat :=
  spent (p.after lib) (p.letsThrough lib target location rule) Visit.now start stop .new visits

end WAFPlugin

variable {lib : Library ℚ R A N} {p : WAFPlugin ℚ R A N Store} {s : Store} {v : Visit}
  {rule other : CompiledRule ℚ}

theorem clientIP_evaluate (lib : Library ℚ R A N) (rs : RuleSet ℚ R N) (order : KeyOrder)
    (r : Request) (gs : Option (Geodb A)) :
    clientIP lib (rs.evaluate lib order r gs).2 = clientIP lib r := by
  have hsame : { (rs.evaluate lib order r gs).2 with body := none } = { r with body := none } :=
    (agrees_foldl (RequestCtx.Agrees.refl lib _) _ _).request_eq
  have haddress := congrArg (clientIP lib) hsame
  exact haddress

theorem letsThrough_iff {target location : Str} :
    p.letsThrough lib target location rule s v = true ↔ v.target = target ∧
      v.location = location ∧ p.throttling lib v = some rule ∧
        (p.serve lib s v).blocked = false := by
  simp [WAFPlugin.letsThrough, and_assoc]

/-- A visit that no rule throttles leaves the buckets alone. -/
theorem after_of_none (hnone : p.throttling lib v = none) : p.after lib s v = s := by
  unfold WAFPlugin.throttling WAFPlugin.consulted at hnone
  unfold WAFPlugin.after WAFPlugin.serve WAFPlugin.beforeProxy
  cases henabled : p.enabled with
  | false => rfl
  | true =>
    rw [henabled, if_pos rfl] at hnone
    cases hrs : p.rs.lookup (policyKey v.target v.location) with
    | none => rfl
    | some rs =>
      rw [hrs, Option.bind_some] at hnone
      simp only [Bool.not_true, Bool.false_eq_true, if_false]
      revert hnone
      rcases rs.evaluate lib v.order v.r p.gs with ⟨⟨_ | _, _ | found⟩, r'⟩
      · exact fun _ => rfl
      · exact fun _ => rfl
      · exact fun _ => rfl
      · intro hnone
        have haction : found.action ≠ .rateLimit := by simpa using hnone
        simp only [if_neg haction]

/-- A visit that a rule throttles is a call of `Allow`. -/
theorem serve_of_some (hrule : p.throttling lib v = some rule) :
    p.after lib s v = s.step (v.call lib rule) ∧
      (p.serve lib s v).blocked = !s.allows (v.call lib rule) := by
  unfold WAFPlugin.throttling WAFPlugin.consulted at hrule
  unfold WAFPlugin.after WAFPlugin.serve WAFPlugin.beforeProxy Store.step Store.allows Visit.call
  cases henabled : p.enabled with
  | false => simp [henabled] at hrule
  | true =>
    rw [henabled, if_pos rfl] at hrule
    cases hrs : p.rs.lookup (policyKey v.target v.location) with
    | none => simp [hrs] at hrule
    | some rs =>
      rw [hrs, Option.bind_some] at hrule
      have haddress := clientIP_evaluate lib rs v.order v.r p.gs
      simp only [Bool.not_true, Bool.false_eq_true, if_false]
      revert hrule haddress
      rcases rs.evaluate lib v.order v.r p.gs with ⟨⟨_ | _, _ | found⟩, r'⟩
      · exact nofun
      · exact nofun
      · exact nofun
      · intro hrule haddress
        obtain ⟨haction, rfl⟩ : found.action = .rateLimit ∧ found = rule := by
          simpa [Option.ite_none_right_eq_some] using hrule
        simp only [if_pos haction, haddress]
        cases s.allow v.now (found.id ++ str "|" ++ clientIP lib v.r) found.rps found.burst with
        | mk allowed limiter => cases allowed <;> exact ⟨rfl, rfl⟩

/-- Two rules throttle alike. -/
def SameLimits (rule other : CompiledRule ℚ) : Prop :=
  effectiveRps rule.rps = effectiveRps other.rps ∧
    effectiveBurst rule.burst = effectiveBurst other.burst

/-- The visit is not throttled by a rule with the id of another but other limits. -/
def WAFPlugin.Undisturbed (lib : Library ℚ R A N) (p : WAFPlugin ℚ R A N Store)
    (rule : CompiledRule ℚ) (v : Visit) : Prop :=
  ∀ other, p.throttling lib v = some other → other.id = rule.id → SameLimits other rule

/-- The bucket of a rule for a client. -/
def bucketKey (rule : CompiledRule ℚ) (ip : Str) : Str := rule.id ++ str "|" ++ ip

variable {ip : Str} {now begin : ℚ} {visits : List Visit} {w : Visit}

theorem WAFPlugin.Undisturbed.fits (hv : p.Undisturbed lib rule v) (hip : clientIP lib v.r = ip)
    (hother : p.throttling lib v = some other) :
    Store.Fits (bucketKey rule ip) (effectiveRps rule.rps) (effectiveBurst rule.burst)
      (v.call lib other) := by
  intro hkey
  apply hv other hother
  subst hip
  exact List.append_cancel_right (List.append_cancel_right hkey)

/-- A visit that the rule lets through takes a token of its bucket. -/
theorem letsThrough_le_lets (s : Store) (rule : CompiledRule ℚ) (target location : Str)
    (hip : clientIP lib v.r = ip) (hother : p.throttling lib v = some other) :
    (if p.letsThrough lib target location rule s v then (1 : ℚ) else 0) ≤
      if Store.lets (bucketKey rule ip) s (v.call lib other) then 1 else 0 := by
  by_cases hlets : p.letsThrough lib target location rule s v = true
  · obtain ⟨-, hblocked⟩ := serve_of_some (s := s) hother
    obtain ⟨-, -, hrule, hopen⟩ := letsThrough_iff.mp hlets
    obtain rfl : other = rule := Option.some.inj (hother.symm.trans hrule)
    have hallows : s.allows (v.call lib other) = true := by simpa [hblocked] using hopen
    have hkey : (v.call lib other).key = bucketKey other ip := by
      rw [← hip]
      rfl
    have hcounted : Store.lets (bucketKey other ip) s (v.call lib other) = true := by
      simp [Store.lets, hkey, hallows]
    rw [if_pos hlets, if_pos hcounted]
  · rw [if_neg hlets]
    split
    · exact zero_le_one
    · exact le_rfl

/-- The visit takes a token of the rule's bucket if the rule lets it through, and makes none up. -/
theorem pays_visit (target location : Str)
    (hkeeps : s.Keeps (bucketKey rule ip) (effectiveRps rule.rps) (effectiveBurst rule.burst) now)
    (hsince : s.Since (bucketKey rule ip) begin) (hv : p.Undisturbed lib rule v)
    (hip : clientIP lib v.r = ip) (hnow : now ≤ v.now) (hbrief : v.now - begin ≤ Store.ttl) :
    Pays (p.after lib) (p.letsThrough lib target location rule) Visit.now
      (fun s now => s.avail (bucketKey rule ip) (effectiveBurst rule.burst) now)
      (effectiveRps rule.rps) (effectiveBurst rule.burst) s v := by
  have hrps := effectiveRps_pos rule.rps
  have hburst := effectiveBurst_pos rule.burst
  cases hthrottling : p.throttling lib v with
  | none =>
    have hlets : ¬ p.letsThrough lib target location rule s v = true := by
      simp [letsThrough_iff, hthrottling]
    have hlater := hkeeps.mono hnow
    refine ⟨hlater.avail_le _, ?_, fun later hlater' => ?_⟩
    · rw [after_of_none hthrottling]
      exact hlater.avail_nonneg hrps hburst
    · rw [after_of_none hthrottling, if_neg hlets, add_zero]
      exact hkeeps.avail_le_add hrps hlater'
  | some other =>
    obtain ⟨hafter, -⟩ := serve_of_some (s := s) hthrottling
    have hcall := hkeeps.pays (c := v.call lib other) hrps hburst (hv.fits hip hthrottling)
      (hsince.spares hbrief) hnow
    refine ⟨hcall.bound, ?_, fun later hlater => ?_⟩
    · rw [hafter]
      exact hcall.nonneg
    · rw [hafter]
      have hless := letsThrough_le_lets s rule target location hip hthrottling
      exact (add_le_add_right hless _).trans (hcall.pays later hlater)

theorem keeps_visit
    (hkeeps : s.Keeps (bucketKey rule ip) (effectiveRps rule.rps) (effectiveBurst rule.burst) now)
    (hsince : s.Since (bucketKey rule ip) begin) (hv : p.Undisturbed lib rule v)
    (hip : clientIP lib v.r = ip) (hnow : now ≤ v.now) (hbegin : begin ≤ v.now)
    (hbrief : v.now - begin ≤ Store.ttl) :
    (p.after lib s v).Keeps (bucketKey rule ip) (effectiveRps rule.rps) (effectiveBurst rule.burst)
      v.now ∧ (p.after lib s v).Since (bucketKey rule ip) begin := by
  cases hthrottling : p.throttling lib v with
  | none =>
    rw [after_of_none hthrottling]
    exact ⟨hkeeps.mono hnow, hsince⟩
  | some other =>
    obtain ⟨hafter, -⟩ := serve_of_some (s := s) hthrottling
    rw [hafter]
    exact ⟨hkeeps.step (effectiveRps_pos _) (effectiveBurst_pos _) (hv.fits hip hthrottling) hnow,
      hsince.step hbegin hbrief⟩

/-- Requests from one client in the order of their times, all within the time after which idle
buckets are dropped. -/
structure Session (lib : Library ℚ R A N) (ip : Str) (visits : List Visit) : Prop where
  timed : visits.Pairwise fun v w => v.now ≤ w.now
  client : ∀ v ∈ visits, clientIP lib v.r = ip
  brief : ∀ v ∈ visits, ∀ w ∈ visits, w.now - v.now ≤ Store.ttl

theorem throughout_visits (target location : Str)
    (hkeeps : s.Keeps (bucketKey rule ip) (effectiveRps rule.rps) (effectiveBurst rule.burst) now)
    (hsince : s.Since (bucketKey rule ip) begin) (htimed : visits.Pairwise fun v w => v.now ≤ w.now)
    (hclient : ∀ v ∈ visits, clientIP lib v.r = ip)
    (hvisits : ∀ v ∈ visits, p.Undisturbed lib rule v) (hnow : ∀ v ∈ visits, now ≤ v.now)
    (hbegin : ∀ v ∈ visits, begin ≤ v.now) (hbrief : ∀ v ∈ visits, v.now - begin ≤ Store.ttl) :
    Throughout (p.after lib) (Pays (p.after lib) (p.letsThrough lib target location rule) Visit.now
      (fun s now => s.avail (bucketKey rule ip) (effectiveBurst rule.burst) now)
      (effectiveRps rule.rps) (effectiveBurst rule.burst)) s visits := by
  induction visits generalizing s now with
  | nil => trivial
  | cons v visits ih =>
    obtain ⟨hlater, hrest⟩ := List.pairwise_cons.mp htimed
    obtain ⟨hip, hclient⟩ := List.forall_mem_cons.mp hclient
    obtain ⟨hv, hvisits⟩ := List.forall_mem_cons.mp hvisits
    obtain ⟨hbegin', hbegin⟩ := List.forall_mem_cons.mp hbegin
    obtain ⟨hbrief', hbrief⟩ := List.forall_mem_cons.mp hbrief
    have hnow' := hnow v List.mem_cons_self
    obtain ⟨hkeeps', hsince'⟩ := keeps_visit hkeeps hsince hv hip hnow' hbegin' hbrief'
    exact ⟨pays_visit target location hkeeps hsince hv hip hnow' hbrief',
      ih hkeeps' hsince' hrest hclient hvisits hlater hbegin hbrief⟩

/-- In every window of time, a rule of a location lets no more requests through than its burst and
what flows in. -/
def WAFPlugin.WithinLimits (lib : Library ℚ R A N) (p : WAFPlugin ℚ R A N Store)
    (target location : Str) (rule : CompiledRule ℚ) (visits : List Visit) : Prop :=
  ∀ start stop, start ≤ stop →
    (p.passed lib target location rule start stop visits : ℚ) ≤
      effectiveBurst rule.burst + effectiveRps rule.rps * (stop - start)

theorem Session.withinLimits (hsession : Session lib ip visits)
    (hvisits : ∀ v ∈ visits, p.Undisturbed lib rule v) (target location : Str) :
    p.WithinLimits lib target location rule visits := by
  intro start stop hwindow
  obtain ⟨begin, hbegin, hbrief⟩ : ∃ begin, (∀ v ∈ visits, begin ≤ v.now) ∧
      ∀ v ∈ visits, v.now - begin ≤ Store.ttl := by
    cases visits with
    | nil => exact ⟨0, nofun, nofun⟩
    | cons v visits =>
      refine ⟨v.now, ?_, fun w hw => hsession.brief v List.mem_cons_self w hw⟩
      exact List.forall_mem_cons.mpr ⟨le_rfl, (List.pairwise_cons.mp hsession.timed).1⟩
  exact spent_le (effectiveRps_pos _).le (Int.cast_nonneg (effectiveBurst_pos _).le) hwindow
    hsession.timed (throughout_visits target location (Store.keeps_new _ _ _ begin)
      (Store.since_new _ _) hsession.timed hsession.client hvisits hbegin hbegin hbrief)

/-- A request of the client to a location is throttled by the rule. -/
def WAFPlugin.Reaches (lib : Library ℚ R A N) (p : WAFPlugin ℚ R A N Store)
    (ip target location : Str) (rule : CompiledRule ℚ) : Prop :=
  ∃ order r, clientIP lib r = ip ∧
    p.throttling lib ⟨0, order, r, target, location⟩ = some rule

/-- Two visits in turn, a number of times. -/
def turns (v w : Visit) (n : Nat) : List Visit := (List.replicate n [w, v]).flatten

/-- A rule lets a visit through right after one to a rule of the same id with other limits. -/
theorem allows_after (hrule : p.throttling lib v = some rule)
    (hother : p.throttling lib w = some other) (hip : clientIP lib v.r = clientIP lib w.r)
    (hid : other.id = rule.id) (hdiffer : ¬ SameLimits other rule) :
    (p.serve lib (p.after lib s w) v).blocked = false := by
  obtain ⟨hafter, -⟩ := serve_of_some (s := s) hother
  obtain ⟨-, hblocked⟩ := serve_of_some (s := p.after lib s w) hrule
  have hkey : (v.call lib rule).key = (w.call lib other).key := by
    rw [Visit.call, Visit.call, hid, hip]
  rw [hblocked, hafter, Store.allows_of_other_params hkey.symm hdiffer]
  rfl

theorem le_passed_turns (hrule : p.throttling lib v = some rule)
    (hother : p.throttling lib w = some other) (hip : clientIP lib v.r = clientIP lib w.r)
    (hid : other.id = rule.id) (hdiffer : ¬ SameLimits other rule) (n : Nat) :
    n ≤ spent (p.after lib) (p.letsThrough lib v.target v.location rule) Visit.now v.now v.now s
      (turns v w n) := by
  induction n generalizing s with
  | zero => exact Nat.zero_le _
  | succ n ih =>
    have hopen := allows_after (s := s) hrule hother hip hid hdiffer
    have hlets : p.letsThrough lib v.target v.location rule (p.after lib s w) v = true :=
      letsThrough_iff.mpr ⟨rfl, rfl, hrule, hopen⟩
    have hrest := ih (s := p.after lib (p.after lib s w) v)
    have hcounted : (if p.letsThrough lib v.target v.location rule (p.after lib s w) v ∧
        v.now ≤ v.now ∧ v.now ≤ v.now then 1 else 0) = 1 := if_pos ⟨hlets, le_rfl, le_rfl⟩
    rw [turns] at hrest
    rw [turns, List.replicate_succ, List.flatten_cons, List.cons_append, List.cons_append,
      List.nil_append, spent, spent, hcounted]
    omega

theorem session_turns {v : Visit} {n : Nat} (hv : clientIP lib v.r = ip)
    (hw : clientIP lib w.r = ip) (hnow : w.now = v.now) : Session lib ip (turns v w n) := by
  have hmem : ∀ u ∈ turns v w n, u.now = v.now ∧ clientIP lib u.r = ip := by
    intro u hu
    obtain ⟨pair, hpair, hu⟩ := List.mem_flatten.mp hu
    rw [List.eq_of_mem_replicate hpair] at hu
    rcases List.mem_cons.mp hu with rfl | hu
    · exact ⟨hnow, hw⟩
    · rw [List.mem_singleton.mp hu]
      exact ⟨rfl, hv⟩
  refine ⟨List.pairwise_of_forall_mem_list fun u hu u' hu' => ?_, fun u hu => (hmem u hu).2,
    fun u hu u' hu' => ?_⟩
  · rw [(hmem u hu).1, (hmem u' hu').1]
  · rw [(hmem u hu).1, (hmem u' hu').1, sub_self]
    exact Store.ttl_nonneg

theorem not_withinLimits_turns (hrule : p.throttling lib v = some rule)
    (hother : p.throttling lib w = some other) (hip : clientIP lib v.r = clientIP lib w.r)
    (hid : other.id = rule.id) (hdiffer : ¬ SameLimits other rule) :
    ¬ p.WithinLimits lib v.target v.location rule
      (turns v w ((effectiveBurst rule.burst).toNat + 1)) := by
  set n := (effectiveBurst rule.burst).toNat + 1 with hn
  intro hwithin
  have hbound := hwithin v.now v.now le_rfl
  have hmany : n ≤ p.passed lib v.target v.location rule v.now v.now (turns v w n) :=
    le_passed_turns hrule hother hip hid hdiffer n
  have hless : effectiveBurst rule.burst <
      (p.passed lib v.target v.location rule v.now v.now (turns v w n) : Int) := by omega
  rw [sub_self, mul_zero, add_zero] at hbound
  exact absurd hbound (not_le.mpr (by exact_mod_cast hless))

/-- A rule that no request of a client gets to lets nothing through. -/
theorem withinLimits_of_not_reaches {target location : Str}
    (hclient : ∀ v ∈ visits, clientIP lib v.r = ip)
    (hreach : ¬ p.Reaches lib ip target location rule) :
    p.WithinLimits lib target location rule visits := by
  intro start stop hwindow
  have hzero : p.passed lib target location rule start stop visits = 0 := by
    refine spent_eq_zero_of_never fun s v hv => ?_
    by_contra hlets
    obtain ⟨rfl, rfl, hrule, -⟩ := letsThrough_iff.mp (Bool.not_eq_false _ ▸ hlets)
    exact hreach ⟨v.order, v.r, hclient v hv, hrule⟩
  rw [hzero, Nat.cast_zero]
  exact add_nonneg (Int.cast_nonneg (effectiveBurst_pos _).le)
    (mul_nonneg (effectiveRps_pos _).le (sub_nonneg.mpr hwindow))

/-- A rule that throttles keeps its limits in every session in which no request is throttled by a
rule with its id and other limits. It does so in every session exactly if the client can reach no
such rule. -/
theorem throttle_withinLimits_iff (lib : Library ℚ R A N) (p : WAFPlugin ℚ R A N Store)
    (ip target location : Str) (rule : CompiledRule ℚ) :
    (∀ visits, Session lib ip visits → (∀ v ∈ visits, p.Undisturbed lib rule v) →
      p.WithinLimits lib target location rule visits) ∧
    ((∀ visits, Session lib ip visits → p.WithinLimits lib target location rule visits) ↔
      (p.Reaches lib ip target location rule → ∀ target' location' other,
        p.Reaches lib ip target' location' other → other.id = rule.id →
          SameLimits other rule)) := by
  refine ⟨fun visits hsession hvisits => hsession.withinLimits hvisits target location,
    fun hall => ?_, fun hsafe visits hsession => ?_⟩
  · rintro ⟨order, r, hip, hrule⟩ target' location' other ⟨order', r', hip', hother⟩ hid
    by_contra hdiffer
    refine not_withinLimits_turns hrule hother (hip.trans hip'.symm) hid hdiffer (hall _ ?_)
    exact session_turns hip hip' rfl
  · by_cases hreach : p.Reaches lib ip target location rule
    · refine hsession.withinLimits (fun v hv other hother hid => ?_) target location
      exact hsafe hreach v.target v.location other ⟨v.order, v.r, hsession.client v hv, hother⟩ hid
    · exact withinLimits_of_not_reaches hsession.client hreach

/-- The library of the examples, with rational numbers. -/
def exactLibrary : Library ℚ Str Str Str :=
  { plainLibrary with
    ofInt := fun n => n
    toInt := Rat.floor
    isZero := fun q => q == 0
    lt := fun q q' => q < q'
    parseFloat := fun _ => none }

/-- A policy that throttles all requests of a location. -/
def apiPolicy (rps : ℚ) (burst : Int) : WAFLocationConfig ℚ :=
  ⟨true, [{ id := str "api", name := [], enabled := none
            action := ⟨str "rate_limit", 0, [], rps, burst⟩
            conditions := [[{ param := str "path", operator := str "startswith",
                              value := str "/" }]] }]⟩

/-- Two locations throttle their requests under the same id. -/
def apiPlugin : WAFPlugin ℚ Str Str Str Store :=
  configured exactLibrary .new none true 0
    [⟨str "example.com", str "/a", apiPolicy 1 1⟩, ⟨str "example.com", str "/b", apiPolicy 1 2⟩]

def apiRule : CompiledRule ℚ where
  id := str "api"
  name := []
  action := .rateLimit
  rps := 1
  burst := 1
  groups := [[0]]

/-- A request for the path of a location. -/
def apiVisit (location : String) : Visit :=
  ⟨0, .asListed,
    { adminRequest "GET" with requestURI := str location, path := str location },
    str "example.com", str location⟩

/-- Two requests at the same time get through the first rule, which has a burst of one, when each
comes after a request to the second one. -/
theorem sharedId_overruns :
    apiPlugin.throttling exactLibrary (apiVisit "/a") = some apiRule ∧
    Session exactLibrary (str "192.0.2.1") (turns (apiVisit "/a") (apiVisit "/b") 2) ∧
    apiPlugin.passed exactLibrary (str "example.com") (str "/a") apiRule 0 0
      (turns (apiVisit "/a") (apiVisit "/b") 2) = 2 ∧
    ¬ apiPlugin.WithinLimits exactLibrary (str "example.com") (str "/a") apiRule
      (turns (apiVisit "/a") (apiVisit "/b") 2) := by
  have hpassed : apiPlugin.passed exactLibrary (str "example.com") (str "/a") apiRule 0 0
      (turns (apiVisit "/a") (apiVisit "/b") 2) = 2 := by decide +kernel
  have hfirst : clientIP exactLibrary (apiVisit "/a").r = str "192.0.2.1" := by decide +kernel
  have hsecond : clientIP exactLibrary (apiVisit "/b").r = str "192.0.2.1" := by decide +kernel
  refine ⟨by decide +kernel, session_turns hfirst hsecond rfl, hpassed, fun hwithin => ?_⟩
  have hbound := hwithin 0 0 le_rfl
  rw [hpassed] at hbound
  exact absurd hbound (by decide +kernel)

end Peretum.Waf
