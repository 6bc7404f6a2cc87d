import Peretum.Handler.Serve

/-!
# Which responses are stored

`ServeHTTP` stores a response for its status and its body, on a cached location whose
exclusions do not match. Neither the headers of the response nor those of the request
are looked at, so responses that are meant for one client stay out of the cache only
when they fail the other tests.
-/

namespace Peretum.Handler

open Go Cache

/-- A response meant for one client: it sets a cookie, or the client was authorized. -/
def Personal (job : Job) (c : Captured) : Prop :=
  str "Set-Cookie" ∈ c.header.header ∨ str "Authorization" ∈ job.sent.header

instance (job : Job) (c : Captured) : Decidable (Personal job c) :=
  inferInstanceAs (Decidable (_ ∨ _))

/-- A response that is not stored for its status, its body or its path, or because the
location is not cached. -/
def Uncacheable (th : TargetHandler) (r : Request) (c : Captured) : Prop :=
  th.cache = false ∨ th.isCacheExcluded r.path = true ∨ c.statusCode < 200 ∨
    300 ≤ c.statusCode ∨ c.body = []

instance (th : TargetHandler) (r : Request) (c : Captured) : Decidable (Uncacheable th r c) :=
  inferInstanceAs (Decidable (_ ∨ _))

/-- These are the responses that fail the test of `ServeHTTP`. -/
theorem mayStore_eq_false_iff (th : TargetHandler) (r : Request) (c : Captured) :
    th.mayStore r c = false ↔ Uncacheable th r c := by
  simp only [TargetHandler.mayStore, Uncacheable, Bool.and_eq_false_iff, Bool.not_eq_false',
    decide_eq_false_iff_not, List.isEmpty_iff, not_le, not_lt, or_assoc]

/-- The runs in which the upstream sends personal responses only where they are not
stored. -/
def PersonalUncacheable (handlers : Nat → TargetHandler) (s : State) : Nat × Step → Prop
  | (i, .fetch (some c)) =>
      match s.requests i with
      | .fetching job _ => Personal job c →
          Uncacheable (handlers job.handler) ((handlers job.handler).rewritten job.request) c
      | _ => True
  | _ => True

/-- Whether a step is one of such a run can be decided. -/
instance (handlers : Nat → TargetHandler) (s : State) (a : Nat × Step) :
    Decidable (PersonalUncacheable handlers s a) := by
  unfold PersonalUncacheable
  repeat' split
  all_goals infer_instance

/-- The invariant: a personal response is not on its way into the cache, and none was
given to it. -/
structure Discreet (handlers : Nat → TargetHandler) (s : State) : Prop where
  proxied : ∀ i job flight c, s.requests i = .proxied job flight (some c) → Personal job c →
    Uncacheable (handlers job.handler) job.request c
  stored : ∀ job c w result, .stored job c w result ∈ s.log → ¬ Personal job c

variable {sha : Str → Key} {handlers : Nat → TargetHandler}

theorem Discreet.init (maxSize maxAge : Int) : Discreet handlers (State.init maxSize maxAge) := by
  refine ⟨?_, ?_⟩
  · intro i job flight c hi
    cases hi
  · intro job c w result hmem
    cases hmem

theorem Discreet.step {s t : State} {a : Nat × Step} (hs : Discreet handlers s)
    (hguard : PersonalUncacheable handlers s a)
    (hstep : Handler.step sha handlers s a = some t) : Discreet handlers t := by
  obtain ⟨i, a⟩ := a
  obtain ⟨p', htaken⟩ := requestStep_taken hstep
  have heffect := htaken.effect
  constructor
  · intro j job flight c hj hpersonal
    rw [heffect.requests] at hj
    by_cases hji : j = i
    · subst hji
      rw [Function.update_self] at hj
      obtain ⟨old, hp, rfl, rfl⟩ := heffect.proxied job flight c hj
      simp only [PersonalUncacheable, hp] at hguard
      exact hguard hpersonal
    · rw [Function.update_of_ne hji] at hj
      exact hs.proxied j job flight c hj hpersonal
  · intro job c w result hmem
    cases heffect.cache with
    | same hcache hlog | missed hcache hlog =>
      rw [hlog] at hmem
      exact hs.stored job c w result hmem
    | answered hjob hok hcache hlog =>
      rw [hlog] at hmem
      rcases List.mem_cons.mp hmem with heq | hold
      · cases heq
      · exact hs.stored job c w result hold
    | stored hp hmay hkey hcache hlog =>
      rw [hlog] at hmem
      rcases List.mem_cons.mp hmem with heq | hold
      · -- The response passed the test, so it was not personal when it was proxied.
        obtain ⟨rfl, rfl, -, -⟩ := Access.stored.inj heq
        intro hpersonal
        have hfails := (mayStore_eq_false_iff _ _ _).mpr (hs.proxied i _ _ _ hp hpersonal)
        exact absurd (hmay.symm.trans hfails) (by simp)
      · exact hs.stored job c w result hold

/-- In every run in which personal responses have a status outside of 200 to 299 or no
body, or belong to a location that is not cached or excludes their path, no response
with a cookie and no response to an authorized request is given to the cache. -/
theorem not_personal_of_stored {maxSize maxAge : Int} {s : State}
    (hreach : Runs.Reaches (step sha handlers) (PersonalUncacheable handlers)
      (State.init maxSize maxAge) s) {job : Job} {c : Captured} {w : Write}
    {result : Except DiskCache.SetError Unit} (hmem : .stored job c w result ∈ s.log) :
    str "Set-Cookie" ∉ c.header.header ∧ str "Authorization" ∉ job.sent.header := by
  have hs : Discreet handlers s :=
    hreach.invariant (fun _ _ _ hs hguard hstep => hs.step hguard hstep) (.init _ _)
  exact not_or.mp (hs.stored job c w result hmem)

def authorizedGetPage : Request :=
  { getPage with header := AList.insert (str "Authorization") [str "Bearer token"] ∅ }

def cookiePage : Captured where
  statusCode := 200
  header := ⟨AList.insert (str "Set-Cookie") [str "a=1"] ∅,
    Header.canonical_of_entries (by decide), Header.valued_of_entries (by decide)⟩
  body := str "page"

/-- An authorized request gets a response with a cookie, and another client asks for the
page. -/
def leakedState : State :=
  (Runs.exec (step (fun _ => zeroKey) (fun _ => plainHandler)) (State.init 0 0)
    (comes 0 authorizedGetPage ++ fetches 0 cookiePage ++ looks 1 getPage)).get (by decide)

/-- The response is stored, and the other client, who is not authorized, gets it from the
cache with its cookie. -/
theorem leakedState_replays_cookie :
    Runs.Reaches (step (fun _ => zeroKey) (fun _ => plainHandler)) Runs.Unrestricted
      (State.init 0 0) leakedState ∧
    ∃ job writer job' w header,
      leakedState.log = [.answered job writer, .stored job' cookiePage w (.ok ())] ∧
      str "Set-Cookie" ∈ cookiePage.header.header ∧ str "Authorization" ∈ job'.sent.header ∧
      str "Authorization" ∉ job.sent.header ∧ writer.sent = some (200, header) ∧
      header.lookup (str "Set-Cookie") = some [str "a=1"] := by
  refine ⟨Runs.reaches_exec _,
    _, _, _, _, _, rfl, by decide, by decide, by decide, rfl, by decide⟩

def forbiddenPage : Captured := ⟨403, plainPage.header, str "no"⟩

/-- An authorized request is refused, and another client gets the page. -/
def refusals : List (Nat × Step) :=
  comes 0 authorizedGetPage ++
    [(0, .fetch (some forbiddenPage)), (0, .leave), (0, .load), (0, .close), (0, .delete)] ++
    comes 1 getPage ++ fetches 1 plainPage

def refusedState : State :=
  (Runs.exec (step (fun _ => zeroKey) (fun _ => plainHandler)) (State.init 0 0) refusals).get
    (by decide)

/-- The refusal is not stored, and the page that is stored is nobody's. -/
theorem refusedState_not_personal : ∃ job w, .stored job plainPage w (.ok ()) ∈ refusedState.log ∧
    str "Set-Cookie" ∉ plainPage.header.header ∧ str "Authorization" ∉ job.sent.header := by
  have hreach : Runs.Reaches (step (fun _ => zeroKey) (fun _ => plainHandler))
      (PersonalUncacheable fun _ => plainHandler) (State.init 0 0) refusedState :=
    Runs.reaches_get (by decide)
  exact ⟨_, _, .head _, not_personal_of_stored hreach (.head _)⟩

end Peretum.Handler
