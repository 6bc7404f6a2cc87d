import Mathlib.Data.Set.Function
import Peretum.Cache.Provenance
import Peretum.Handler.Serve

/-!
# Which requests share a cached response

The cache key is a hash of the target's name and the request URI. An answer from the
cache is shown to replay the last response stored under the key of the request, so
two requests share a response when they agree on these two texts, whatever their
methods and bodies are.
-/

namespace Peretum.Handler

open Go Cache

/-- Texts with a separator between their parts agree part by part when the separator
does not occur in the first parts. -/
theorem append_separator_inj {c : UInt8} {a a' b b' : Str} (ha : c ∉ a) (ha' : c ∉ a')
    (h : a ++ c :: b = a' ++ c :: b') : a = a' ∧ b = b' := by
  induction a generalizing a' with
  | nil =>
    cases a' with
    | nil => simpa using h
    | cons d a' =>
      obtain ⟨rfl, -⟩ := List.cons.inj h
      exact absurd List.mem_cons_self ha'
  | cons d a ih =>
    cases a' with
    | nil =>
      obtain ⟨rfl, -⟩ := List.cons.inj h
      exact absurd List.mem_cons_self ha
    | cons d' a' =>
      obtain ⟨rfl, htail⟩ := List.cons.inj h
      obtain ⟨rfl, rfl⟩ := ih (fun hc => ha (List.mem_cons_of_mem _ hc))
        (fun hc => ha' (List.mem_cons_of_mem _ hc)) htail
      exact ⟨rfl, rfl⟩

/-- The methods whose body is part of what is asked for. -/
def bodyMethods : List Str := [str "POST", str "PUT", str "PATCH"]

section

variable (sha : Str → Key) (handlers : Nat → TargetHandler)

/-- The two requests ask for the same thing. -/
structure KeyLaw (job job' : Job) : Prop where
  target : (handlers job.handler).targetName = (handlers job'.handler).targetName
  method : job.sent.method = job'.sent.method
  uri : job.sent.uri = job'.sent.uri
  body : job.sent.method ∈ bodyMethods → job.sent.body = job'.sent.body

/-- The text `CacheKey` hashes for a request. -/
def keyText (p : Nat × Request) : Str := (handlers p.1).targetName ++ str "|" ++ p.2.uri

/-- The runs whose requests are from a given set, and whose hooks leave the request URI
alone. -/
def From (requests : Set (Nat × Request)) (_ : State) : Nat × Step → Prop
  | (_, .arrive h r hooked) => (h, r) ∈ requests ∧ ∀ r', hooked = some r' → r'.uri = r.uri
  | _ => True

/-- The request is one of the set and has its key. -/
structure Job.Keyed (requests : Set (Nat × Request)) (job : Job) : Prop where
  mem : (job.handler, job.sent) ∈ requests
  key : job.key = sha (keyText handlers (job.handler, job.sent))

end

/-- The request whose response is stored under a key, with the call that stored it. -/
def source (key : Key) : List Access → Option (Job × Write)
  | [] => none
  | .stored job _ w result :: older =>
      if w.stores result && w.key = key then some (job, w) else source key older
  | .answered _ _ :: older => source key older

/-- Every answer replays the response of a request that the law allows. -/
def Answers (law : Job → Job → Prop) : List Access → Prop
  | [] => True
  | .stored _ _ _ _ :: older => Answers law older
  | .answered job writer :: older =>
      (∃ job' w, source job.key older = some (job', w) ∧ w.Replays writer ∧ law job job') ∧
        Answers law older

theorem Answers.imp {law law' : Job → Job → Prop} (himp : ∀ job job', law job job' → law' job job')
    {log : List Access} (hlog : Answers law log) : Answers law' log := by
  induction log with
  | nil => trivial
  | cons access older ih =>
    cases access with
    | stored job c w result => exact ih hlog
    | answered job writer =>
      obtain ⟨⟨job', w, hsource, hreplays, hlaw⟩, hrest⟩ := hlog
      exact ⟨⟨job', w, hsource, hreplays, himp job job' hlaw⟩, ih hrest⟩

theorem source_stored (log : List Access) (job : Job) (c : Captured) (w : Write)
    (result : Except DiskCache.SetError Unit) :
    (fun key => (source key (.stored job c w result :: log)).map Prod.snd) =
      w.lastAfter result fun key => (source key log).map Prod.snd := by
  funext key
  unfold Write.lastAfter
  cases hstores : w.stores result with
  | false => simp [source, hstores]
  | true =>
    by_cases hkey : w.key = key
    · subst hkey
      simp [source, hstores]
    · simp [source, hstores, hkey, Function.update_of_ne (Ne.symm hkey)]

variable {sha : Str → Key} {handlers : Nat → TargetHandler}

/-- The invariant: requests have their keys, the files come from the last stored calls,
and answers replay responses stored under the key of the request. -/
structure Traced (sha : Str → Key) (handlers : Nat → TargetHandler)
    (requests : Set (Nat × Request)) (s : State) : Prop where
  jobs : ∀ i job, (s.requests i).job = some job → job.Keyed sha handlers requests
  /-- So have the requests whose responses are stored. -/
  sources : ∀ key job w, source key s.log = some (job, w) →
    job.Keyed sha handlers requests ∧ job.key = key
  /-- The files come from the last stored calls. -/
  sourced : s.cache.Sourced fun key => (source key s.log).map Prod.snd
  answers : Answers (fun job job' => job.Keyed sha handlers requests ∧
    job'.Keyed sha handlers requests ∧ job'.key = job.key) s.log

theorem Traced.init (requests : Set (Nat × Request)) (maxSize maxAge : Int) :
    Traced sha handlers requests (State.init maxSize maxAge) := by
  refine ⟨?_, ?_, DiskCache.sourced_new maxSize maxAge _, trivial⟩
  · intro i job hjob
    cases hjob
  · intro key job w hsource
    cases hsource

variable {requests : Set (Nat × Request)} {s t : State} {job : Job}

theorem Traced.of_log_eq (hs : Traced sha handlers requests s)
    (hjobs : ∀ i job, (t.requests i).job = some job → job.Keyed sha handlers requests)
    (hsourced : t.cache.Sourced fun key => (source key t.log).map Prod.snd) (hlog : t.log = s.log) :
    Traced sha handlers requests t := by
  refine ⟨hjobs, ?_, hsourced, ?_⟩
  · rw [hlog]
    exact hs.sources
  · rw [hlog]
    exact hs.answers

theorem keyed_of_arrived {h : Nat} {r : Request} {hooked : Option Request}
    (hmem : (h, r) ∈ requests) (huri : ∀ r', hooked = some r' → r'.uri = r.uri)
    (hjob : (arrived sha handlers h r hooked).job = some job) :
    job.Keyed sha handlers requests := by
  cases hooked with
  | none => cases hjob
  | some r' =>
    have hkeyed : Job.Keyed sha handlers requests
        ⟨h, cacheKey sha (handlers h).targetName r'.uri, r, r'⟩ := by
      refine ⟨hmem, ?_⟩
      rw [huri r' rfl]
      rfl
    simp only [arrived] at hjob
    split_ifs at hjob
    · cases hjob
    · cases hjob
    · cases hjob
      exact hkeyed
    · cases hjob
      exact hkeyed

theorem Traced.jobs_after {i : Nat} {a : Step} {p' : Phase} (hs : Traced sha handlers requests s)
    (hguard : From requests s (i, a)) (heffect : StepEffect sha handlers s t i (s.requests i) a p')
    (j : Nat) (hjob : (t.requests j).job = some job) : job.Keyed sha handlers requests := by
  rw [heffect.requests] at hjob
  by_cases hj : j = i
  · subst hj
    rw [Function.update_self] at hjob
    rcases heffect.job job hjob with ⟨old, hold, hsame⟩ | ⟨h, r, hooked, rfl, rfl⟩
    · have hkeyed := hs.jobs j old hold
      refine ⟨?_, ?_⟩
      · rw [hsame.handler, hsame.sent]
        exact hkeyed.mem
      · rw [hsame.key, hsame.handler, hsame.sent]
        exact hkeyed.key
    · exact keyed_of_arrived hguard.1 hguard.2 hjob
  · rw [Function.update_of_ne hj] at hjob
    exact hs.jobs j job hjob

/-- Every step keeps account of where the files come from. -/
theorem sourced_step {a : Nat × Step}
    (hs : s.cache.Sourced fun key => (source key s.log).map Prod.snd)
    (hstep : Handler.step sha handlers s a = some t) :
    t.cache.Sourced fun key => (source key t.log).map Prod.snd := by
  obtain ⟨p', htaken⟩ := requestStep_taken hstep
  have heffect := htaken.effect
  cases heffect.cache with
  | same hcache hlog =>
    rw [hcache, hlog]
    exact hs
  | missed hcache hlog | answered hjob hok hcache hlog =>
    rw [hcache, hlog]
    exact hs.loses (DiskCache.streamCachedResponse_loses _ _ _ _ _)
  | @stored job flight c w hp hmay hkey hcache hlog =>
    rw [hcache, hlog, source_stored]
    exact w.sourced_run hs

/-- What is stored under a key after one more call: its response, or what was there. -/
theorem source_stored_cases {key : Key} {log : List Access} {job' : Job} {c : Captured}
    {w w' : Write} {result : Except DiskCache.SetError Unit}
    (hsource : source key (.stored job c w result :: log) = some (job', w')) :
    (job' = job ∧ w.key = key) ∨ source key log = some (job', w') := by
  simp only [source] at hsource
  split at hsource
  · next hstored =>
    simp only [Bool.and_eq_true, decide_eq_true_eq] at hstored
    exact .inl ⟨(Prod.mk.inj (Option.some.inj hsource)).1.symm, hstored.2⟩
  · exact .inr hsource

theorem Traced.step {a : Nat × Step} (hs : Traced sha handlers requests s)
    (hguard : From requests s a) (hstep : Handler.step sha handlers s a = some t) :
    Traced sha handlers requests t := by
  have hsourced := sourced_step hs.sourced hstep
  obtain ⟨i, a⟩ := a
  obtain ⟨p', htaken⟩ := requestStep_taken hstep
  have heffect := htaken.effect
  have hjobs : ∀ j job, (t.requests j).job = some job → job.Keyed sha handlers requests :=
    fun j job hjob => hs.jobs_after hguard heffect j hjob
  cases heffect.cache with
  | same hcache hlog | missed hcache hlog => exact hs.of_log_eq hjobs hsourced hlog
  | @answered job now w ttl hjob hok hcache hlog =>
    refine ⟨hjobs, ?_, hsourced, ?_⟩
    · rw [hlog]
      exact hs.sources
    · rw [hlog]
      refine ⟨?_, hs.answers⟩
      obtain ⟨stored, hlast, hreplays⟩ := hs.sourced.stream hok
      obtain ⟨⟨job', w'⟩, hsource, rfl⟩ := Option.map_eq_some_iff.mp hlast
      obtain ⟨hkeyed, hkey⟩ := hs.sources job.key job' w' hsource
      exact ⟨job', w', hsource, hreplays, hs.jobs i job hjob, hkeyed, hkey⟩
  | @stored job flight c w hp hmay hkey hcache hlog =>
    refine ⟨hjobs, ?_, hsourced, ?_⟩
    · intro key job' w' hsource
      rw [hlog] at hsource
      rcases source_stored_cases hsource with ⟨rfl, hself⟩ | hold
      · exact ⟨hs.jobs i job' (by rw [hp]; rfl), hkey.symm.trans hself⟩
      · exact hs.sources key job' w' hold
    · rw [hlog]
      exact hs.answers

theorem eq_of_keyText_eq {p p' : Nat × Request}
    (hname : (0x7C : UInt8) ∉ (handlers p.1).targetName)
    (hname' : (0x7C : UInt8) ∉ (handlers p'.1).targetName)
    (htext : keyText handlers p = keyText handlers p') :
    (handlers p.1).targetName = (handlers p'.1).targetName ∧ p.2.uri = p'.2.uri := by
  have hbar : str "|" = [0x7C] := by decide
  simp only [keyText, hbar, List.append_assoc, List.singleton_append] at htext
  exact append_separator_inj hname hname' htext

/-- When no two requests for one target and URI differ in their method or, with POST, PUT
or PATCH, in their body, and no name of a target has the delimiter of the key in it,
every answer from the cache replays the response of a request for the same thing, as
long as the hash has no collision among the requests. -/
theorem answers_keyLaw {requests : Set (Nat × Request)} {maxSize maxAge : Int} {s : State}
    (hsha : Set.InjOn sha (keyText handlers '' requests))
    (hname : ∀ p ∈ requests, (0x7C : UInt8) ∉ (handlers p.1).targetName)
    (hsame : ∀ p ∈ requests, ∀ p' ∈ requests,
      (handlers p.1).targetName = (handlers p'.1).targetName → p.2.uri = p'.2.uri →
        p.2.method = p'.2.method ∧ (p.2.method ∈ bodyMethods → p.2.body = p'.2.body))
    (hreach : Runs.Reaches (step sha handlers) (From requests) (State.init maxSize maxAge) s) :
    Answers (KeyLaw handlers) s.log := by
  have hs : Traced sha handlers requests s :=
    hreach.invariant (fun _ _ _ hs hguard hstep => hs.step hguard hstep) (.init _ _ _)
  refine hs.answers.imp ?_
  rintro job job' ⟨hkeyed, hkeyed', hkey⟩
  have htext : keyText handlers (job.handler, job.sent) =
      keyText handlers (job'.handler, job'.sent) := by
    refine hsha ⟨_, hkeyed.mem, rfl⟩ ⟨_, hkeyed'.mem, rfl⟩ ?_
    rw [← hkeyed.key, ← hkeyed'.key, hkey]
  obtain ⟨htarget, huri⟩ := eq_of_keyText_eq (hname _ hkeyed.mem) (hname _ hkeyed'.mem) htext
  obtain ⟨hmethod, hbody⟩ := hsame _ hkeyed.mem _ hkeyed'.mem htarget huri
  exact ⟨htarget, hmethod, huri, hbody⟩

/-- A request with another method and a body for the same page. -/
def postPage : Request := ⟨str "POST", str "/page", str "/page", ∅, str "order"⟩

def postedState : State :=
  (Runs.exec (step (fun _ => zeroKey) (fun _ => plainHandler)) (State.init 0 0)
    (comes 0 getPage ++ fetches 0 plainPage ++ looks 1 postPage)).get (by decide)

/-- The posted request is answered with the response to the request that got the page. -/
theorem postedState_not_keyLaw :
    Set.InjOn (fun _ => zeroKey)
      (keyText (fun _ => plainHandler) '' {(0, getPage), (0, postPage)}) ∧
    Runs.Reaches (step (fun _ => zeroKey) (fun _ => plainHandler))
      (From {(0, getPage), (0, postPage)}) (State.init 0 0) postedState ∧
    (∃ job writer older job' w, postedState.log = .answered job writer :: older ∧
      job.sent = postPage ∧ source job.key older = some (job', w) ∧ job'.sent = getPage) ∧
    ¬ Answers (KeyLaw fun _ => plainHandler) postedState.log := by
  refine ⟨?_, ?_, ⟨_, _, _, _, _, rfl, rfl, rfl, rfl⟩, ?_⟩
  · rintro _ ⟨p, hp, rfl⟩ _ ⟨p', hp', rfl⟩ -
    rcases hp with rfl | rfl <;> rcases hp' with rfl | rfl <;> rfl
  · refine Runs.reaches_get (Runs.admitted_of_forall _ _ ?_)
    simp [comes, fetches, looks, From]
  · rintro ⟨⟨job', w, hsource, -, hlaw⟩, -⟩
    obtain ⟨rfl, rfl⟩ := Prod.mk.inj (Option.some.inj hsource)
    exact absurd hlaw.method (by decide)

def gotTwiceState : State :=
  (Runs.exec (step (fun _ => zeroKey) (fun _ => plainHandler)) (State.init 0 0)
    (comes 0 getPage ++ fetches 0 plainPage ++ looks 1 getPage)).get (by decide)

/-- The second request is answered with the response to the first, as the law has it. -/
theorem gotTwiceState_keyLaw :
    Answers (KeyLaw fun _ => plainHandler) gotTwiceState.log ∧
    ∃ job writer older, gotTwiceState.log = .answered job writer :: older := by
  have hreach : Runs.Reaches (step (fun _ => zeroKey) (fun _ => plainHandler))
      (From {(0, getPage)}) (State.init 0 0) gotTwiceState := by
    refine Runs.reaches_get (Runs.admitted_of_forall _ _ ?_)
    simp [comes, fetches, looks, From]
  refine ⟨answers_keyLaw ?_ ?_ ?_ hreach, _, _, _, rfl⟩
  · rintro _ ⟨p, rfl, rfl⟩ _ ⟨p', rfl, rfl⟩ -
    rfl
  · rintro p rfl
    decide
  · rintro p rfl p' rfl - -
    exact ⟨rfl, fun _ => rfl⟩

end Peretum.Handler
