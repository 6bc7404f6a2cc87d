import Peretum.Config
import Peretum.Handler.CacheKey

/-!
# Purging a response by the name it was asked for

A purge names a host and perhaps a request URI, as clients know them. The entry of a
response records the `server_name` of its target as a whole, and the request URI that is
left when the hooks and the rewrite rule are through with the request. This file follows
the request from its arrival to the sidecar of its response and shows when a purge by the
public name finds it.
-/

namespace Peretum.Handler

open Go Cache Config Function

/-- A purge of one object. -/
def objectPurge (host uri : Str) : PurgeEvent := ⟨host, uri, [], false⟩

/-- A purge of everything of a host. -/
def hostPurge (host : Str) : PurgeEvent := ⟨host, [], [], false⟩

/-- A purge of the object and a purge of the host are both accepted and select the entry. -/
structure PurgedByName (disk : Disk) (key : Key) (host uri : Str) : Prop where
  object_valid : (objectPurge host uri).validate = .ok ()
  object_selects : Selected disk (objectPurge host uri) key
  host_valid : (hostPurge host).validate = .ok ()
  host_selects : Selected disk (hostPurge host) key

/-- What the hooks before proxying may make of a request. -/
def HookedBy (hooks : Nat → Request → Request → Prop) (_ : State) : Nat × Step → Prop
  | (_, .arrive h r (some hooked)) => hooks h r hooked
  | _ => True

/-- The response to a request is recorded under its public name: the host is the whole
`server_name`, the rewrite rule leaves the request URI that was asked for, and the sidecar
stays within the caps of its reader. -/
structure RecordedPublicly (th : TargetHandler) (sent hooked : Request) (headers : Header)
    (host : Str) : Prop where
  host : host = th.targetName
  uri : (th.rewritten hooked).uri = sent.uri
  readable : Readable th.targetName (th.rewritten hooked).uri headers

/-- The request of a phase before the reverse proxy starts. -/
def Phase.unproxied : Phase → Option Job
  | .looking job | .joining job | .waiting job _ | .released job _ | .fetching job _ => some job
  | _ => none

/-- The last part of a request is proxied already. -/
@[simp] theorem Phase.unproxied_finish (job : Job) (flight : Option Nat) :
    (Phase.finish job flight).unproxied = none := by
  cases flight <;> rfl

section

variable (sha : Str → Key) (handlers : Nat → TargetHandler)

/-- What a step does to a request and to the stored responses. -/
structure Progress (s t : State) (i : Nat) (p : Phase) (a : Step) (p' : Phase) : Prop where
  requests : t.requests = update s.requests i p'
  /-- Up to the reverse proxy a request stays as it arrived. -/
  unproxied : ∀ job, p'.unproxied = some job → p.unproxied = some job ∨
    ∃ h r hooked, a = .arrive h r (some hooked) ∧
      job = ⟨h, cacheKey sha (handlers h).targetName hooked.uri, r, hooked⟩
  /-- The reverse proxy gets the rewritten request. -/
  proxied : ∀ job flight c, p' = .proxied job flight (some c) → ∃ old,
    p = .fetching old flight ∧
      job = { old with request := (handlers old.handler).rewritten old.request }
  stored : ∀ job c w result, .stored job c w result ∈ t.log → .stored job c w result ∈ s.log ∨
    ∃ flight hooks slot now io, p = .proxied job flight (some c) ∧ a = .store hooks slot now io ∧
      w = writeFor (handlers job.handler) job c hooks now io

variable {sha handlers} {s t : State} {i : Nat} {p : Phase} {a : Step}

/-- A step that neither proxies a request nor stores a response. -/
theorem Progress.of_log {p' : Phase} (hrequests : t.requests = update s.requests i p')
    (hunproxied : p'.unproxied = none ∨ p'.unproxied = p.unproxied)
    (hproxied : ∀ job flight c, p' ≠ .proxied job flight (some c))
    (hlog : ∀ job c w result, .stored job c w result ∈ t.log → .stored job c w result ∈ s.log) :
    Progress sha handlers s t i p a p' := by
  refine ⟨hrequests, ?_, fun job flight c h => absurd h (hproxied job flight c), ?_⟩
  · intro job hjob
    rcases hunproxied with hnone | hsame
    · rw [hnone] at hjob
      cases hjob
    · exact .inl (hsame ▸ hjob)
  · intro job c w result hmem
    exact .inl (hlog job c w result hmem)

/-- A read of the cache keeps the request. -/
theorem ReadsCache.unproxied {job : Job} {r : DiskCache.Streamed} {p' : Phase}
    (hread : ReadsCache handlers s p a job r p') : p'.unproxied = p.unproxied := by
  cases hread <;> rfl

/-- How every step takes its request forward. -/
theorem Taken.progress {p' : Phase} (h : Taken sha handlers s i p a p' t) :
    Progress sha handlers s t i p a p' := by
  have hrequests := h.requests
  cases h with
  | arrive h r hooked =>
    refine ⟨hrequests, fun job hjob => ?_,
      fun job flight c heq => absurd heq (arrived_ne_proxied h r hooked job flight c),
      fun _ _ _ _ hmem => .inl hmem⟩
    cases hooked with
    | none => simp [arrived, Phase.unproxied] at hjob
    | some r' =>
      simp only [arrived] at hjob
      split_ifs at hjob <;> simp_all [Phase.unproxied]
  | answer hread hok =>
    refine .of_log hrequests (.inl rfl) (by simp) fun job' c w result hmem => ?_
    simpa [State.move] using hmem
  | panic hread herror =>
    exact .of_log hrequests (.inl rfl) (by simp) fun _ _ _ _ hmem => hmem
  | miss hread herror hother =>
    exact .of_log hrequests (.inr hread.unproxied) hread.job.2.2 fun _ _ _ _ hmem => hmem
  | redirect hjob | unfit | leave hleaves =>
    exact .of_log hrequests (.inl (Phase.unproxied_finish _ _)) (Phase.finish_ne_proxied _ _)
      fun _ _ _ _ hmem => hmem
  | @proxy job job' flight captured hjob =>
    subst hjob
    refine ⟨hrequests, fun _ hjob' => (by cases hjob'), ?_, fun _ _ _ _ hmem => .inl hmem⟩
    rintro job' flight' c ⟨⟩
    exact ⟨job, rfl, rfl⟩
  | @store job flight c hooks slot now io w hmay hw =>
    refine ⟨hrequests, fun _ hjob' => (by cases hjob'), fun _ _ _ heq => (by cases heq), ?_⟩
    intro job' c' w' result hmem
    rcases List.mem_cons.mp hmem with heq | hold
    · obtain ⟨rfl, rfl, rfl, rfl⟩ := Access.stored.inj heq
      exact .inr ⟨flight, hooks, slot, now, io, rfl, rfl, hw⟩
    · exact .inl hold
  | wait | claim | release | unserved =>
    exact .of_log hrequests (.inr rfl) (by simp) fun _ _ _ _ hmem => hmem
  | _ => exact .of_log hrequests (.inl rfl) (by simp) fun _ _ _ _ hmem => hmem

/-- The request that is proxied is what the rewrite rule makes of the hooked one. -/
def Job.Rewritten (handlers : Nat → TargetHandler) (hooks : Nat → Request → Request → Prop)
    (job : Job) : Prop :=
  ∃ hooked, hooks job.handler job.sent hooked ∧
    job.request = (handlers job.handler).rewritten hooked

/-- The invariant: requests stay as the hooks leave them until they are proxied, and stored
responses belong to rewritten requests. -/
structure Followed (handlers : Nat → TargetHandler) (hooks : Nat → Request → Request → Prop)
    (s : State) : Prop where
  unproxied : ∀ i job, (s.requests i).unproxied = some job →
    hooks job.handler job.sent job.request
  proxied : ∀ i job flight c, s.requests i = .proxied job flight (some c) →
    job.Rewritten handlers hooks
  stored : ∀ job c w result, .stored job c w result ∈ s.log → job.Rewritten handlers hooks ∧
    ∃ hooks now io, w = writeFor (handlers job.handler) job c hooks now io

variable {hooks : Nat → Request → Request → Prop}

theorem Followed.init (maxSize maxAge : Int) :
    Followed handlers hooks (State.init maxSize maxAge) := by
  refine ⟨?_, ?_, ?_⟩
  · intro i job hjob
    simp [State.init, Phase.unproxied] at hjob
  · intro i job flight c hproxied
    simp [State.init] at hproxied
  · intro job c w result hmem
    simp [State.init] at hmem

theorem Followed.step {a : Nat × Step} (hs : Followed handlers hooks s)
    (hguard : HookedBy hooks s a) (hstep : Handler.step sha handlers s a = some t) :
    Followed handlers hooks t := by
  obtain ⟨i, a⟩ := a
  obtain ⟨p', htaken⟩ := requestStep_taken hstep
  have hp := htaken.progress
  refine ⟨?_, ?_, ?_⟩
  · intro j job hjob
    rw [hp.requests] at hjob
    by_cases hj : j = i
    · rw [hj, update_self] at hjob
      rcases hp.unproxied job hjob with hold | ⟨h, r, hooked, rfl, rfl⟩
      · exact hs.unproxied i job hold
      · exact hguard
    · rw [update_of_ne hj] at hjob
      exact hs.unproxied j job hjob
  · intro j job flight c hproxied
    rw [hp.requests] at hproxied
    by_cases hj : j = i
    · rw [hj, update_self] at hproxied
      obtain ⟨old, hold, rfl⟩ := hp.proxied job flight c hproxied
      exact ⟨old.request, hs.unproxied i old (by rw [hold]; rfl), rfl⟩
    · rw [update_of_ne hj] at hproxied
      exact hs.proxied j job flight c hproxied
  · intro job c w result hmem
    rcases hp.stored job c w result hmem with hold | ⟨flight, hooked, -, now, io, hproxied, -, rfl⟩
    · exact hs.stored job c w result hold
    · exact ⟨hs.proxied i job flight c hproxied, hooked, now, io, rfl⟩

end

variable {key : Key}

theorem stored_of_source {log : List Access} {job : Job} {w : Write}
    (hsource : source key log = some (job, w)) :
    ∃ c result, .stored job c w result ∈ log ∧ DiskCache.storable w.statusCode w.body = true := by
  induction log with
  | nil => simp [source] at hsource
  | cons access log ih =>
    have hrest : source key log = some (job, w) → ∃ c result,
        .stored job c w result ∈ access :: log ∧
          DiskCache.storable w.statusCode w.body = true := by
      intro hold
      obtain ⟨c, result, hmem, hstorable⟩ := ih hold
      exact ⟨c, result, List.mem_cons_of_mem access hmem, hstorable⟩
    cases access with
    | answered job' writer => exact hrest hsource
    | stored job' c w' result =>
      simp only [source] at hsource
      split at hsource
      · next hstores =>
        obtain ⟨rfl, rfl⟩ := Prod.mk.inj (Option.some.inj hsource)
        simp only [Write.stores, Bool.and_eq_true] at hstores
        exact ⟨c, result, List.mem_cons_self, hstores.1.1⟩
      · exact hrest hsource

theorem selected_iff {disk : Disk} {info : File}
    (hentry : disk.lookup (cachePath key metaExt) = some info) (e : PurgeEvent) :
    Selected disk e key ↔
      ∃ m, readMetadata info.data = .ok m ∧ e.selects m.host m.path = true := by
  unfold Selected probeMatches purgeProbe
  rw [hentry, Option.bind_some]
  cases readMetadata info.data with
  | error e | ok m => simp [Except.toOption]

/-- For a sidecar that can be read, both purges select it exactly if they name what it
holds. -/
theorem purgedByName_iff_of_read {disk : Disk} {info : File}
    (hentry : disk.lookup (cachePath key metaExt) = some info) {m : Metadata}
    (hread : readMetadata info.data = .ok m) {host uri : Str} (huri : uri ≠ []) :
    PurgedByName disk key host uri ↔ host ≠ [] ∧ m.host = host ∧ m.path = uri := by
  have hselects : ∀ e : PurgeEvent, Selected disk e key ↔ e.selects m.host m.path = true := by
    intro e
    rw [selected_iff hentry, hread]
    simp
  have hempty : (uri == []) = false := beq_eq_false_iff_ne.mpr huri
  constructor
  · intro hpurged
    have hhost : host ≠ [] := by
      intro hhost
      have hvalid := hpurged.object_valid
      simp [objectPurge, PurgeEvent.validate, huri, hhost] at hvalid
    have hsel := (hselects _).mp hpurged.object_selects
    simp only [objectPurge, PurgeEvent.selects, Bool.false_or, Bool.and_eq_true, Bool.or_eq_true,
      beq_iff_eq, hempty] at hsel
    exact ⟨hhost, hsel.1.1.resolve_left hhost, hsel.1.2⟩
  · rintro ⟨hhost, rfl, rfl⟩
    refine ⟨?_, (hselects _).mpr ?_, ?_, (hselects _).mpr ?_⟩
    · simp [objectPurge, PurgeEvent.validate, huri, hhost]
    · simp [objectPurge, PurgeEvent.selects, hasPrefix]
    · simp [hostPurge, PurgeEvent.validate, hhost]
    · simp [hostPurge, PurgeEvent.selects, hasPrefix]

variable {sha : Str → Key} {handlers : Nat → TargetHandler}
  {hooks : Nat → Request → Request → Prop}

/-- In every run, the entry of a response that is stored under a public name is selected by
purges for each hostname of the target and the URI that was asked for; and, for an entry
whose lengths fit the format, only then. -/
theorem purgedByName_iff {maxSize maxAge : Int} {s : State}
    (hreach : Runs.Reaches (step sha handlers) (HookedBy hooks) (State.init maxSize maxAge) s)
    {key : Key} {info : File} (hentry : s.cache.disk.lookup (cachePath key metaExt) = some info) :
    ∃ job w hooked, source key s.log = some (job, w) ∧ hooks job.handler job.sent hooked ∧
      ∀ host ∈ parseServerNames (handlers job.handler).targetName, job.sent.uri ≠ [] →
        (RecordedPublicly (handlers job.handler) job.sent hooked w.headers host →
          PurgedByName s.cache.disk key host job.sent.uri) ∧
        (Encodable w.statusCode w.host w.path w.headers →
          PurgedByName s.cache.disk key host job.sent.uri →
          RecordedPublicly (handlers job.handler) job.sent hooked w.headers host) := by
  have hfollowed : Followed handlers hooks s :=
    hreach.invariant (fun _ _ _ hs hguard hstep => hs.step hguard hstep) (.init _ _)
  have hsourced : s.cache.Sourced fun key => (source key s.log).map Prod.snd :=
    hreach.invariant (fun _ _ _ hs _ hstep => sourced_step hs hstep)
      (DiskCache.sourced_new maxSize maxAge _)
  obtain ⟨w, hlast, hdata, -⟩ := hsourced key info hentry
  obtain ⟨⟨job, w'⟩, hsource, rfl⟩ := Option.map_eq_some_iff.mp hlast
  obtain ⟨c, result, hmem, hstorable⟩ := stored_of_source hsource
  obtain ⟨⟨hooked, hhooked, hrequest⟩, storeHooks, now, io, hw⟩ :=
    hfollowed.stored job c w' result hmem
  have hstatus : w'.statusCode < 2 ^ 16 := by
    have hsuccess := DiskCache.status_of_storable hstorable
    omega
  have hhost : w'.host = (handlers job.handler).targetName := by rw [hw]; rfl
  have hpath : w'.path = ((handlers job.handler).rewritten hooked).uri := by
    rw [← hrequest, hw]
    rfl
  refine ⟨job, w', hooked, hsource, hhooked, ?_⟩
  intro host hname huri
  constructor
  · intro hpublic
    have hreadable : Readable w'.host w'.path w'.headers := by
      rw [hhost, hpath]
      exact hpublic.readable
    have hm := (Write.readMetadata_sidecar_iff (hreadable.encodable hstatus)).mpr ⟨hreadable, rfl⟩
    rw [← hdata] at hm
    refine (purgedByName_iff_of_read hentry hm huri).mpr ⟨?_, ?_, ?_⟩
    · rintro rfl
      -- A target without a name has no hostnames.
      rw [← hpublic.host] at hname
      simp [parseServerNames] at hname
    · exact hhost.trans hpublic.host.symm
    · exact hpath.trans hpublic.uri
  · intro henc hpurged
    obtain ⟨m, hm, -⟩ := (selected_iff hentry _).mp hpurged.host_selects
    obtain ⟨-, hmhost, hmpath⟩ := (purgedByName_iff_of_read hentry hm huri).mp hpurged
    rw [hdata] at hm
    obtain ⟨hreadable, rfl⟩ := (Write.readMetadata_sidecar_iff henc).mp hm
    refine ⟨?_, ?_, ?_⟩
    · exact hmhost.symm.trans hhost
    · exact hpath.symm.trans hmpath
    · rw [← hhost, ← hpath]
      exact hreadable

/-- The hooks leave a request as it is. -/
def Unhooked (_ : Nat) (r hooked : Request) : Prop := hooked = r

def listedHandler : TargetHandler := { plainHandler with targetName := str "a.com, b.com" }

def listedState : State :=
  (Runs.exec (step (fun _ => zeroKey) (fun _ => listedHandler)) (State.init 0 0)
    (comes 0 getPage ++ fetches 0 plainPage)).get (by decide)

/-- The page is in the cache, and neither a purge of it nor a purge of its host finds it. -/
theorem listedState_not_purgedByName :
    Runs.Reaches (step (fun _ => zeroKey) (fun _ => listedHandler)) (HookedBy Unhooked)
      (State.init 0 0) listedState ∧
    str "a.com" ∈ parseServerNames listedHandler.targetName ∧
    (∃ job w, source zeroKey listedState.log = some (job, w) ∧ job.sent = getPage) ∧
    (listedState.cache.served 0 zeroKey).isSome = true ∧
    ¬ Selected listedState.cache.disk (objectPurge (str "a.com") getPage.uri) zeroKey ∧
    ¬ Selected listedState.cache.disk (hostPurge (str "a.com")) zeroKey := by
  refine ⟨?_, by decide, ⟨_, _, rfl, rfl⟩, by decide +kernel, ?_, ?_⟩
  · refine Runs.reaches_get (Runs.admitted_of_forall _ _ ?_)
    simp [comes, fetches, looks, HookedBy, Unhooked]
  · unfold Selected
    decide +kernel
  · unfold Selected
    decide +kernel

/-- A page of a target with one hostname is fetched and stored. -/
def plainState : State :=
  (Runs.exec (step (fun _ => zeroKey) (fun _ => plainHandler)) (State.init 0 0)
    (comes 0 getPage ++ fetches 0 plainPage)).get (by decide)

/-- Both purges find it. -/
theorem plainState_purgedByName :
    PurgedByName plainState.cache.disk zeroKey (str "a.example") getPage.uri := by
  have hreach : Runs.Reaches (step (fun _ => zeroKey) (fun _ => plainHandler))
      (HookedBy Unhooked) (State.init 0 0) plainState := by
    refine Runs.reaches_get (Runs.admitted_of_forall _ _ ?_)
    simp [comes, fetches, looks, HookedBy, Unhooked]
  obtain ⟨info, hentry⟩ := Option.isSome_iff_exists.mp
    (show (plainState.cache.disk.lookup (cachePath zeroKey metaExt)).isSome = true by decide)
  obtain ⟨job, w, hooked, hsource, rfl, hall⟩ := purgedByName_iff hreach hentry
  obtain ⟨rfl, rfl⟩ := Prod.mk.inj (Option.some.inj hsource)
  refine (hall _ (by decide) (by decide)).1 ⟨rfl, rfl, ?_⟩
  exact ⟨by decide, by decide, by decide, by decide⟩

end Peretum.Handler
