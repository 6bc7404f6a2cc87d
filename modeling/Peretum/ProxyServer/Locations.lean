import Peretum.ProxyServer.Plugins
import Peretum.Ranking

/-!
# The location of a request

Inside a target the request goes to the matching location of the highest priority. The loop
of `ServeHTTP` starts from priority 0 and keeps a location only if its priority is higher.
So it passes over the matching locations without a priority: those whose trimmed path is
empty, and those whose match type is left out, although such a type means prefix. For them a
default location steps in, the first whose path is `/`, and nobody asks whether it matches.
-/

namespace Peretum.ProxyServer

open Go Config Waf

variable {F R A N : Type}

/-- `regexp.MustCompile`. -/
def mustCompile (lib : Library F R A N) (pattern : Str) : Except Panic R :=
  match lib.compile pattern with
  | some re => .ok re
  | none => .error (.mustCompile pattern)

/-- `LocationConfig.Matches`. -/
def matchesPath (lib : Library F R A N) (loc : LocationConfig F) (path : Str) : Except Panic Bool :=
  if loc.matchType = str "exact" then .ok (loc.path = path)
  else if loc.matchType = str "regex" then
    if loc.path = [] then .ok false
    else (mustCompile lib loc.path).map fun re => lib.matchString re path
  else .ok (loc.path = str "/" || hasPrefix path (trimSuffix loc.path (str "/")))

def priority (loc : LocationConfig F) : Nat :=
  if loc.matchType = str "exact" then 1000
  else if loc.matchType = str "regex" then 500
  else if loc.matchType = str "prefix" then (trimSuffix loc.path (str "/")).length
  else 0

/-- The loop of `TargetConfigHandler.ServeHTTP`, with the best location so far. -/
def bestLocation (lib : Library F R A N) (path : Str) :
    Option (LocationConfig F) → Nat → List (LocationConfig F) →
    Except Panic (Option (LocationConfig F))
  | best, _, [] => .ok best
  | best, bestPriority, loc :: locations =>
      match matchesPath lib loc path with
      | .error e => .error e
      | .ok found =>
          if found && bestPriority < priority loc then
            bestLocation lib path (some loc) (priority loc) locations
          else bestLocation lib path best bestPriority locations

/-- The default location of `buildTargetConfigHandler`. -/
def defaultLoc (locations : List (LocationConfig F)) : Option (LocationConfig F) :=
  locations.find? (·.path = str "/")

variable (lib : Library F R A N)

/-- The location to which `TargetConfigHandler.ServeHTTP` hands a request, or nothing if it
answers 404. -/
def routeLocation (locations : List (LocationConfig F)) (path : Str) :
    Except Panic (Option (LocationConfig F)) :=
  (bestLocation lib path none 0 locations).map fun best => best.or (defaultLoc locations)

/-- A location matches a path. -/
def matched (path : Str) (loc : LocationConfig F) : Bool :=
  match matchesPath lib loc path with
  | .ok found => found
  | .error _ => false

/-- A location that the loop may keep: it matches and has a priority. -/
def candidate (path : Str) (loc : LocationConfig F) : Bool :=
  matched lib path loc && decide (0 < priority loc)

/-- The pattern of a location compiles, if it has one. -/
def Compiles (loc : LocationConfig F) : Prop :=
  loc.matchType = str "regex" → loc.path ≠ [] → (lib.compile loc.path).isSome = true

section Route

variable {lib : Library F R A N} {path : Str} {locations : List (LocationConfig F)}

theorem isOk_map {α β ε : Type} {x : Except ε α} {f : α → β} : (x.map f).isOk = x.isOk := by
  cases x <;> rfl

/-- `MustCompile` returns exactly for patterns that compile. -/
theorem isOk_mustCompile {pattern : Str} :
    (mustCompile lib pattern).isOk = (lib.compile pattern).isSome := by
  unfold mustCompile
  cases lib.compile pattern <;> rfl

theorem isOk_matchesPath_iff {loc : LocationConfig F} {path : Str} :
    (matchesPath lib loc path).isOk = true ↔ Compiles lib loc := by
  unfold matchesPath Compiles
  split
  · next hexact =>
    have hregex : loc.matchType ≠ str "regex" := by
      rw [hexact]
      decide
    exact ⟨fun _ h => absurd h hregex, fun _ => rfl⟩
  · split
    · next hregex =>
      split
      · next hempty => exact ⟨fun _ _ hne => absurd hempty hne, fun _ => rfl⟩
      · next hempty => simp [hregex, hempty, isOk_map, isOk_mustCompile]
    · next hregex => exact ⟨fun _ h => absurd h hregex, fun _ => rfl⟩

theorem matchesPath_eq (loc : LocationConfig F) (hcompiles : Compiles lib loc) :
    matchesPath lib loc path = .ok (matched lib path loc) := by
  have hok : (matchesPath lib loc path).isOk = true := isOk_matchesPath_iff.mpr hcompiles
  unfold matched
  cases hmatch : matchesPath lib loc path with
  | ok found => rfl
  | error e =>
    rw [hmatch] at hok
    cases hok

variable {loc winner : LocationConfig F}

theorem matchesPath_eq_true_iff :
    matchesPath lib loc path = .ok true ↔ matched lib path loc = true := by
  unfold matched
  cases matchesPath lib loc path with
  | ok found => simp
  | error e => simp

/-- The loop keeps the first of the best among the candidates. -/
theorem bestLocation_eq_foldl (hcompiles : ∀ loc ∈ locations, Compiles lib loc)
    (best : Option (LocationConfig F)) :
    bestLocation lib path best (best.elim 0 priority) locations =
      .ok ((locations.filter (candidate lib path)).foldl
        (List.argAux fun b c => priority c < priority b) best) := by
  induction locations generalizing best with
  | nil => rfl
  | cons loc locations ih =>
    have hrest := fun l hl => hcompiles l (List.mem_cons_of_mem loc hl)
    rw [bestLocation, matchesPath_eq loc (hcompiles loc List.mem_cons_self)]
    dsimp only
    split
    · next hbetter =>
      obtain ⟨hfound, hlt⟩ : matched lib path loc = true ∧ best.elim 0 priority < priority loc := by
        simpa using hbetter
      have hcandidate : candidate lib path loc = true := by
        simp only [candidate, hfound, Bool.true_and, decide_eq_true_eq]
        omega
      rw [List.filter_cons_of_pos hcandidate, List.foldl_cons, Ranking.argAux_of_lt hlt]
      exact ih hrest (some loc)
    · next hworse =>
      rw [ih hrest best]
      by_cases hcandidate : candidate lib path loc = true
      · -- A candidate is passed over for a location of no lower priority.
        obtain ⟨hfound, hpos⟩ : matched lib path loc = true ∧ 0 < priority loc := by
          simpa [candidate] using hcandidate
        have hle : priority loc ≤ best.elim 0 priority := by simpa [hfound] using hworse
        rw [List.filter_cons_of_pos hcandidate, List.foldl_cons, Ranking.argAux_of_le hpos hle]
      · rw [List.filter_cons_of_neg hcandidate]

/-- The request goes to the first of the best candidates, or else to the default location. -/
theorem routeLocation_eq (hcompiles : ∀ loc ∈ locations, Compiles lib loc) :
    routeLocation lib locations path =
      .ok (((locations.filter (candidate lib path)).argmax priority).or (defaultLoc locations)) := by
  have hbest : bestLocation lib path none 0 locations = _ := bestLocation_eq_foldl hcompiles none
  rw [routeLocation, hbest]
  rfl

theorem best_spec {best : LocationConfig F}
    (hbest : (locations.filter (candidate lib path)).argmax priority = some best) :
    best ∈ locations ∧ matchesPath lib best path = .ok true ∧ 0 < priority best := by
  obtain ⟨hmem, hcandidate⟩ := List.mem_filter.mp (List.argmax_mem hbest)
  obtain ⟨hmatched, hpos⟩ : matched lib path best = true ∧ 0 < priority best := by
    simpa [candidate] using hcandidate
  exact ⟨hmem, matchesPath_eq_true_iff.mpr hmatched, hpos⟩

theorem priority_eq_zero_of_none
    (hnone : (locations.filter (candidate lib path)).argmax priority = none) (hloc : loc ∈ locations)
    (hmatch : matchesPath lib loc path = .ok true) : priority loc = 0 := by
  by_contra hpos
  have hmem : loc ∈ locations.filter (candidate lib path) := by
    apply List.mem_filter.mpr
    refine ⟨hloc, ?_⟩
    simp [candidate, matchesPath_eq_true_iff.mp hmatch, Nat.pos_of_ne_zero hpos]
  rw [List.argmax_eq_none.mp hnone] at hmem
  cases hmem

/-- The loop looks at every location, so a pattern that does not compile is fatal. -/
theorem compiles_of_bestLocation {best found : Option (LocationConfig F)} {bestPriority : Nat}
    (hfound : bestLocation lib path best bestPriority locations = .ok found) :
    ∀ loc ∈ locations, Compiles lib loc := by
  induction locations generalizing best bestPriority with
  | nil => simp
  | cons first locations ih =>
    rw [bestLocation] at hfound
    cases hmatch : matchesPath lib first path with
    | error e =>
      rw [hmatch] at hfound
      cases hfound
    | ok b =>
      rw [hmatch] at hfound
      have hfirst : Compiles lib first := isOk_matchesPath_iff.mp (by rw [hmatch]; rfl)
      have hrest : ∀ loc ∈ locations, Compiles lib loc := by
        dsimp only at hfound
        split at hfound
        · exact ih hfound
        · exact ih hfound
      intro loc hloc
      rcases List.mem_cons.mp hloc with rfl | hloc
      · exact hfirst
      · exact hrest loc hloc

theorem compiles_of_routeLocation {route : Option (LocationConfig F)}
    (hroute : routeLocation lib locations path = .ok route) :
    ∀ loc ∈ locations, Compiles lib loc := by
  unfold routeLocation at hroute
  cases hbest : bestLocation lib path none 0 locations with
  | error e =>
    rw [hbest] at hroute
    cases hroute
  | ok best => exact compiles_of_bestLocation hbest

theorem routeLocation_cases {route : Option (LocationConfig F)}
    (hroute : routeLocation lib locations path = .ok route) :
    (∃ best ∈ locations,
        route = some best ∧ matchesPath lib best path = .ok true ∧ 0 < priority best) ∨
      route = defaultLoc locations ∧
        ∀ loc ∈ locations, matchesPath lib loc path = .ok true → priority loc = 0 := by
  rw [routeLocation_eq (compiles_of_routeLocation hroute)] at hroute
  obtain rfl := Except.ok.inj hroute
  cases hbest : (locations.filter (candidate lib path)).argmax priority with
  | some best =>
    obtain ⟨hmem, hmatch, hpos⟩ := best_spec hbest
    exact .inl ⟨best, hmem, Option.some_or, hmatch, hpos⟩
  | none => exact .inr ⟨Option.none_or, fun loc => priority_eq_zero_of_none hbest⟩

/-- Routing is sound and complete: the request goes to a location that matches, and to none
just when none does. -/
def RoutesByMatch (lib : Library F R A N) (locations : List (LocationConfig F)) (path : Str) :
    Prop :=
  ∃ route, routeLocation lib locations path = .ok route ∧
    (∀ loc, route = some loc → loc ∈ locations ∧ matchesPath lib loc path = .ok true) ∧
    (route = none ↔ ∀ loc ∈ locations, matchesPath lib loc path = .ok false)

/-- Routing is sound and complete just when all patterns compile and either a location with a
priority matches, or the default location does, or there is no default and no match. -/
theorem routesByMatch_iff :
    RoutesByMatch lib locations path ↔
      (∀ loc ∈ locations, Compiles lib loc) ∧
      ((∃ loc ∈ locations, matchesPath lib loc path = .ok true ∧ 0 < priority loc) ∨
        (∀ loc, defaultLoc locations = some loc → matchesPath lib loc path = .ok true) ∧
        (defaultLoc locations = none →
          ∀ loc ∈ locations, matchesPath lib loc path = .ok false)) := by
  constructor
  · rintro ⟨route, hroute, hsound, hcomplete⟩
    refine ⟨compiles_of_routeLocation hroute, ?_⟩
    rcases routeLocation_cases hroute with ⟨best, hmem, -, hbest⟩ | ⟨rfl, -⟩
    · exact .inl ⟨best, hmem, hbest⟩
    · exact .inr ⟨fun loc hloc => (hsound loc hloc).2, hcomplete.mp⟩
  · rintro ⟨hcompiles, hmatch⟩
    have hroute := @routeLocation_eq _ _ _ _ lib path locations hcompiles
    refine ⟨_, hroute, ?_⟩
    rcases routeLocation_cases hroute with ⟨best, hmem, hbest, htrue, -⟩ | ⟨hdefault, hzero⟩
    · rw [hbest]
      refine ⟨?_, nofun, fun hnone => ?_⟩
      · rintro loc ⟨⟩
        exact ⟨hmem, htrue⟩
      · rw [hnone best hmem] at htrue
        cases htrue
    · rw [hdefault]
      rcases hmatch with ⟨loc, hloc, htrue, hpos⟩ | ⟨hmatches, hempty⟩
      · have hnone := hzero loc hloc htrue
        omega
      · refine ⟨fun loc hloc => ⟨List.mem_of_find?_eq_some hloc, hmatches loc hloc⟩, hempty, ?_⟩
        intro hall
        by_contra hsome
        obtain ⟨loc, hloc⟩ := Option.ne_none_iff_exists'.mp hsome
        have hfalse := hall loc (List.mem_of_find?_eq_some hloc)
        rw [hmatches loc hloc] at hfalse
        cases hfalse

/-- A location with a path and a match type. -/
def plainLocation (path matchType : String) : LocationConfig Int :=
  ⟨str path, str matchType, [], none, none, none, none⟩

/-- An exact location for `/` gets a request for another path, and a request that only a
location without a match type matches gets 404. -/
theorem plainLocations_misroute :
    routeLocation plainLibrary [plainLocation "/" "exact"] (str "/a") =
        .ok (some (plainLocation "/" "exact")) ∧
      matchesPath plainLibrary (plainLocation "/" "exact") (str "/a") = .ok false ∧
      ¬ RoutesByMatch plainLibrary [plainLocation "/" "exact"] (str "/a") ∧
    routeLocation plainLibrary [plainLocation "/api" ""] (str "/api/x") = .ok none ∧
      matchesPath plainLibrary (plainLocation "/api" "") (str "/api/x") = .ok true ∧
      ¬ RoutesByMatch plainLibrary [plainLocation "/api" ""] (str "/api/x") := by
  have hexact : routeLocation plainLibrary [plainLocation "/" "exact"] (str "/a") =
      .ok (some (plainLocation "/" "exact")) := by decide
  have hexact' : matchesPath plainLibrary (plainLocation "/" "exact") (str "/a") = .ok false := by
    decide
  have hempty : routeLocation plainLibrary [plainLocation "/api" ""] (str "/api/x") = .ok none := by
    decide
  have hempty' : matchesPath plainLibrary (plainLocation "/api" "") (str "/api/x") = .ok true := by
    decide
  refine ⟨hexact, hexact', ?_, hempty, hempty', ?_⟩
  · rintro ⟨route, hroute, hsound, -⟩
    obtain rfl := Except.ok.inj (hexact.symm.trans hroute)
    have htrue := (hsound _ rfl).2
    rw [hexact'] at htrue
    cases htrue
  · rintro ⟨route, hroute, -, hcomplete⟩
    obtain rfl := Except.ok.inj (hempty.symm.trans hroute)
    have hfalse := hcomplete.mp rfl _ List.mem_cons_self
    rw [hempty'] at hfalse
    cases hfalse

/-- The priority that the documentation gives to a location; no match type means prefix. -/
def documentedPriority (loc : LocationConfig F) : Nat :=
  if loc.matchType = str "exact" then 1000
  else if loc.matchType = str "regex" then 500
  else (trimSuffix loc.path (str "/")).length

/-- The match types of the documentation. -/
def KnownType (loc : LocationConfig F) : Prop :=
  loc.matchType = str "exact" ∨ loc.matchType = str "regex" ∨ loc.matchType = str "prefix" ∨
    loc.matchType = []

/-- A location with its match type written out. -/
def explicit (loc : LocationConfig F) : LocationConfig F :=
  if loc.matchType = [] then { loc with matchType := str "prefix" } else loc

theorem priority_le (loc : LocationConfig F) : priority loc ≤ documentedPriority loc := by
  unfold priority documentedPriority
  split_ifs <;> omega

theorem priority_eq (htype : KnownType loc) (hne : loc.matchType ≠ []) :
    priority loc = documentedPriority loc := by
  unfold priority documentedPriority
  rcases htype with h | h | h | h
  · rw [if_pos h, if_pos h]
  · rw [if_neg (by rw [h]; decide), if_pos h, if_neg (by rw [h]; decide), if_pos h]
  · rw [if_neg (by rw [h]; decide), if_neg (by rw [h]; decide), if_pos h,
      if_neg (by rw [h]; decide), if_neg (by rw [h]; decide)]
  · exact absurd h hne

theorem matchType_ne_nil_of_priority (hpos : 0 < priority loc) : loc.matchType ≠ [] := by
  intro hempty
  unfold priority at hpos
  rw [hempty, if_neg (by decide), if_neg (by decide), if_neg (by decide)] at hpos
  omega

/-- Writing the match type out changes nothing about a location that matching, the documented
priority or the default look at. -/
theorem explicit_cases (loc : LocationConfig F) :
    (explicit loc).path = loc.path ∧
      (explicit loc = loc ∨ loc.matchType = [] ∧ (explicit loc).matchType = str "prefix") := by
  unfold explicit
  split
  · next hempty => exact ⟨rfl, .inr ⟨hempty, rfl⟩⟩
  · exact ⟨rfl, .inl rfl⟩

theorem matchesPath_explicit (loc : LocationConfig F) :
    matchesPath lib (explicit loc) path = matchesPath lib loc path := by
  obtain ⟨hpath, heq | ⟨hempty, htype⟩⟩ := explicit_cases loc
  · rw [heq]
  · unfold matchesPath
    rw [hpath, hempty, htype, if_neg (by decide), if_neg (by decide), if_neg (by decide),
      if_neg (by decide)]

theorem documentedPriority_explicit (loc : LocationConfig F) :
    documentedPriority (explicit loc) = documentedPriority loc := by
  obtain ⟨hpath, heq | ⟨hempty, htype⟩⟩ := explicit_cases loc
  · rw [heq]
  · unfold documentedPriority
    rw [hpath, hempty, htype, if_neg (by decide), if_neg (by decide), if_neg (by decide),
      if_neg (by decide)]

/-- The documented winner: the first of the highest documented priority among the locations
that match. -/
def documentedWinner (lib : Library F R A N) (locations : List (LocationConfig F)) (path : Str) :
    Option (LocationConfig F) :=
  (locations.filter (matched lib path)).argmax documentedPriority

theorem winner_spec (hwinner : documentedWinner lib locations path = some winner) :
    winner ∈ locations ∧ matchesPath lib winner path = .ok true := by
  obtain ⟨hmem, hmatched⟩ := List.mem_filter.mp (List.argmax_mem hwinner)
  exact ⟨hmem, matchesPath_eq_true_iff.mpr hmatched⟩

theorem routeLocation_of_winner (hcompiles : ∀ loc ∈ locations, Compiles lib loc)
    (hwinner : documentedWinner lib locations path = some winner)
    (hserves : priority winner = documentedPriority winner ∧ 0 < documentedPriority winner ∨
      documentedPriority winner = 0 ∧ defaultLoc locations = some winner) :
    routeLocation lib locations path = .ok (some winner) := by
  rw [routeLocation_eq hcompiles]
  rcases hserves with ⟨hpriority, hpos⟩ | ⟨hzero, hdefault⟩
  · -- The cut at the winner is also one of the candidates, whose priorities are no higher.
    obtain ⟨before, after, hcut, hbefore, hafter⟩ := Ranking.exists_of_argmax hwinner
    have hcandidates : locations.filter (candidate lib path) =
        before.filter (0 < priority ·) ++ winner :: after.filter (0 < priority ·) := by
      have hsplit : locations.filter (candidate lib path) =
          (locations.filter (matched lib path)).filter (0 < priority ·) := by
        rw [List.filter_filter]
        apply List.filter_congr
        intro loc _
        exact Bool.and_comm _ _
      rw [hsplit, hcut, List.filter_append, List.filter_cons_of_pos]
      simpa [hpriority] using hpos
    have hbest : (locations.filter (candidate lib path)).argmax priority = some winner := by
      rw [hcandidates]
      apply Ranking.argmax_append
      · intro loc hloc
        have hlt := hbefore loc (List.mem_filter.mp hloc).1
        have hle := priority_le loc
        omega
      · intro loc hloc
        have hlt := hafter loc (List.mem_filter.mp hloc).1
        have hle := priority_le loc
        omega
    rw [hbest, Option.some_or]
  · cases hbest : (locations.filter (candidate lib path)).argmax priority with
    | none => rw [hdefault, Option.none_or]
    | some best =>
      obtain ⟨hmem, hmatch, hpos⟩ := best_spec hbest
      have hmatched : best ∈ locations.filter (matched lib path) :=
        List.mem_filter.mpr ⟨hmem, matchesPath_eq_true_iff.mp hmatch⟩
      have hle := List.le_of_mem_argmax hmatched hwinner
      have hle' := priority_le best
      omega

/-- The winner of a list whose match types are written out is the same location. -/
theorem documentedWinner_explicit (hwinner : documentedWinner lib locations path = some winner) :
    documentedWinner lib (locations.map explicit) path = some (explicit winner) := by
  have hfilter : (locations.map explicit).filter (matched lib path) =
      (locations.filter (matched lib path)).map explicit := by
    rw [List.filter_map]
    congr 1
    apply List.filter_congr
    intro loc _
    simp only [Function.comp_apply, matched, matchesPath_explicit]
  rw [documentedWinner, hfilter]
  apply Ranking.argmax_map
  have hsame : documentedPriority ∘ explicit = documentedPriority (F := F) :=
    funext documentedPriority_explicit
  rw [hsame]
  exact hwinner

theorem defaultLoc_explicit (locations : List (LocationConfig F)) :
    defaultLoc (locations.map explicit) = (defaultLoc locations).map explicit := by
  rw [defaultLoc, defaultLoc, List.find?_map]
  congr 2
  funext loc
  simp only [Function.comp_apply, (explicit_cases loc).1]

/-- Writing the match type out leaves the patterns. -/
theorem Compiles.explicit (hcompiles : Compiles lib loc) : Compiles lib (explicit loc) := by
  obtain ⟨-, heq | ⟨-, htype⟩⟩ := explicit_cases loc
  · rw [heq]
    exact hcompiles
  · intro hregex
    rw [htype] at hregex
    exact absurd hregex (by decide)

/-- When a location matches, the documented winner serves the request, before and after every
match type is written out, just when all patterns compile and either the winner's match type is
written out and it has a documented priority, or it has none and is the default location. -/
theorem winner_serves_iff (htypes : ∀ loc ∈ locations, KnownType loc)
    (hmatch : ∃ loc ∈ locations, matchesPath lib loc path = .ok true) :
    ∃ winner, documentedWinner lib locations path = some winner ∧
      ((routeLocation lib locations path = .ok (some winner) ∧
          routeLocation lib (locations.map explicit) path = .ok (some (explicit winner))) ↔
        (∀ loc ∈ locations, Compiles lib loc) ∧
        (winner.matchType ≠ [] ∧ 0 < documentedPriority winner ∨
          documentedPriority winner = 0 ∧ defaultLoc locations = some winner)) := by
  obtain ⟨winner, hwinner⟩ : ∃ winner, documentedWinner lib locations path = some winner := by
    obtain ⟨loc, hloc, hmatch⟩ := hmatch
    apply Ranking.exists_argmax
    apply List.ne_nil_of_mem (a := loc)
    exact List.mem_filter.mpr ⟨hloc, matchesPath_eq_true_iff.mp hmatch⟩
  obtain ⟨hmem, hmatched⟩ := winner_spec hwinner
  refine ⟨winner, hwinner, ?_, ?_⟩
  · rintro ⟨hroute, -⟩
    refine ⟨compiles_of_routeLocation hroute, ?_⟩
    rcases routeLocation_cases hroute with ⟨best, -, hbest, -, hpos⟩ | ⟨hdefault, hzero⟩
    · cases hbest
      exact .inl ⟨matchType_ne_nil_of_priority hpos, hpos.trans_le (priority_le _)⟩
    · refine .inr ⟨?_, hdefault.symm⟩
      by_cases hempty : winner.matchType = []
      · have hroot : winner.path = str "/" := by simpa using List.find?_some hdefault.symm
        unfold documentedPriority
        rw [hempty, hroot]
        decide
      · rw [← priority_eq (htypes winner hmem) hempty]
        exact hzero winner hmem hmatched
  · rintro ⟨hcompiles, hserves⟩
    constructor
    · apply routeLocation_of_winner hcompiles hwinner
      exact hserves.imp_left fun ⟨hne, hpos⟩ => ⟨priority_eq (htypes winner hmem) hne, hpos⟩
    · apply routeLocation_of_winner _ (documentedWinner_explicit hwinner)
      · rw [documentedPriority_explicit, defaultLoc_explicit]
        rcases hserves with ⟨hne, hpos⟩ | ⟨hzero, hdefault⟩
        · rw [explicit, if_neg hne]
          exact .inl ⟨priority_eq (htypes winner hmem) hne, hpos⟩
        · exact .inr ⟨hzero, by rw [hdefault, Option.map_some]⟩
      · intro loc hloc
        obtain ⟨original, horiginal, rfl⟩ := List.mem_map.mp hloc
        exact (hcompiles original horiginal).explicit

def twoPrefixes : List (LocationConfig Int) :=
  [plainLocation "/" "prefix", plainLocation "/api/" "prefix"]

/-- The longer prefix serves. -/
theorem twoPrefixes_served :
    routeLocation plainLibrary twoPrefixes (str "/api/x") =
      .ok (some (plainLocation "/api/" "prefix")) := by
  have hprefixes : ∀ loc ∈ twoPrefixes, loc.matchType = str "prefix" := by decide
  have hmatch : ∃ loc ∈ twoPrefixes, matchesPath plainLibrary loc (str "/api/x") = .ok true :=
    ⟨plainLocation "/" "prefix", List.mem_cons_self, by decide⟩
  obtain ⟨winner, hwinner, hserves⟩ :=
    winner_serves_iff (fun loc hloc => .inr (.inr (.inl (hprefixes loc hloc)))) hmatch
  have hlonger : documentedWinner plainLibrary twoPrefixes (str "/api/x") =
      some (plainLocation "/api/" "prefix") := by decide
  obtain rfl := Option.some.inj (hwinner.symm.trans hlonger)
  refine (hserves.mpr ⟨fun loc hloc hregex => ?_, .inl ⟨by decide, by decide⟩⟩).1
  rw [hprefixes loc hloc] at hregex
  exact absurd hregex (by decide)

/-- A prefix without a match type beside one for everything. -/
def untypedPrefix : List (LocationConfig Int) :=
  [plainLocation "/api" "", plainLocation "/" "prefix"]

/-- The longer prefix wins by the documentation and does not serve, until its match type is
written out. -/
theorem untypedPrefix_not_served :
    documentedWinner plainLibrary untypedPrefix (str "/api/x") = some (plainLocation "/api" "") ∧
    routeLocation plainLibrary untypedPrefix (str "/api/x") =
      .ok (some (plainLocation "/" "prefix")) ∧
    routeLocation plainLibrary (untypedPrefix.map explicit) (str "/api/x") =
      .ok (some (plainLocation "/api" "prefix")) := by decide

end Route

end Peretum.ProxyServer
