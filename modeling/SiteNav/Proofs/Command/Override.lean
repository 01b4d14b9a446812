import SiteNav.Proofs.Command.Agreement
import SiteNav.Proofs.Command.Requests
import SiteNav.Proofs.Loading.Stages
import SiteNav.Proofs.Validation.Order

/-!
# Overriding the base path

An override takes the place of the base path of a site after the site is decoded and before it is
validated. So what the file says of its base path is not seen any more, and all else is. A command
takes its override from an option, and from a variable if the option is not given. Main statement: with
an override, sites that differ in their base paths are loaded alike, and the variable is not looked at
beside the option and acts like it if it is alone.
-/
namespace SiteNav

/-! ## What validation finds at the base path -/

theorem Group.location_of_mem_findings {groups : List Group} {g : Group} {i : Nat} {issue : Issue}
    (h : issue ∈ g.findings groups i) : issue.location ≠ .basePath := by
  have hin : issue.location.isIn i = true := by simp [Group.isIn_of_mem_findings h]
  intro hplace
  rw [hplace] at hin
  cases hin

theorem location_of_mem_sidebarIssues {groups : List Group} {issue : Issue}
    (h : issue ∈ sidebarIssues groups) : issue.location ≠ .basePath := by
  rw [sidebarIssues_eq] at h
  split_ifs at h
  · rw [List.mem_singleton.1 h]
    exact Location.noConfusion
  · obtain ⟨p, -, hp⟩ := List.mem_flatMap.1 h
    exact Group.location_of_mem_findings hp

theorem location_of_mem_titleIssues {title : String} {issue : Issue} (h : issue ∈ titleIssues title) :
    issue.location ≠ .basePath := by
  rw [titleIssues] at h
  split_ifs at h
  · rw [List.mem_singleton.1 h]
    exact Location.noConfusion
  · cases h

namespace Site
variable (s : Site)

theorem filter_basePath :
    s.validate.issues.filter (·.location = .basePath) = basePathIssues s.basePath := by
  have htitle : (titleIssues s.title).filter (·.location = .basePath) = [] :=
    List.filter_eq_nil_iff.2 fun i hi => by simpa using location_of_mem_titleIssues hi
  have hbase : (basePathIssues s.basePath).filter (·.location = .basePath) = basePathIssues s.basePath :=
    List.filter_eq_self.2 fun i hi => by simpa using location_of_mem_basePathIssues hi
  have hsidebar : (sidebarIssues s.sidebar).filter (·.location = .basePath) = [] :=
    List.filter_eq_nil_iff.2 fun i hi => by simpa using location_of_mem_sidebarIssues hi
  rw [validate, List.filter_append, List.filter_append, htitle, hbase, hsidebar, List.append_nil,
    List.nil_append]

theorem filter_ne_basePath : s.validate.issues.filter (·.location ≠ .basePath) =
    titleIssues s.title ++ sidebarIssues s.sidebar := by
  have htitle : (titleIssues s.title).filter (·.location ≠ .basePath) = titleIssues s.title :=
    List.filter_eq_self.2 fun i hi => by simpa using location_of_mem_titleIssues hi
  have hbase : (basePathIssues s.basePath).filter (·.location ≠ .basePath) = [] :=
    List.filter_eq_nil_iff.2 fun i hi => by simpa using location_of_mem_basePathIssues hi
  have hsidebar : (sidebarIssues s.sidebar).filter (·.location ≠ .basePath) = sidebarIssues s.sidebar :=
    List.filter_eq_self.2 fun i hi => by simpa using location_of_mem_sidebarIssues hi
  rw [validate, List.filter_append, List.filter_append, htitle, hbase, hsidebar, List.append_nil]

/-- The same site but perhaps for its base path. -/
def SameButBasePath (s t : Site) : Prop :=
  { s with basePath := t.basePath } = t

variable {s} in
theorem SameButBasePath.override_eq {t : Site} (h : s.SameButBasePath t) (b : String) :
    s.withBasePath (some b) = t.withBasePath (some b) := by
  rw [← h]
  rfl

end Site

namespace Workspace
variable {w w' : Workspace} {path path' : Option String} {p p' : String} {f f' : Format}
  {text text' : String} {d d' : Decoded}

theorem accept_eq (s : Site) :
    accept s = .ok (s, s.validate) ∨ accept s = .error (.invalid s.validate) := by
  rw [accept]
  split
  · exact .inr rfl
  · exact .inl rfl

/-- A site that is decoded is loaded with an override, or refused for what is wrong with it then. -/
theorem Opens.loadReported_override (h : w.Opens path p f text) (hd : decode f text = .ok d)
    (b : String) : (w.loadReported path (some b)).outcome = accept (d.site.withBasePath (some b)) :=
  h.loadReported_outcome hd

/-- An override does not save a site from what goes wrong before validation, nor add to it. -/
theorem loadReported_error_iff (basePath basePath' : Option String) {e : LoadError}
    (he : ∀ r, e ≠ .invalid r) : (w.loadReported path basePath).outcome = .error e ↔
      (w.loadReported path basePath').outcome = .error e := by
  have haccept : ∀ s, accept s ≠ .error e := by
    intro s hs
    rcases accept_eq s with hok | hinvalid
    · cases hok.symm.trans hs
    · exact he _ (Except.error.inj (hs.symm.trans hinvalid))
  rw [loadReported_outcome, loadReported_outcome]
  cases (w.findSite path).outcome with
  | error e' => exact Iff.rfl
  | ok s => exact iff_of_false (haccept _) (haccept _)

end Workspace

namespace Command

/-! ## Requests for a base path -/

namespace Options
variable {v : Verb} {o p : Options} {r : Request} {rs : List Request}

def withBasePath (b : Option String) (o : Options) : Options :=
  { o with basePath := b }

/-- No other request asks for the base path, or changes it. -/
theorem serve_withBasePath (hr : ∀ c, r ≠ .set .basePath c) (b : Option String) :
    serve v (o.withBasePath b) r = (serve v o r).map (withBasePath b) := by
  rcases r with (_ | _ | _) | ⟨_ | _ | _, value⟩ | _
  · simp only [serve, turnOn, apply_ite (Except.map _)]
    rfl
  · simp only [serve, turnOn, apply_ite (Except.map _)]
    rfl
  · rfl
  · simp only [serve, set, apply_ite (Except.map _)]
    rfl
  · exact absurd rfl (hr value)
  · simp only [serve, set, withBasePath]
    split <;> rfl
  · rfl

theorem foldlM_serve_withBasePath (hrs : ∀ c, .set .basePath c ∉ rs) (b : Option String) :
    rs.foldlM (serve v) (o.withBasePath b) = (rs.foldlM (serve v) o).map (withBasePath b) := by
  induction rs generalizing o with
  | nil => rfl
  | cons r rs ih =>
    have hr : ∀ c, r ≠ .set .basePath c := fun c h => hrs c (h ▸ List.mem_cons_self)
    rw [List.foldlM_cons, List.foldlM_cons, serve_withBasePath hr]
    cases serve v o r with
    | error e => rfl
    | ok p => exact ih fun c h => hrs c (List.mem_cons_of_mem r h)

theorem basePath_of_foldlM_serve (hrs : ∀ c, .set .basePath c ∉ rs)
    (h : rs.foldlM (serve v) o = .ok p) : p.basePath = o.basePath := by
  have hp : rs.foldlM (serve v) o = .ok (p.withBasePath o.basePath) := by
    have hserve := foldlM_serve_withBasePath (v := v) (o := o) hrs o.basePath
    rwa [h] at hserve
  rw [Except.ok.inj (h.symm.trans hp)]
  rfl

theorem serve_basePath (h : o.basePath = none) (b : String) :
    serve v o (.set .basePath b) = .ok (o.withBasePath (some b)) := by
  simp [serve, set, h, withBasePath]

/-- What is served goes through its first request. -/
theorem exists_of_foldlM_cons (h : (r :: rs).foldlM (serve v) o = .ok p) :
    ∃ q, serve v o r = .ok q ∧ rs.foldlM (serve v) q = .ok p := by
  rw [List.foldlM_cons] at h
  cases hserve : serve v o r with
  | error e =>
    rw [hserve] at h
    cases h
  | ok q =>
    rw [hserve] at h
    exact ⟨q, rfl, h⟩

/-- A second request for a base path is not served. -/
theorem basePath_of_serve {b : String} (h : serve v o r = .ok p) (hb : o.basePath = some b) :
    p.basePath = some b := by
  by_cases hr : ∃ c, r = .set .basePath c
  · obtain ⟨c, rfl⟩ := hr
    simp [serve, set, hb] at h
  · have hne : ∀ c, .set .basePath c ∉ [r] := fun c hc => hr ⟨c, (List.mem_singleton.1 hc).symm⟩
    exact (basePath_of_foldlM_serve hne (by rwa [foldlM_single])).trans hb

theorem basePath_of_foldlM_serve_of_some {b : String} (h : rs.foldlM (serve v) o = .ok p)
    (hb : o.basePath = some b) : p.basePath = some b := by
  induction rs generalizing o with
  | nil => exact Except.ok.inj h ▸ hb
  | cons r rs ih =>
    obtain ⟨q, hserve, hrest⟩ := exists_of_foldlM_cons h
    exact ih hrest (basePath_of_serve hserve hb)

theorem basePath_of_mem {b : String} (hmem : .set .basePath b ∈ rs)
    (h : rs.foldlM (serve v) o = .ok p) : p.basePath = some b := by
  induction rs generalizing o with
  | nil => cases hmem
  | cons r rs ih =>
    obtain ⟨q, hserve, hrest⟩ := exists_of_foldlM_cons h
    rcases List.mem_cons.1 hmem with rfl | hmem
    · have hq : q.basePath = some b := by
        cases ho : o.basePath with
        | none =>
          rw [serve_basePath ho] at hserve
          exact Except.ok.inj hserve ▸ rfl
        | some c => simp [serve, set, ho] at hserve
      exact basePath_of_foldlM_serve_of_some hrest hq
    · exact ih hmem hrest

end Options

/-- Arguments of a command that give a base path. -/
inductive GivesBasePath (b : String) : List String → Prop
  | intro (v : Verb) {args : List String} (h : .set .basePath b ∈ v.requests none args) :
      GivesBasePath b (v.name :: args)

/-- Arguments of one command. The first do not give a base path, and the others, which ask for the same
in the same order, also give one, anywhere. -/
inductive AddsBasePath (b : String) : List String → List String → Prop
  | intro (v : Verb) {args args' : List String} {before after : List Request}
      (habsent : ∀ c, .set .basePath c ∉ before ++ after)
      (h : v.requests none args = before ++ after)
      (h' : v.requests none args' = before ++ .set .basePath b :: after) :
      AddsBasePath b (v.name :: args) (v.name :: args')

namespace Verb

theorem requests_word (v : Verb) {arg : String} {c : Char} {cs : List Char}
    (h : arg.toList = '-' :: '-' :: c :: cs) (rest : List String) :
    v.requests none (arg :: rest) = (v.word (c :: cs)).1 ++ v.requests (v.word (c :: cs)).2 rest := by
  rw [requests.eq_def]
  simp only [h]

theorem requests_value (v : Verb) {s : Setting} {value : String}
    (h : Options.looksLikeOption value = false) (rest : List String) :
    v.requests (some s) (value :: rest) = .set s value :: v.requests none rest := by
  rw [requests.eq_def]
  simp only [h, Bool.false_eq_true, reduceIte]

theorem word_basePath (v : Verb) : v.word "base-path".toList = ([], some .basePath) := by
  cases v <;> rfl

theorem word_basePath_value (v : Verb) (value : List Char) :
    v.word ("base-path".toList ++ '=' :: value) = ([.set .basePath (String.ofList value)], none) := by
  have hlong : v.long? "base-path" = some (.setting .basePath) := by cases v <;> rfl
  have hname : ("base-path".toList ++ '=' :: value).takeWhile (· ≠ '=') = "base-path".toList := by
    rw [List.takeWhile_append_of_pos (by simp), List.takeWhile_cons_of_neg (by decide),
      List.append_nil]
  simp only [word, hname, List.drop_left, String.ofList_toList, hlong]

theorem requests_basePath (v : Verb) {b : String} {added : List String} (rest : List String)
    (hadded : added = ["--base-path=" ++ b] ∨
      added = ["--base-path", b] ∧ Options.looksLikeOption b = false) :
    v.requests none (added ++ rest) = .set .basePath b :: v.requests none rest := by
  rcases hadded with rfl | ⟨rfl, hb⟩
  · have harg : ("--base-path=" ++ b).toList =
        '-' :: '-' :: 'b' :: ("ase-path".toList ++ '=' :: b.toList) := by
      rw [String.toList_append]
      rfl
    have hword := v.word_basePath_value b.toList
    rw [String.ofList_toList] at hword
    exact (v.requests_word harg rest).trans (congrArg (fun w => w.1 ++ v.requests w.2 rest) hword)
  · have harg : "--base-path".toList = '-' :: '-' :: 'b' :: "ase-path".toList := rfl
    exact (v.requests_word harg (b :: rest)).trans
      ((congrArg (fun w => w.1 ++ v.requests w.2 (b :: rest)) v.word_basePath).trans
        (v.requests_value hb rest))

end Verb

/-- The option can be put wherever an option can stand, in one argument or two. -/
theorem AddsBasePath.insert (v : Verb) {b : String} {args rest added : List String}
    (hadded : added = ["--base-path=" ++ b] ∨
      added = ["--base-path", b] ∧ Options.looksLikeOption b = false)
    (hend : "--" ∉ args) (hknown : .unknown ∉ v.requests none args)
    (habsent : ∀ c, .set .basePath c ∉ v.requests none (args ++ rest)) :
    AddsBasePath b (v.name :: (args ++ rest)) (v.name :: (args ++ (added ++ rest))) := by
  have hrequests := v.requests_append hend hknown rest
  refine .intro v (hrequests ▸ habsent) hrequests ?_
  rw [v.requests_append hend hknown, v.requests_basePath rest hadded]

/-! ## Runs with an override -/

/-- The help on a command is written in place of running it. It shows the variable. -/
def Invocation.AsksForHelp (i : Invocation) : Prop :=
  ∃ v, readArguments i.arguments = .error (.help (.verb v))

section Run
variable {i j : Invocation} {b : String} {v : Verb} {o : Options} {args args' : List String}
  (refusal : List String → String)

theorem GivesBasePath.basePath_eq (hgives : GivesBasePath b args)
    (h : readArguments args = .ok (v, o)) : o.basePath = some b := by
  obtain ⟨u, hmem⟩ := hgives
  rw [readArguments_name] at h
  obtain ⟨p, hp, heq⟩ := exists_of_map_eq_ok h
  obtain ⟨-, rfl⟩ := Prod.mk.inj heq
  exact Options.basePath_of_mem hmem hp

theorem AddsBasePath.basePath_eq (hadds : AddsBasePath b args args')
    (h : readArguments args = .ok (v, o)) : o.basePath = none := by
  obtain ⟨u, habsent, hrequests, -⟩ := hadds
  rw [readArguments_name, hrequests] at h
  obtain ⟨p, hp, heq⟩ := exists_of_map_eq_ok h
  obtain ⟨-, rfl⟩ := Prod.mk.inj heq
  exact Options.basePath_of_foldlM_serve habsent hp

/-- The request for a base path goes through wherever it stands among the others, and shows at the
end. -/
theorem AddsBasePath.readArguments_eq (hadds : AddsBasePath b args args') : readArguments args' =
    (readArguments args).map (Prod.map id (Options.withBasePath (some b))) := by
  obtain @⟨u, args, args', before, after, habsent, hrequests, hrequests'⟩ := hadds
  have hbefore : ∀ c, .set .basePath c ∉ before := fun c h => habsent c (List.mem_append_left after h)
  have hafter : ∀ c, .set .basePath c ∉ after := fun c h => habsent c (List.mem_append_right before h)
  rw [readArguments_name, readArguments_name, hrequests, hrequests', List.foldlM_append,
    List.foldlM_append]
  cases hp : before.foldlM (Options.serve u) {} with
  | error e => rfl
  | ok p =>
    have hnone : p.basePath = none := Options.basePath_of_foldlM_serve hbefore hp
    have hset : (Request.set .basePath b :: after).foldlM (Options.serve u) p =
        (after.foldlM (Options.serve u) p).map (Options.withBasePath (some b)) := by
      rw [List.foldlM_cons, Options.serve_basePath hnone, ← Options.foldlM_serve_withBasePath hafter]
      rfl
    change Except.map _ ((Request.set .basePath b :: after).foldlM (Options.serve u) p) =
      Except.map _ (Except.map _ (after.foldlM (Options.serve u) p))
    rw [hset]
    cases after.foldlM (Options.serve u) p <;> rfl

theorem execute_eq (hworkspace : i.workspace = j.workspace) {o p : Options}
    (hconfig : o.config = p.config) (hformat : o.format = p.format) (hstrict : o.strict = p.strict)
    (hbase : (o.basePath <|> i.basePath) = (p.basePath <|> j.basePath)) :
    execute i v o = execute j v p := by
  simp only [execute, hworkspace, hconfig, hformat, hstrict, hbase]

/-- The variable is shown by the help on a command. The wording of a refusal depends on the
arguments. -/
theorem run_of_error {stop : Stop} (hi : readArguments i.arguments = .error stop)
    (hj : readArguments j.arguments = .error stop) :
    (run i refusal).exitCode = (run j refusal).exitCode ∧
    (¬ i.AsksForHelp → (run i refusal).output = (run j refusal).output ∧
      (Understood i.arguments ∨ i.arguments = j.arguments → run i refusal = run j refusal)) := by
  simp only [run, hi, hj]
  rcases stop with (_ | u | _) | _ | _
  · exact ⟨rfl, fun _ => ⟨rfl, fun _ => rfl⟩⟩
  · exact ⟨rfl, fun h => absurd ⟨u, hi⟩ h⟩
  · exact ⟨rfl, fun _ => ⟨rfl, fun _ => rfl⟩⟩
  · exact ⟨rfl, fun _ => ⟨rfl, fun _ => rfl⟩⟩
  · refine ⟨rfl, fun _ => ⟨rfl, fun h => ?_⟩⟩
    rw [h.resolve_left fun hargs => hargs hi]

theorem run_of_gives (hworkspace : i.workspace = j.workspace) (harguments : i.arguments = j.arguments)
    (hgives : GivesBasePath b i.arguments) :
    (run i refusal).exitCode = (run j refusal).exitCode ∧
    (¬ i.AsksForHelp → run i refusal = run j refusal) := by
  cases hi : readArguments i.arguments with
  | error stop =>
    obtain ⟨hcode, hrun⟩ := run_of_error refusal hi (harguments ▸ hi)
    exact ⟨hcode, fun h => (hrun h).2 (.inr harguments)⟩
  | ok vo =>
    obtain ⟨v, o⟩ := vo
    have hbase : o.basePath = some b := hgives.basePath_eq hi
    have hrun : run i refusal = run j refusal := by
      rw [run_of_arguments hi, run_of_arguments (harguments ▸ hi)]
      exact execute_eq hworkspace rfl rfl rfl (by simp [hbase])
    exact ⟨congrArg _ hrun, fun _ => hrun⟩

theorem run_of_adds (hworkspace : i.workspace = j.workspace) (hbase : i.basePath = some b)
    (hadds : AddsBasePath b i.arguments j.arguments) :
    (run i refusal).exitCode = (run j refusal).exitCode ∧
    (¬ i.AsksForHelp → (run i refusal).output = (run j refusal).output ∧
      (Understood i.arguments → run i refusal = run j refusal)) := by
  have hread := hadds.readArguments_eq
  cases hi : readArguments i.arguments with
  | error stop =>
    rw [hi] at hread
    obtain ⟨hcode, hrun⟩ := run_of_error refusal hi hread
    exact ⟨hcode, fun h => ⟨(hrun h).1, fun hargs => (hrun h).2 (.inl hargs)⟩⟩
  | ok vo =>
    obtain ⟨v, o⟩ := vo
    rw [hi] at hread
    have hnone : o.basePath = none := hadds.basePath_eq hi
    have hrun : run i refusal = run j refusal := by
      rw [run_of_arguments hi, run_of_arguments hread]
      exact execute_eq hworkspace rfl rfl rfl (by simp [hnone, hbase, Options.withBasePath])
    exact ⟨congrArg _ hrun, fun _ => ⟨congrArg _ hrun, fun _ => hrun⟩⟩

theorem filter_of_adds (hfilter : i.filter = j.filter) (hadds : AddsBasePath b i.arguments j.arguments) :
    filter i = filter j := by
  have hread := hadds.readArguments_eq
  rw [filter, filter, hread, hfilter]
  cases readArguments i.arguments <;> rfl

end Run

/-- An override hides the base path of a site and nothing else: sites that differ in it at most are
loaded alike, wherever they are read from, what is found elsewhere stays, and what is found at the base
path is due to the override. Errors before validation are those without it. Of commands, a base path
that is given hides the variable, and the variable without one acts like an option for it, wherever
that stands. Only the help on a command, which does not run it, shows the variable itself. If arguments
are refused, that may be worded otherwise with the option. -/
theorem override_hides_basePath (refusal : List String → String) :
    (∀ {w w' : Workspace} {path path' : Option String} {p p' : String} {f f' : Format}
        {text text' : String} {d d' : Decoded},
      w.Opens path p f text → w'.Opens path' p' f' text' → decode f text = .ok d →
      decode f' text' = .ok d' → d.site.SameButBasePath d'.site → ∀ b : String,
      (w.loadReported path (some b)).outcome = (w'.loadReported path' (some b)).outcome ∧
        ((∃ s, (w.loadReported path (some b)).outcome = .ok (s, s.validate)) ∨
          ∃ r, (w.loadReported path (some b)).outcome = .error (.invalid r))) ∧
    (∀ (w : Workspace) (path basePath basePath' : Option String) (e : LoadError),
      (∀ r, e ≠ .invalid r) → ((w.loadReported path basePath).outcome = .error e ↔
        (w.loadReported path basePath').outcome = .error e)) ∧
    (∀ (s : Site) (b : String),
      (s.withBasePath (some b)).validate.issues.filter (·.location ≠ .basePath) =
        s.validate.issues.filter (·.location ≠ .basePath)) ∧
    (∀ (s t : Site) (b : String),
      (s.withBasePath (some b)).validate.issues.filter (·.location = .basePath) =
        (t.withBasePath (some b)).validate.issues.filter (·.location = .basePath)) ∧
    (∀ (i j : Invocation) (b : String), i.workspace = j.workspace → i.arguments = j.arguments →
      GivesBasePath b i.arguments →
      (run i refusal).exitCode = (run j refusal).exitCode ∧
      (¬ i.AsksForHelp → run i refusal = run j refusal)) ∧
    ∀ (i j : Invocation) (b : String), i.workspace = j.workspace → i.basePath = some b →
      AddsBasePath b i.arguments j.arguments →
      (run i refusal).exitCode = (run j refusal).exitCode ∧
      (¬ i.AsksForHelp → (run i refusal).output = (run j refusal).output ∧
        (Understood i.arguments → run i refusal = run j refusal)) ∧
      (i.filter = j.filter → filter i = filter j) := by
  refine ⟨?_, fun w path basePath basePath' e => Workspace.loadReported_error_iff basePath basePath',
    fun s b => ?_, fun s t b => ?_, fun i j b => run_of_gives refusal,
    fun i j b hworkspace hbase hadds => ?_⟩
  · intro w w' path path' p p' f f' text text' d d' hopens hopens' hd hd' hsame b
    rw [hopens.loadReported_override hd, hopens'.loadReported_override hd', hsame.override_eq]
    refine ⟨rfl, (Workspace.accept_eq _).imp (fun h => ⟨_, h⟩) fun h => ⟨_, h⟩⟩
  · rw [Site.filter_ne_basePath, Site.filter_ne_basePath]
    rfl
  · rw [Site.filter_basePath, Site.filter_basePath]
    rfl
  · obtain ⟨hcode, hrun⟩ := run_of_adds refusal hworkspace hbase hadds
    exact ⟨hcode, hrun, fun hfilter => filter_of_adds hfilter hadds⟩

/-- A file in YAML and one in JSON have different base paths, of which one is not valid. The variable is
set to an empty path, and so is the option beside another variable. -/
theorem override_hides_basePath_empty :
    let yaml := "title: T\ndescription: D\nbase: b\nsidebar: []\n"
    let json := "\x7b\"sidebar\": [], \"basePath\": \"/\", \"description\": \"D\", \"title\": \"T\"\x7d"
    let w : Workspace :=
      ⟨⟨fun p => .file (if p = "/d/nav.yml".toList then yaml.toUTF8 else json.toUTF8)⟩, "/d"⟩
    let i : Invocation := ⟨w, ["check", "-c", "nav.yml"], some "", none⟩
    let j : Invocation := ⟨w, ["check", "-c", "nav.yml", "--base-path", ""], some "/z/", none⟩
    (w.loadReported (some "nav.yml") (some "/o/")).outcome =
        (w.loadReported (some "nav.json") (some "/o/")).outcome ∧
      ((w.loadReported (some "nav.yml") none).outcome = .error (.notFound "nav.yml") ↔
        (w.loadReported (some "nav.yml") (some "/o/")).outcome = .error (.notFound "nav.yml")) ∧
      run i = run j ∧ filter i = filter j ∧ run j = run { j with basePath := none } := by
  intro yaml json w i j
  have hyaml : w.Opens (some "nav.yml") "nav.yml" .yaml yaml :=
    ⟨.given _, by decide, congrArg Status.file (if_pos (by decide))⟩
  have hjson : w.Opens (some "nav.json") "nav.json" .json json :=
    ⟨.given _, by decide, congrArg Status.file (if_neg (by decide))⟩
  have hsite : (decode .yaml yaml).map (·.site) = .ok ⟨"T", "D", "b", []⟩ :=
    eq_ok_of_toOption (by decide +kernel)
  have hsite' : (decode .json json).map (·.site) = .ok ⟨"T", "D", "/", []⟩ :=
    eq_ok_of_toOption (by decide +kernel)
  obtain ⟨d, hd, hs⟩ := exists_of_map_eq_ok hsite
  obtain ⟨d', hd', hs'⟩ := exists_of_map_eq_ok hsite'
  have hsame : d.site.SameButBasePath d'.site := by
    rw [hs, hs']
    rfl
  obtain ⟨hload, herror, -, -, hgives, hadds⟩ := override_hides_basePath plainRefusal
  have hadded : AddsBasePath "" (Verb.check.name :: (["-c", "nav.yml"] ++ []))
      (Verb.check.name :: (["-c", "nav.yml"] ++ (["--base-path", ""] ++ []))) := by
    refine .insert .check (.inr ⟨rfl, rfl⟩) (by decide) (by decide) fun c h => ?_
    have hrequests : Verb.check.requests none ["-c", "nav.yml"] = [.set .config "nav.yml"] := by
      rfl
    rw [List.append_nil, hrequests] at h
    cases List.mem_singleton.1 h
  have hgiven : GivesBasePath "" j.arguments := .intro .check (by decide)
  have hi : readArguments i.arguments = .ok (.check, { config := some "nav.yml" }) := by
    rfl
  have hunderstood : Understood i.arguments := by
    intro hmisuse
    cases hi.symm.trans hmisuse
  have hrun : ¬ i.AsksForHelp := by
    rintro ⟨v, hv⟩
    cases hi.symm.trans hv
  have hrun' : ¬ j.AsksForHelp := by
    rintro ⟨v, hv⟩
    have hj : readArguments j.arguments =
        .ok (.check, { config := some "nav.yml", basePath := some "" }) := by
      rfl
    cases hj.symm.trans hv
  obtain ⟨-, hij, hfilter⟩ := hadds i j "" rfl rfl hadded
  exact ⟨(hload hyaml hjson hd hd' hsame "/o/").1,
    herror w (some "nav.yml") none (some "/o/") (.notFound "nav.yml") (by simp),
    (hij hrun).2 hunderstood, hfilter rfl,
    (hgives j { j with basePath := none } "" rfl rfl hgiven).2 hrun'⟩

/-- The help shows the variable, though the option is given. -/
theorem help_shows_variable :
    let i : Invocation :=
      ⟨⟨⟨fun _ => .missing⟩, "/"⟩, ["check", "--base-path", "/x/", "--help"], some "/v/", none⟩
    let j : Invocation := { i with basePath := none }
    GivesBasePath "/x/" i.arguments ∧ (run i).output ≠ (run j).output :=
  ⟨.intro .check (by decide), by decide +kernel⟩

end Command

end SiteNav
