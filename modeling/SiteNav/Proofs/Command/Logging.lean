import Mathlib.Data.List.Basic
import SiteNav.Proofs.Command.Agreement
import SiteNav.Proofs.Command.Requests
import SiteNav.Proofs.Loading.Stages

/-!
# Logging changes nothing else

A run does not look at its filter, nor at whether it is verbose: both only choose among its events
when it is written out, and no line is an event. Main statement: runs that differ in these two have
the same exit code and output, and the same lines unless their arguments are refused. Under a filter
that lets them through, the keys that are not understood are logged as they were read, if the file
was decoded, and else not at all.
-/
namespace SiteNav

namespace Log

/-- The key that an event is about if it is not understood, with the format of its file. -/
def Event.unknownKey? : Event → Option (String × Format)
  | unknownKey key format => some (key, format)
  | _ => none

namespace Filter

/-- All events of a level from a target are shown. -/
def Admits (f : Filter) (l : Level) (target : String) : Prop :=
  ∀ e : Event, e.level = l → e.target = target → f.shows e = true

theorem standard_admits (target : String) : standard.Admits .warn target := by
  intro e hlevel _
  simp [shows, decisive?, standard, Directive.concerns, hlevel]

theorem verbose_admits : verbose.Admits .warn "docnav_config::format" := by
  intro e hlevel htarget
  have hconcerns : ∀ d ∈ verbose.directives, d.concerns e = true := by
    intro d hd
    simp only [verbose, List.mem_cons, List.not_mem_nil, or_false] at hd
    rcases hd with rfl | rfl <;> (rw [Directive.concerns, htarget]; rfl)
  rw [shows, decisive?, List.filter_eq_self.2 hconcerns, hlevel]
  decide

end Filter

end Log

/-! ## The keys that loading logs -/

namespace Loading
variable {α β γ : Type}

def unknownKeys (l : Loading α) : List (String × Format) :=
  l.events.filterMap (·.unknownKey?)

variable {l : Loading α} {f : α → Loading β} (hl : l.Appends)
include hl

theorem unknownKeys_bind_of_ok {a : α} (h : l.outcome = .ok a) (hf : ∀ a, (f a).Appends) :
    (l >>= f).unknownKeys = l.unknownKeys ++ (f a).unknownKeys := by
  rw [unknownKeys, events_bind_of_ok hl h (hf a), List.filterMap_append, unknownKeys, unknownKeys]

theorem unknownKeys_bind_of_error {e : LoadError} (h : l.outcome = .error e) :
    (l >>= f).unknownKeys = l.unknownKeys := by
  rw [unknownKeys, events_bind_of_error hl h, unknownKeys]

theorem unknownKeys_bind_congr {g : α → Loading γ} (hf : ∀ a, (f a).Appends)
    (hg : ∀ a, (g a).Appends) (h : ∀ a, (f a).unknownKeys = (g a).unknownKeys) :
    (l >>= f).unknownKeys = (l >>= g).unknownKeys := by
  cases ha : l.outcome with
  | ok a => rw [unknownKeys_bind_of_ok hl ha hf, unknownKeys_bind_of_ok hl ha hg, h]
  | error e => rw [unknownKeys_bind_of_error hl ha, unknownKeys_bind_of_error hl ha]

/-- What comes after does not count if it logs no key. -/
theorem unknownKeys_bind_of_nil (hf : ∀ a, (f a).Appends) (h : ∀ a, (f a).unknownKeys = []) :
    (l >>= f).unknownKeys = l.unknownKeys := by
  cases ha : l.outcome with
  | ok a => rw [unknownKeys_bind_of_ok hl ha hf, h, List.append_nil]
  | error e => exact unknownKeys_bind_of_error hl ha

end Loading

namespace Workspace
variable {w : Workspace} {config basePath : Option String} {p : String} {f : Format} {text : String}
  {d : Decoded}

theorem unknownKeys_decodeLogged (f : Format) (text : String) :
    (decodeLogged f text).unknownKeys = ((decode f text).toOption.map (·.ignored.map (·, f))).getD [] := by
  rw [decodeLogged]
  cases decode f text with
  | error e => rfl
  | ok d =>
    change (d.ignored.map (Log.Event.unknownKey · f)).filterMap (·.unknownKey?) = d.ignored.map (·, f)
    simp [List.filterMap_map, Log.Event.unknownKey?]

theorem unknownKeys_resolve (w : Workspace) (config : Option String) :
    (w.resolve config).unknownKeys = [] := by
  cases config with
  | some given => rfl
  | none =>
    rw [resolve]
    cases w.files.discover w.directory.toList <;> rfl

theorem unknownKeys_settle (p : String) (s : Site) : (settle p s).unknownKeys = [] := by
  rw [settle]
  split
  · rfl
  · change (s.validate.warnings.map (Log.Event.warned · p)).filterMap (·.unknownKey?) = []
    simp [Log.Event.unknownKey?]

/-- A file that is opened is decoded, with nothing else logged that is about a key. -/
theorem Opens.unknownKeys_readSite (h : w.Opens config p f text) :
    (w.readSite p).unknownKeys = (decodeLogged f text).unknownKeys := by
  rw [readSite, h.content]
  simp only [h.format, readText_file]
  rw [Loading.unknownKeys_bind_of_ok (.log _) rfl fun _ => decodeLogged_appends f text]
  rfl

/-- A file that cannot be opened is not decoded. -/
theorem unknownKeys_readSite_of_not_opens (hp : w.Finds config p)
    (h : ∀ f text, ¬ w.Opens config p f text) : (w.readSite p).unknownKeys = [] := by
  rw [readSite]
  split
  · rfl
  · cases hformat : Format.ofPath? p with
    | none => rfl
    | some f =>
      simp only
      cases htext : readText (w.status p) with
      | ok text => exact absurd ⟨hp, hformat, status_of_readText htext⟩ (h f text)
      | error e => rfl

theorem Finds.unknownKeys_findSite (hp : w.Finds config p) :
    (w.findSite config).unknownKeys = (w.readSite p).unknownKeys := by
  rw [findSite, Loading.unknownKeys_bind_of_ok (w.resolve_appends config) (resolve_outcome_iff.2 hp)
    w.readSite_appends, unknownKeys_resolve, List.nil_append]

theorem unknownKeys_findSite_of_not_finds (h : ∀ p, ¬ w.Finds config p) :
    (w.findSite config).unknownKeys = [] := by
  cases hresolve : (w.resolve config).outcome with
  | ok p => exact absurd (resolve_outcome_iff.1 hresolve) (h p)
  | error e =>
    rw [findSite, Loading.unknownKeys_bind_of_error (w.resolve_appends config) hresolve,
      unknownKeys_resolve]

/-- The file of a site is opened, has a format, and is decoded. -/
inductive Decodes (w : Workspace) (config : Option String) (f : Format) (d : Decoded) : Prop
  | intro {p text : String} : w.Opens config p f text → decode f text = .ok d → Decodes w config f d

theorem Decodes.unknownKeys_findSite (h : w.Decodes config f d) :
    (w.findSite config).unknownKeys = d.ignored.map (·, f) := by
  obtain ⟨hopens, hdecode⟩ := h
  rw [hopens.finds.unknownKeys_findSite, hopens.unknownKeys_readSite, unknownKeys_decodeLogged,
    hdecode]
  rfl

theorem unknownKeys_findSite_of_not_decodes (h : ∀ f d, ¬ w.Decodes config f d) :
    (w.findSite config).unknownKeys = [] := by
  by_cases hfinds : ∃ p, w.Finds config p
  · obtain ⟨p, hp⟩ := hfinds
    rw [hp.unknownKeys_findSite]
    by_cases hopens : ∃ f text, w.Opens config p f text
    · obtain ⟨f, text, hopens⟩ := hopens
      rw [hopens.unknownKeys_readSite, unknownKeys_decodeLogged]
      cases hdecode : decode f text with
      | error e => rfl
      | ok d => exact absurd ⟨hopens, hdecode⟩ (h f d)
    · exact unknownKeys_readSite_of_not_opens hp fun f text h => hopens ⟨f, text, h⟩
  · exact unknownKeys_findSite_of_not_finds (not_exists.1 hfinds)

/-- Validation logs no keys. -/
theorem unknownKeys_load (w : Workspace) (config basePath : Option String) :
    (w.load config basePath).unknownKeys = (w.findSite config).unknownKeys := by
  rw [load, Loading.unknownKeys_bind_of_nil (w.loadReported_appends _ _) (fun _ => .pure _)
    fun _ => rfl, loadReported_eq, findSite]
  apply Loading.unknownKeys_bind_congr (w.resolve_appends config)
  · exact fun p => (w.readSite_appends p).bind fun s => settle_appends p _
  · exact w.readSite_appends
  · exact fun p => Loading.unknownKeys_bind_of_nil (w.readSite_appends p)
      (fun s => settle_appends p _) fun s => unknownKeys_settle p _

end Workspace

namespace Command

/-! ## What is written to the error output -/

namespace Entry

def text : Entry → String
  | line text => text ++ "\n"
  | event e => e.line ++ "\n"

def line? : Entry → Option String
  | line text => some text
  | event _ => none

def unknownKey? : Entry → Option (String × Format)
  | line _ => none
  | event e => e.unknownKey?

@[simp] theorem unknownKey?_line (text : String) : (line text).unknownKey? = none := rfl

@[simp] theorem unknownKey?_event (e : Log.Event) : (event e).unknownKey? = e.unknownKey? := rfl

/-- Lines are always written. -/
def passes (f : Log.Filter) : Entry → Bool
  | line _ => true
  | event e => f.shows e

end Entry

namespace Outcome
variable (o : Outcome) (f : Log.Filter)

/-- What is written to the error output under a filter. -/
def written : List Entry :=
  o.entries.filter (·.passes f)

theorem errorOutput_eq : o.errorOutput f = String.join ((o.written f).map (·.text)) := by
  rw [errorOutput, written, ← List.filterMap_eq_map, List.filterMap_filter]
  congr 1
  apply List.filterMap_congr
  intro e _
  cases e with
  | line text => rfl
  | event e => rfl

/-- Without its events the error output is the lines of the run. -/
theorem lines_written : (o.written f).filterMap (·.line?) = o.lines := by
  rw [written, lines, List.filterMap_filter]
  apply List.filterMap_congr
  intro e _
  cases e with
  | line text => rfl
  | event e => exact ite_self _

def unknownKeys : List (String × Format) :=
  o.entries.filterMap (·.unknownKey?)

variable {f} in
theorem unknownKeys_written (h : f.Admits .warn "docnav_config::format") :
    (o.written f).filterMap (·.unknownKey?) = o.unknownKeys := by
  rw [written, unknownKeys, List.filterMap_filter]
  apply List.filterMap_congr
  intro e _
  cases e with
  | line text => rfl
  | event e =>
    cases e with
    | unknownKey key format =>
      have hshows : f.shows (.unknownKey key format) = true := h _ rfl rfl
      exact if_pos hshows
    | _ => exact ite_self _

end Outcome

@[simp] theorem unknownKeys_logged (es : List Log.Event) :
    (logged es).filterMap (·.unknownKey?) = es.filterMap (·.unknownKey?) := by
  simp [logged, Function.comp_def]

theorem unknownKeys_failed (before : List Entry) (message : String) :
    (failed before message).unknownKeys = before.filterMap (·.unknownKey?) := by
  simp [failed, Outcome.unknownKeys]

theorem unknownKeys_reported (before : List Entry) (strict : Bool) (s : Site) :
    (reported before strict s).unknownKeys = before.filterMap (·.unknownKey?) := by
  rw [reported]
  split <;> simp [failed, Outcome.unknownKeys]

theorem unknownKeys_check (w : Workspace) (config basePath : Option String) (strict : Bool) :
    (check w config basePath strict).unknownKeys = (w.findSite config).unknownKeys := by
  rw [Workspace.findSite]
  cases hp : (w.resolve config).outcome with
  | error e =>
    rw [Loading.unknownKeys_bind_of_error (w.resolve_appends config) hp]
    simp [check, hp, unknownKeys_failed, Loading.unknownKeys]
  | ok p =>
    rw [Loading.unknownKeys_bind_of_ok (w.resolve_appends config) hp w.readSite_appends]
    cases hs : (w.readSite p).outcome with
    | error e => simp [check, hp, hs, unknownKeys_failed, Loading.unknownKeys, List.filterMap_cons]
    | ok s => simp [check, hp, hs, unknownKeys_reported, Loading.unknownKeys, List.filterMap_cons]

theorem unknownKeys_print (w : Workspace) (config basePath : Option String) (format : Format) :
    (print w config basePath format).unknownKeys = (w.findSite config).unknownKeys := by
  rw [← w.unknownKeys_load config basePath]
  cases h : (w.load config basePath).outcome with
  | error e => simp [print, h, unknownKeys_failed, Loading.unknownKeys]
  | ok s => simp [print, h, Outcome.unknownKeys, Loading.unknownKeys, Log.Event.unknownKey?]

/-- The arguments of a run name a file, or leave it to be discovered, and it is decoded. -/
inductive Invocation.Decodes (i : Invocation) (f : Format) (d : Decoded) : Prop
  | intro {v : Verb} {o : Options} : readArguments i.arguments = .ok (v, o) →
      i.workspace.Decodes o.config f d → Invocation.Decodes i f d

theorem unknownKeys_execute (i : Invocation) (v : Verb) (o : Options) :
    (execute i v o).unknownKeys = (i.workspace.findSite o.config).unknownKeys := by
  cases v with
  | check => exact unknownKeys_check _ _ _ _
  | print => exact unknownKeys_print _ _ _ _

section Run
variable {i j : Invocation} (refusal : List String → String) {f : Format} {d : Decoded}

theorem Invocation.Decodes.unknownKeys_run (h : i.Decodes f d) :
    (run i refusal).unknownKeys = d.ignored.map (·, f) := by
  obtain ⟨harguments, hdecodes⟩ := h
  rw [run_of_arguments harguments, unknownKeys_execute, hdecodes.unknownKeys_findSite]

theorem unknownKeys_run_of_not_decodes (h : ∀ f d, ¬ i.Decodes f d) :
    (run i refusal).unknownKeys = [] := by
  cases harguments : readArguments i.arguments with
  | ok vo =>
    rw [run_of_arguments harguments, unknownKeys_execute]
    exact Workspace.unknownKeys_findSite_of_not_decodes fun f d hd => h f d ⟨harguments, hd⟩
  | error stop =>
    rw [run, harguments]
    cases stop <;> rfl

theorem execute_quiet (i : Invocation) (v : Verb) (o : Options) :
    execute i v o.quiet = execute i v o := by
  cases v <;> rfl

/-- What is run is decided by the arguments but for verbosity. -/
theorem run_eq (i : Invocation) (refusal : List String → String) : run i refusal =
    match (readArguments i.arguments).map (Prod.map id Options.quiet) with
    | .ok (v, o) => execute i v o
    | .error (.help t) => { exitCode := 0, output := help i.basePath t }
    | .error .version => { exitCode := 0, output := versionText }
    | .error .misuse => { exitCode := 2, entries := [.line (refusal i.arguments)] } := by
  rw [run]
  cases readArguments i.arguments with
  | ok vo => exact (execute_quiet i vo.1 vo.2).symm
  | error stop => cases stop <;> rfl

theorem run_of_refused (h : ¬ Understood i.arguments) :
    run i refusal = { exitCode := 2, entries := [.line (refusal i.arguments)] } := by
  rw [run, not_not.1 h]

/-- A run does not look at its filter, and reads its arguments but for verbosity. If they are refused,
the parser may still word that otherwise. -/
theorem run_congr (hworkspace : i.workspace = j.workspace) (hbase : i.basePath = j.basePath)
    (harguments : DifferInVerbosity i.arguments j.arguments)
    (h : Understood i.arguments ∨ i.arguments = j.arguments) : run i refusal = run j refusal := by
  rw [run_eq i, run_eq j, harguments.readArguments_eq]
  rcases h with hargs | hargs
  · have hargs' := harguments.understood hargs
    cases hread : readArguments j.arguments with
    | ok vo => simp only [Except.map, execute, hworkspace, hbase]
    | error stop =>
      cases stop with
      | misuse => exact absurd hread hargs'
      | help t => simp only [Except.map, hbase]
      | version => rfl
  · simp only [execute, hworkspace, hbase, hargs]

/-- Of two runs that differ only in their filters and in being verbose, both come to the same, and write
the same lines, whatever stands between them, unless their arguments are refused: then the error output
holds the words of the parser for them and nothing else. The keys that are not understood are seen under
every filter that admits them: all of them if the file is decoded, and none if it is not. -/
theorem run_indifferent_to_logging (hworkspace : i.workspace = j.workspace)
    (hbase : i.basePath = j.basePath) (harguments : DifferInVerbosity i.arguments j.arguments) :
    (run i refusal).exitCode = (run j refusal).exitCode ∧
    (run i refusal).output = (run j refusal).output ∧
    (∀ k, (run k refusal).errorOutput (filter k) =
      String.join (((run k refusal).written (filter k)).map (·.text))) ∧
    (Understood i.arguments ∨ i.arguments = j.arguments →
      ((run i refusal).written (filter i)).filterMap (·.line?) =
        ((run j refusal).written (filter j)).filterMap (·.line?)) ∧
    (∀ k, ¬ Understood k.arguments → (run k refusal).exitCode = 2 ∧ (run k refusal).output = "" ∧
      ∀ g, (run k refusal).written g = [.line (refusal k.arguments)]) ∧
    ∀ g : Log.Filter, g.Admits .warn "docnav_config::format" →
      (∀ f d, i.Decodes f d →
        ((run i refusal).written g).filterMap (·.unknownKey?) = d.ignored.map (·, f)) ∧
      ((∀ f d, ¬ i.Decodes f d) →
        ((run i refusal).written g).filterMap (·.unknownKey?) = []) := by
  have hcome : (run i refusal).exitCode = (run j refusal).exitCode ∧
      (run i refusal).output = (run j refusal).output := by
    by_cases hargs : Understood i.arguments
    · rw [run_congr refusal hworkspace hbase harguments (.inl hargs)]
      exact ⟨rfl, rfl⟩
    · have hargs' : ¬ Understood j.arguments := fun h => hargs (harguments.symm.understood h)
      rw [run_of_refused refusal hargs, run_of_refused refusal hargs']
      exact ⟨rfl, rfl⟩
  refine ⟨hcome.1, hcome.2, fun k => Outcome.errorOutput_eq _ _, fun hargs => ?_, fun k hk => ?_,
    fun g hg => ?_⟩
  · rw [Outcome.lines_written, Outcome.lines_written,
      run_congr refusal hworkspace hbase harguments hargs]
  · rw [run_of_refused refusal hk]
    exact ⟨rfl, rfl, fun g => rfl⟩
  · simp only [Outcome.unknownKeys_written _ hg]
    exact ⟨fun f d hd => hd.unknownKeys_run refusal, unknownKeys_run_of_not_decodes refusal⟩

/-- A check whose filter cannot be understood and a verbose one that need not look at its filter. -/
theorem run_indifferent_to_logging_verbose :
    let text := "title: T\ndescription: D\nbase: /b/\nicon: i\nsidebar:\n" ++
      "- text: g\n  items: [{text: t, link: /a}]\n  badge: b\n"
    let w : Workspace := ⟨⟨fun _ => .file text.toUTF8⟩, "/d"⟩
    let i : Invocation := ⟨w, ["check", "-c", "nav.yml"], none, some "[icon"⟩
    let j : Invocation := ⟨w, ["check", "-c", "nav.yml", "--verbose"], none, some "off"⟩
    (filter i = .standard ∧ filter j = .verbose) ∧
      (run i).exitCode = (run j).exitCode ∧
      ((run i).written .standard).filterMap (·.line?) =
        ((run j).written .verbose).filterMap (·.line?) ∧
      ((run i).written .standard).filterMap (·.unknownKey?) =
        [("icon", .yaml), ("sidebar.0.badge", .yaml)] ∧
      ((run i).written .verbose).filterMap (·.unknownKey?) =
        [("icon", .yaml), ("sidebar.0.badge", .yaml)] := by
  intro text w i j
  have harguments : DifferInVerbosity (Verb.check.name :: (["-c", "nav.yml"] ++ []))
      (Verb.check.name :: (["-c", "nav.yml"] ++ ["--verbose"])) :=
    .insert .check (.inl rfl) (by decide) (by decide) (by decide)
  have hignored : (decode .yaml text).map (·.ignored) = .ok ["icon", "sidebar.0.badge"] :=
    eq_ok_of_toOption (by decide +kernel)
  obtain ⟨d, hdecode, hd⟩ := exists_of_map_eq_ok hignored
  have hread : readArguments i.arguments = .ok (.check, { config := some "nav.yml" }) := by
    rfl
  have hunderstood : Understood i.arguments := by
    intro hmisuse
    cases hread.symm.trans hmisuse
  have hdecodes : i.Decodes .yaml d := .intro hread (.intro ⟨.given _, by decide, rfl⟩ hdecode)
  have hfilters : filter i = .standard ∧ filter j = .verbose := ⟨rfl, rfl⟩
  obtain ⟨hcode, -, -, hlines, -, hkeys⟩ :=
    run_indifferent_to_logging (i := i) (j := j) plainRefusal rfl rfl harguments
  rw [hfilters.1, hfilters.2] at hlines
  refine ⟨hfilters, hcode, hlines (.inl hunderstood), ?_, ?_⟩
  · rw [(hkeys _ (Log.Filter.standard_admits _)).1 _ _ hdecodes, hd]
    rfl
  · rw [(hkeys _ Log.Filter.verbose_admits).1 _ _ hdecodes, hd]
    rfl

/-- A refusal names the options before the fault, so the switch among them. Where the value of an option
is due the switch itself is refused. -/
theorem refusal_shows_verbosity :
    let refusal (arguments : List String) : String :=
      "error: unexpected argument '--xyz' found\n\nUsage: docnav check " ++
        (if "--verbose" ∈ arguments then "--verbose" else "[OPTIONS]") ++
        "\n\nFor more information, try '--help'."
    let w : Workspace := ⟨⟨fun _ => .missing⟩, "/d"⟩
    let i : Invocation := ⟨w, ["check", "--xyz"], none, none⟩
    let j : Invocation := ⟨w, ["check", "--verbose", "--xyz"], none, none⟩
    let k : Invocation := ⟨w, ["check", "--config", "nav.toml"], none, none⟩
    let l : Invocation := ⟨w, ["check", "--config", "--verbose", "nav.toml"], none, none⟩
    (DifferInVerbosity i.arguments j.arguments ∧
      ((run i refusal).written (filter i)).filterMap (·.line?) ≠
        ((run j refusal).written (filter j)).filterMap (·.line?)) ∧
    l.arguments.erase "--verbose" = k.arguments ∧
      ∀ anyRefusal, (run k anyRefusal).exitCode = 1 ∧ (run l anyRefusal).exitCode = 2 := by
  intro refusal w i j k l
  refine ⟨⟨.asked .check rfl (by decide) (by decide), ?_⟩, by decide, fun _ => ⟨rfl, rfl⟩⟩
  rw [Outcome.lines_written, Outcome.lines_written]
  decide

end Run

end Command

end SiteNav
