import Mathlib
import SiteNav.Proofs.Command.Export
import SiteNav.Proofs.Command.Logging
import SiteNav.Proofs.Validation.ReportText

/-!
# What a check says

A check of a site that is read names the file, describes each finding in a line of its own, counts the
groups and links and ends in a summary. The counts of the summary can be read off the lines above it,
and the verdict off the counts. Main statement: the lines of a check, and its exit code in terms of
them.
-/
namespace SiteNav

/-- The text starts with the name of the severity and a colon, as the description of a finding does. -/
def Severity.announces (v : Severity) (text : String) : Bool :=
  (v.name ++ ": ").toList.isPrefixOf text.toList

section Announces
variable {v : Severity} {text : String}

theorem Severity.announces_of_head? {c : Char} (h : text.toList.head? = some c) (he : c ≠ 'e')
    (hw : c ≠ 'w') : v.announces text = false := by
  obtain ⟨cs, hcs⟩ := List.head?_eq_some_iff.1 h
  cases v with
  | warning => simp [announces, name, hcs, List.isPrefixOf, hw.symm]
  | error => simp [announces, name, hcs, List.isPrefixOf, he.symm]

theorem Issue.announces_describe (v : Severity) (i : Issue) :
    v.announces i.describe = decide (i.severity = v) := by
  rw [Severity.announces, toList_describe]
  cases v <;> cases i.severity <;> simp [Severity.name, List.isPrefixOf]

theorem head?_toString_append (n : Nat) (rest : String) :
    ∃ c, (toString n ++ rest).toList.head? = some c ∧ c.isDigit = true := by
  have hlist : (toString n ++ rest).toList = Nat.toDigits 10 n ++ rest.toList := by simp
  cases hdigits : Nat.toDigits 10 n with
  | nil => exact absurd hdigits Nat.toDigits_ne_nil
  | cons c cs =>
    refine ⟨c, by rw [hlist, hdigits]; rfl, ?_⟩
    have hmem : c ∈ Nat.toDigits 10 n := hdigits ▸ List.mem_cons_self
    exact Nat.isDigit_of_mem_toDigits (by decide) (by decide) hmem

theorem Severity.announces_toString_append (v : Severity) (n : Nat) (rest : String) :
    v.announces (toString n ++ rest) = false := by
  obtain ⟨c, hc, hdigit⟩ := head?_toString_append n rest
  refine announces_of_head? hc ?_ ?_ <;> (rintro rfl; cases hdigit)

end Announces

namespace Report
variable (r : Report)

/-- A number with its noun. -/
theorem count_eq (n : Nat) (word : String) :
    tally.count n word = toString n ++ " " ++ word ++ if n = 1 then "" else "s" := by
  rw [tally.count]
  split
  · simp
  · simp [String.append_assoc]

theorem tally_eq_of_ne_nil (h : r.issues ≠ []) : r.tally =
    tally.count r.errors.length "error" ++ ", " ++ tally.count r.warnings.length "warning" := by
  rw [tally, if_neg (by simpa using h)]

theorem tally_eq_iff : r.tally = "No issues found" ↔ r.issues = [] := by
  constructor
  · intro h
    by_contra hne
    obtain ⟨c, hc, hdigit⟩ := head?_toString_append r.errors.length
      (" " ++ (if r.errors.length = 1 then "error" else "error" ++ "s") ++ ", " ++
        tally.count r.warnings.length "warning")
    have hhead : r.tally.toList.head? = some c := by
      rw [r.tally_eq_of_ne_nil hne, tally.count, ← hc]
      simp only [String.append_assoc]
    rw [h] at hhead
    obtain rfl := Option.some.inj hhead
    cases hdigit
  · intro h
    rw [tally, h]
    rfl

theorem newline_notMem_count (n : Nat) (word : String) (h : '\n' ∉ word.toList) :
    '\n' ∉ (tally.count n word).toList := by
  rw [count_eq]
  have hend : '\n' ∉ (if n = 1 then "" else "s").toList := by split <;> decide
  simp [h, hend, Text.newline_notMem_toDigits]

theorem newline_notMem_tally : '\n' ∉ r.tally.toList := by
  by_cases h : r.issues = []
  · rw [r.tally_eq_iff.2 h]
    decide
  · rw [r.tally_eq_of_ne_nil h]
    simp [newline_notMem_count]

theorem announces_tally (v : Severity) : v.announces r.tally = false := by
  by_cases h : r.issues = []
  · rw [r.tally_eq_iff.2 h]
    cases v <;> decide
  · rw [r.tally_eq_of_ne_nil h, tally.count]
    simp only [String.append_assoc]
    exact v.announces_toString_append _ _

theorem countP_error : r.issues.countP (·.severity = .error) = r.errors.length := by
  rw [List.countP_eq_length_filter]
  rfl

theorem countP_warning : r.issues.countP (·.severity = .warning) = r.warnings.length := by
  have hwarning : ∀ i : Issue, decide (i.severity = .warning) = !i.isError := by
    intro i
    rw [Issue.isError]
    cases i.severity <;> rfl
  simp only [hwarning, List.countP_eq_length_filter, warnings]

theorem length_errors_add_length_warnings :
    r.errors.length + r.warnings.length = r.issues.length :=
  (List.length_eq_length_filter_add _).symm

theorem passes_eq_false_iff (strict : Bool) : r.passes strict = false ↔
    0 < r.errors.length ∨ strict = true ∧ r.issues ≠ [] := by
  have herrors : r.hasErrors = true ↔ 0 < r.errors.length := by
    rw [hasErrors, List.any_eq_true, errors, List.length_filter_pos_iff]
  have hissues : 0 < r.errors.length → r.issues ≠ [] := by
    intro h hnil
    simp [errors, hnil] at h
  rw [passes, ← herrors]
  rw [← herrors] at hissues
  cases strict with
  | true => simpa using hissues
  | false => simp

end Report

namespace Command

/-- How many lines of a run announce a finding of some severity. -/
def Outcome.announced (o : Outcome) (v : Severity) : Nat :=
  o.lines.countP v.announces

/-- Where no event is shown, the lines are all that is written. -/
theorem Outcome.errorOutput_of_hidden {o : Outcome} {g : Log.Filter}
    (h : ∀ e ∈ o.events, g.shows e = false) :
    o.errorOutput g = String.join (o.lines.map (· ++ "\n")) := by
  rw [errorOutput, lines, List.map_filterMap]
  congr 1
  apply List.filterMap_congr
  intro entry hentry
  cases entry with
  | line text => rfl
  | event e =>
    have he : e ∈ o.events := List.mem_filterMap.2 ⟨.event e, hentry, rfl⟩
    simp [h e he]

/-- What a check comes to is decided by the site: the lines before that name the file. -/
theorem exists_run_eq_reported {i : Invocation} {o : Options} {p : String} {f : Format}
    {text : String} {d : Decoded} (harguments : readArguments i.arguments = .ok (.check, o))
    (hopens : i.workspace.Opens o.config p f text) (hdecode : decode f text = .ok d) :
    ∃ before, run i = reported before o.strict (d.site.withBasePath (o.basePath <|> i.basePath)) ∧
      Outcome.lines ⟨0, "", before⟩ = ["Checking " ++ p] := by
  have hpath : (i.workspace.resolve o.config).outcome = .ok p :=
    Workspace.resolve_outcome_iff.2 hopens.finds
  have hsite : (i.workspace.readSite p).outcome = .ok d.site := by
    rw [hopens.readSite_outcome, hdecode]
    rfl
  rw [run_of_arguments harguments]
  simp only [execute, check, hpath, hsite]
  refine ⟨_, rfl, ?_⟩
  simp [Outcome.lines, logged, List.filterMap_append, List.filterMap_map]

section Reported
variable {before : List Entry} {p : String} (strict : Bool) (s : Site)

variable (before) in
theorem verdict_eq : verdict strict s =
    (if (reported before strict s).exitCode = 0 then "" else "Error: ") ++ s.validate.tally := by
  have hcode := exitCode_reported before strict s
  rw [verdict]
  split
  · next h => rw [if_pos (hcode.2 h), String.empty_append]
  · next h => rw [if_neg fun hzero => h (hcode.1 hzero)]

theorem exitCode_reported_eq :
    (reported before strict s).exitCode = if s.validate.passes strict then 0 else 1 := by
  rw [reported]
  split <;> rfl

theorem announces_verdict (v : Severity) : v.announces (verdict strict s) = false := by
  rw [verdict]
  split
  · exact s.validate.announces_tally v
  · exact Severity.announces_of_head? (c := 'E') (by simp) (by decide) (by decide)

theorem announced_reported (hbefore : Outcome.lines ⟨0, "", before⟩ = ["Checking " ++ p])
    (v : Severity) : (reported before strict s).announced v =
      s.validate.issues.countP (·.severity = v) := by
  have hname : v.announces ("Checking " ++ p) = false :=
    Severity.announces_of_head? (c := 'C') (by simp) (by decide) (by decide)
  have hsize : v.announces (size s) = false := by
    simp only [size, String.append_assoc]
    exact v.announces_toString_append _ _
  have hfindings : (v.announces ∘ fun i : Issue => i.describe) = fun i => decide (i.severity = v) :=
    funext fun i => i.announces_describe v
  rw [Outcome.announced, lines_reported, hbefore]
  simp [hname, hsize, announces_verdict, List.countP_map, hfindings]

theorem newline_notMem_reported (hbefore : Outcome.lines ⟨0, "", before⟩ = ["Checking " ++ p]) :
    ∀ line ∈ (reported before strict s).lines.tail, '\n' ∉ line.toList := by
  intro line hline
  rw [lines_reported, hbefore] at hline
  simp only [List.singleton_append, List.tail_cons, List.mem_append, List.mem_map, List.mem_cons,
    List.not_mem_nil, or_false] at hline
  rcases hline with ⟨i, -, rfl⟩ | rfl | rfl
  · exact i.newline_notMem_describe
  · simp [size, Text.newline_notMem_toDigits]
  · rw [verdict]
    split
    · exact s.validate.newline_notMem_tally
    · simp [s.validate.newline_notMem_tally]

end Reported

/-- What a check of a site that is read writes, whatever is logged beside it: the name of the file, a
line for each finding in the order they are made, the numbers of groups and links, and a summary. Its
two counts are the numbers of lines that announce an error and a warning, and with strictness they
decide the exit code. Only the name of the file can break a line. -/
theorem check_lines {i : Invocation} {o : Options} {p : String} {f : Format} {text : String}
    {d : Decoded} {s : Site} (harguments : readArguments i.arguments = .ok (.check, o))
    (hopens : i.workspace.Opens o.config p f text) (hdecode : decode f text = .ok d)
    (hs : s = d.site.withBasePath (o.basePath <|> i.basePath)) :
    let errors := (run i).announced .error
    let warnings := (run i).announced .warning
    (∃ summary : String,
      (run i).lines = ("Checking " ++ p) :: (s.validate.issues.map (·.describe) ++
        [toString s.sidebar.length ++ " groups, " ++
            toString (s.sidebar.map (·.items.length)).sum ++ " links",
          (if (run i).exitCode = 0 then "" else "Error: ") ++ summary]) ∧
      (summary = "No issues found" ↔ s.validate.issues = []) ∧
      (s.validate.issues ≠ [] → summary =
        toString errors ++ " error" ++ (if errors = 1 then "" else "s") ++ ", " ++
          (toString warnings ++ " warning" ++ if warnings = 1 then "" else "s"))) ∧
    (∀ v, (run i).announced v = s.validate.issues.countP (·.severity = v)) ∧
    errors + warnings = s.validate.issues.length ∧
    ((run i).exitCode = 1 ↔ 0 < errors ∨ o.strict = true ∧ s.validate.issues ≠ []) ∧
    ((run i).exitCode = 0 ∨ (run i).exitCode = 1) ∧
    (∀ line ∈ (run i).lines.tail, '\n' ∉ line.toList) ∧
    (∀ g, ((run i).written g).filterMap (·.line?) = (run i).lines) ∧
    ∀ g, (∀ e ∈ (run i).events, g.shows e = false) →
      (run i).errorOutput g = String.join ((run i).lines.map (· ++ "\n")) := by
  obtain ⟨before, hrun, hbefore⟩ := exists_run_eq_reported harguments hopens hdecode
  rw [← hs] at hrun
  intro errors warnings
  have hannounced : ∀ v, (run i).announced v = s.validate.issues.countP (·.severity = v) := by
    rw [hrun]
    exact announced_reported o.strict s hbefore
  have herrors : errors = s.validate.errors.length := (hannounced _).trans s.validate.countP_error
  have hwarnings : warnings = s.validate.warnings.length :=
    (hannounced _).trans s.validate.countP_warning
  have hcode : (run i).exitCode = if s.validate.passes o.strict then 0 else 1 := by
    rw [hrun, exitCode_reported_eq]
  have hfails := s.validate.passes_eq_false_iff o.strict
  rw [← herrors] at hfails
  refine ⟨⟨s.validate.tally, ?_, s.validate.tally_eq_iff, fun hne => ?_⟩, hannounced, ?_, ?_, ?_, ?_,
    fun g => Outcome.lines_written _ g, fun g => Outcome.errorOutput_of_hidden⟩
  · have hsize : size s = toString s.sidebar.length ++ " groups, " ++
        toString (s.sidebar.map (·.items.length)).sum ++ " links" := by
      rw [size, Site.linkCount, List.length_flatMap]
    rw [hrun, lines_reported, hbefore, hsize, verdict_eq before]
    rfl
  · rw [s.validate.tally_eq_of_ne_nil hne, Report.count_eq, Report.count_eq, ← herrors, ← hwarnings]
    simp only [String.append_assoc]
    rfl
  · rw [herrors, hwarnings]
    exact s.validate.length_errors_add_length_warnings
  · rw [hcode, ← hfails]
    split <;> simp_all
  · rw [hcode]
    split
    · exact .inl rfl
    · exact .inr rfl
  · rw [hrun]
    exact newline_notMem_reported o.strict s hbefore

/-- A heading has a line feed in it, and the variable is no valid base path. -/
theorem check_lines_heading :
    let text := "title: T\ndescription: D\nbase: /\nsidebar:\n" ++
      "- text: \"a\\nb\"\n  items: []\n- text: c\n  items: [\x7btext: t, link: /t\x7d]\n"
    let i : Invocation := ⟨⟨⟨fun _ => .file text.toUTF8⟩, "/d"⟩, ["check", "-cnav.yml"], some "b", none⟩
    (∃ o f d, readArguments i.arguments = .ok (.check, o) ∧
      i.workspace.Opens o.config "nav.yml" f text ∧ decode f text = .ok d ∧
      d.site.withBasePath (o.basePath <|> i.basePath) =
        ⟨"T", "D", "b", [⟨"a\nb", none, []⟩, ⟨"c", none, [⟨"t", "/t"⟩]⟩]⟩) ∧
    (run i).lines = ["Checking nav.yml", "error: basePath: base path must start with '/'",
      "warning: basePath: base path should end with '/'",
      "warning: sidebar[0] \"a\\nb\": group has no items", "2 groups, 1 links",
      "Error: 1 error, 2 warnings"] ∧
    (run i).exitCode = 1 := by
  intro text i
  let s : Site := ⟨"T", "D", "b", [⟨"a\nb", none, []⟩, ⟨"c", none, [⟨"t", "/t"⟩]⟩]⟩
  have hread : readArguments i.arguments = .ok (.check, { config := some "nav.yml" }) := by
    rfl
  have hopens : i.workspace.Opens (some "nav.yml") "nav.yml" .yaml text := ⟨.given _, by decide, rfl⟩
  have hsite : (decode .yaml text).map (·.site) = .ok { s with basePath := "/" } :=
    eq_ok_of_toOption (by decide +kernel)
  obtain ⟨d, hdecode, hd⟩ := exists_of_map_eq_ok hsite
  have hs : s = d.site.withBasePath (none <|> i.basePath) := by
    rw [hd]
    rfl
  have hissues : s.validate.issues.map (·.describe) =
      ["error: basePath: base path must start with '/'",
        "warning: basePath: base path should end with '/'",
        "warning: sidebar[0] \"a\\nb\": group has no items"] := by
    decide +kernel
  obtain ⟨⟨summary, hlines, -, hsummary⟩, hannounced, -, hcode, -⟩ :=
    check_lines hread hopens hdecode hs
  have herrors : (run i).announced .error = 1 := (hannounced .error).trans (by decide)
  have hwarnings : (run i).announced .warning = 2 := (hannounced .warning).trans (by decide)
  have hone : (run i).exitCode = 1 := hcode.2 (.inl (by omega))
  rw [herrors, hwarnings] at hsummary
  rw [hissues, hone, hsummary (by decide)] at hlines
  exact ⟨⟨_, _, d, hread, hopens, hdecode, hs.symm⟩, hlines.trans (by decide +kernel), hone⟩

end Command

end SiteNav
