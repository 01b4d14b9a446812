import SiteNav.Command.Run
import SiteNav.Proofs.Loading

/-!
# Checking and exporting agree

Both commands find and read a site in the same way, so they fail alike before it is validated. After
that a check passes under the lenient reading exactly for the sites that are exported, and under the
strict reading for those of them that have no warning. Only an export that succeeds writes to the
standard output.
-/
namespace SiteNav

theorem Report.issues_eq_warnings {r : Report} (h : r.hasErrors = false) : r.issues = r.warnings := by
  rw [hasErrors, List.any_eq_false] at h
  exact (List.filter_eq_self.2 fun i hi => by simpa using h i hi).symm

theorem Report.issues_eq_nil_iff (r : Report) :
    r.issues = [] ↔ r.hasErrors = false ∧ r.warnings = [] := by
  constructor
  · intro h
    simp [hasErrors, warnings, h]
  · rintro ⟨herrors, hwarnings⟩
    exact (issues_eq_warnings herrors).trans hwarnings

theorem Report.passes_iff (r : Report) (strict : Bool) :
    r.passes strict = true ↔ r.hasErrors = false ∧ (strict = true → r.warnings = []) := by
  cases strict with
  | false => simp [passes]
  | true => simp [passes, r.issues_eq_nil_iff]

namespace Command

theorem lines_failed (before : List Entry) (message : String) :
    (failed before message).lines.getLast? = some ("Error: " ++ message) := by
  simp [failed, Outcome.lines]

theorem exitCode_reported (before : List Entry) (strict : Bool) (s : Site) :
    (reported before strict s).exitCode = 0 ↔ s.validate.passes strict = true := by
  simp only [reported]
  split <;> simp_all [failed]

theorem output_reported (before : List Entry) (strict : Bool) (s : Site) :
    (reported before strict s).output = "" := by
  simp only [reported]
  split <;> rfl

section
variable (w : Workspace) (config basePath : Option String)

theorem check_of_error (strict : Bool) {e : LoadError} (h : (w.findSite config).outcome = .error e) :
    ∃ before, check w config basePath strict = failed before e.message := by
  rw [Workspace.findSite, Loading.outcome_bind (w.resolve_appends config) w.readSite_appends] at h
  cases hp : (w.resolve config).outcome with
  | error e' =>
    rw [hp] at h
    obtain rfl : e' = e := by simpa [Except.bind] using h
    simp only [check, hp]
    exact ⟨_, rfl⟩
  | ok path =>
    rw [hp] at h
    have hs : (w.readSite path).outcome = .error e := h
    simp only [check, hp, hs]
    exact ⟨_, rfl⟩

theorem check_of_ok (strict : Bool) {s : Site} (h : (w.findSite config).outcome = .ok s) :
    ∃ before, check w config basePath strict = reported before strict (s.withBasePath basePath) := by
  rw [Workspace.findSite, Loading.outcome_bind (w.resolve_appends config) w.readSite_appends] at h
  cases hp : (w.resolve config).outcome with
  | error e => simp [hp, Except.bind] at h
  | ok path =>
    rw [hp] at h
    have hs : (w.readSite path).outcome = .ok s := h
    simp only [check, hp, hs]
    exact ⟨_, rfl⟩

theorem output_check (strict : Bool) : (check w config basePath strict).output = "" := by
  cases h : (w.findSite config).outcome with
  | error e =>
    obtain ⟨before, heq⟩ := check_of_error w config basePath strict h
    rw [heq]
    rfl
  | ok s =>
    obtain ⟨before, heq⟩ := check_of_ok w config basePath strict h
    rw [heq, output_reported]

theorem print_of_error (format : Format) {e : LoadError}
    (h : (w.load config basePath).outcome = .error e) :
    ∃ before, print w config basePath format = failed before e.message := by
  simp only [print, h]
  exact ⟨_, rfl⟩

theorem output_print (format : Format) (h : (print w config basePath format).exitCode ≠ 0) :
    (print w config basePath format).output = "" := by
  simp only [print] at h ⊢
  split
  · rfl
  · next hs => simp [hs] at h

theorem exitCode_print (format : Format) :
    (print w config basePath format).exitCode = 0 ↔
      ∃ s r, (w.loadReported config basePath).outcome = .ok (s, r) := by
  cases h : (w.loadReported config basePath).outcome with
  | error e =>
    have hload : (w.load config basePath).outcome = .error e := by
      rw [w.load_outcome, h]
      rfl
    obtain ⟨before, heq⟩ := print_of_error w config basePath format hload
    simp [heq, failed]
  | ok sr =>
    have hload : (w.load config basePath).outcome = .ok sr.1 := by
      rw [w.load_outcome, h]
      rfl
    obtain ⟨s, r⟩ := sr
    simp [print, hload]

/-- A check passes exactly for a site that loads and, under the strict reading, has no warning. -/
theorem exitCode_check (strict : Bool) :
    (check w config basePath strict).exitCode = 0 ↔
      ∃ s r, (w.loadReported config basePath).outcome = .ok (s, r) ∧
        (strict = true → r.warnings = []) := by
  rw [w.loadReported_outcome]
  cases h : (w.findSite config).outcome with
  | error e =>
    obtain ⟨before, heq⟩ := check_of_error w config basePath strict h
    simp [heq, failed, Except.bind]
  | ok s =>
    obtain ⟨before, heq⟩ := check_of_ok w config basePath strict h
    rw [heq, exitCode_reported, Report.passes_iff]
    simp only [Except.bind, Workspace.accept]
    cases (s.withBasePath basePath).validate.hasErrors with
    | true => simp
    | false =>
      constructor
      · intro hstrict
        exact ⟨_, _, rfl, hstrict.2⟩
      · rintro ⟨_, _, heq, hstrict⟩
        obtain ⟨rfl, rfl⟩ := Prod.mk.inj (Except.ok.inj heq)
        exact ⟨rfl, hstrict⟩

/-- A site that cannot be found or read fails both commands with the same message. -/
theorem lines_of_error (strict : Bool) (format : Format) {e : LoadError}
    (h : (w.findSite config).outcome = .error e) :
    (check w config basePath strict).lines.getLast? = some ("Error: " ++ e.message) ∧
      (print w config basePath format).lines.getLast? = some ("Error: " ++ e.message) := by
  have hload : (w.load config basePath).outcome = .error e := by
    rw [w.load_outcome, w.loadReported_outcome, h]
    rfl
  obtain ⟨before, hcheck⟩ := check_of_error w config basePath strict h
  obtain ⟨before', hprint⟩ := print_of_error w config basePath format hload
  rw [hcheck, hprint]
  exact ⟨lines_failed before e.message, lines_failed before' e.message⟩

end

/-- Help, versions and documents are only written by runs that succeed. -/
theorem output_run (i : Invocation) (h : (run i).exitCode ≠ 0) : (run i).output = "" := by
  unfold run at h ⊢
  split at h
  · next v o _ =>
    cases v with
    | check => exact output_check _ _ _ _
    | print => exact output_print _ _ _ _ h
  · exact absurd rfl h
  · exact absurd rfl h
  · rfl

theorem run_of_arguments {i : Invocation} {refusal : List String → String} {v : Verb} {o : Options}
    (h : readArguments i.arguments = .ok (v, o)) : run i refusal = execute i v o := by
  simp only [run, h]

/-- A check and an export that are asked about the same files, with the same path and the same
override, whichever way it is given. -/
theorem check_agrees_with_print {i j : Invocation} {o p : Options}
    (hi : readArguments i.arguments = .ok (.check, o))
    (hj : readArguments j.arguments = .ok (.print, p)) (hw : i.workspace = j.workspace)
    (hconfig : o.config = p.config)
    (hbase : (o.basePath <|> i.basePath) = (p.basePath <|> j.basePath)) :
    (o.strict = false → ((run j).exitCode = 0 ↔ (run i).exitCode = 0)) ∧
    (o.strict = true → ((run i).exitCode = 0 ↔ (run j).exitCode = 0 ∧
      ∃ s r, (j.workspace.loadReported p.config (p.basePath <|> j.basePath)).outcome = .ok (s, r) ∧
        r.warnings = [])) ∧
    (∀ e, (j.workspace.findSite p.config).outcome = .error e →
      (run i).exitCode ≠ 0 ∧ (run j).exitCode ≠ 0 ∧
      (run i).lines.getLast? = some ("Error: " ++ e.message) ∧
      (run j).lines.getLast? = some ("Error: " ++ e.message)) ∧
    (∀ k, (run k).exitCode ≠ 0 → (run k).output = "") ∧ (run i).output = "" := by
  rw [run_of_arguments hi, run_of_arguments hj]
  simp only [execute, hw, hconfig, hbase]
  rw [exitCode_print, exitCode_check]
  refine ⟨?_, ?_, ?_, output_run, output_check _ _ _ _⟩
  · intro hstrict
    simp [hstrict]
  · intro hstrict
    constructor
    · rintro ⟨s, r, hload, hr⟩
      exact ⟨⟨s, r, hload⟩, s, r, hload, hr hstrict⟩
    · rintro ⟨_, s, r, hload, hr⟩
      exact ⟨s, r, hload, fun _ => hr⟩
  · intro e he
    have hfail : ∀ s r, (j.workspace.loadReported p.config (p.basePath <|> j.basePath)).outcome ≠
        .ok (s, r) := by
      intro s r
      rw [Workspace.loadReported_outcome, he]
      simp [Except.bind]
    rw [ne_eq, ne_eq, exitCode_check, exitCode_print]
    refine ⟨?_, ?_, lines_of_error _ _ _ _ _ he⟩
    · rintro ⟨s, r, hload, _⟩
      exact hfail s r hload
    · rintro ⟨s, r, hload⟩
      exact hfail s r hload

/-- Neither command finds the file, though one is given the override as an option and the other as
the variable. -/
theorem check_agrees_with_print_not_found :
    let w : Workspace := ⟨⟨fun _ => .missing⟩, "/d"⟩
    let i : Invocation := ⟨w, ["check", "--base-path=/a", "-c", "nav.yml"], none, none⟩
    let j : Invocation := ⟨w, ["export", "-fyaml", "--config=nav.yml"], some "/a", some "off"⟩
    (∃ o p, readArguments i.arguments = .ok (.check, o) ∧
      readArguments j.arguments = .ok (.print, p) ∧ o.config = p.config ∧
      (o.basePath <|> i.basePath) = (p.basePath <|> j.basePath)) ∧
    (run i).exitCode ≠ 0 ∧ (run j).exitCode ≠ 0 ∧
      (run i).lines.getLast? = some "Error: Configuration file not found: nav.yml" ∧
      (run j).lines.getLast? = some "Error: Configuration file not found: nav.yml" := by
  intro w i j
  have hi : readArguments i.arguments =
      .ok (.check, { config := some "nav.yml", basePath := some "/a" }) := by
    rfl
  have hj : readArguments j.arguments =
      .ok (.print, { config := some "nav.yml", format := some .yaml }) := by
    rfl
  exact ⟨⟨_, _, hi, hj, rfl, rfl⟩,
    (check_agrees_with_print hi hj rfl rfl rfl).2.2.1 (.notFound "nav.yml") rfl⟩

end Command

end SiteNav
