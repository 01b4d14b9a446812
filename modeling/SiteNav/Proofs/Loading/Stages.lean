import SiteNav.Proofs.Loading

/-!
# The stages of loading

A site file is found, is there, has a format, is read, is decoded, and the site in it, with its base
path replaced if there is an override, has no errors: the first of these that does not hold is what
loading fails with. Main statement: loading returns a site exactly if all of them hold, and fails with
an error exactly if the stages before that error hold and its own does not.
-/
namespace SiteNav

theorem Site.withBasePath_eq (s : Site) (basePath : Option String) :
    s.withBasePath basePath = { s with basePath := basePath.getD s.basePath } := by
  cases basePath <;> rfl

def DecodeError.format : DecodeError → Format
  | json _ => .json
  | toml _ _ => .toml
  | yaml _ => .yaml

/-- A decoding error is one of the format that was asked for. -/
theorem format_of_decode {f : Format} {text : String} {e : DecodeError}
    (h : decode f text = .error e) : e.format = f := by
  have hmap : ∀ {ε α : Type} {x : Except ε α} {g : ε → DecodeError} {e : DecodeError},
      x.mapError g = .error e → ∃ e', e = g e' := by
    intro ε α x g e hx
    cases x with
    | ok a => cases hx
    | error e' => exact ⟨e', (Except.error.inj hx).symm⟩
  cases f with
  | json => obtain ⟨e', rfl⟩ := hmap h; rfl
  | toml => obtain ⟨e', rfl⟩ := hmap h; rfl
  | yaml => obtain ⟨e', rfl⟩ := hmap h; rfl

namespace Workspace

/-- The file that a site is loaded from: the one that is given, or the one that is discovered. -/
inductive Finds (w : Workspace) : Option String → String → Prop
  | given (p : String) : Finds w (some p) p
  | discovered {p : List Char} (h : w.files.discover w.directory.toList = some p) :
      Finds w none (String.ofList p)

/-- The file is there, has a format and holds a text. -/
structure Opens (w : Workspace) (path : Option String) (p : String) (f : Format) (text : String) :
    Prop where
  finds : w.Finds path p
  format : Format.ofPath? p = some f
  content : w.status p = .file text.toUTF8

/-- All stages of loading a site hold. -/
inductive Accepts (w : Workspace) (path basePath : Option String) (s : Site) : Prop
  | intro {p : String} {f : Format} {text : String} {d : Decoded} : w.Opens path p f text →
      decode f text = .ok d → s = { d.site with basePath := basePath.getD d.site.basePath } →
      (∀ i ∈ s.validate.issues, i.severity ≠ .error) → Accepts w path basePath s

/-- The stages before an error hold, and the one that it reports does not. -/
inductive Fails (w : Workspace) (path basePath : Option String) : LoadError → Prop
  | notDiscovered : path = none → w.files.discover w.directory.toList = none →
      Fails w path basePath (.notDiscovered w.directory)
  | notFound {p : String} : w.Finds path p → w.status p = .missing →
      Fails w path basePath (.notFound p)
  | unsupportedFormat {p : String} : w.Finds path p → w.status p ≠ .missing →
      Format.ofPath? p = none → Fails w path basePath (.unsupportedFormat p)
  | isDirectory {p : String} {f : Format} : w.Finds path p → w.status p = .directory →
      Format.ofPath? p = some f → Fails w path basePath (.unreadable .isDirectory)
  | notUnicode {p : String} {f : Format} {content : ByteArray} : w.Finds path p →
      w.status p = .file content → Format.ofPath? p = some f → (∀ text : String, content ≠ text.toUTF8) →
      Fails w path basePath (.unreadable .notUnicode)
  | refused {p : String} {f : Format} {reason : String} : w.Finds path p →
      w.status p = .unreadable reason → Format.ofPath? p = some f →
      Fails w path basePath (.unreadable (.refused reason))
  | undecodable {p : String} {f : Format} {text : String} {e : DecodeError} :
      w.Opens path p f text → decode f text = .error e → Fails w path basePath (.undecodable e)
  | invalid {p : String} {f : Format} {text : String} {d : Decoded} {s : Site} :
      w.Opens path p f text → decode f text = .ok d →
      s = { d.site with basePath := basePath.getD d.site.basePath } →
      (∃ i ∈ s.validate.issues, i.severity = .error) → Fails w path basePath (.invalid s.validate)

variable {w : Workspace} {path basePath : Option String} {p : String} {f : Format} {text : String}
  {s : Site} {e : LoadError}

theorem resolve_outcome_iff : (w.resolve path).outcome = .ok p ↔ w.Finds path p := by
  constructor
  · intro h
    cases path with
    | some given =>
      obtain rfl : given = p := Except.ok.inj h
      exact .given given
    | none =>
      simp only [resolve] at h
      cases hfound : w.files.discover w.directory.toList with
      | none =>
        rw [hfound] at h
        cases h
      | some found =>
        rw [hfound] at h
        obtain rfl : String.ofList found = p := Except.ok.inj h
        exact .discovered hfound
  · intro h
    cases h with
    | given => rfl
    | discovered hfound =>
      simp only [resolve, hfound]
      rfl

theorem findSite_of_finds (h : w.Finds path p) : (w.findSite path).outcome = (w.readSite p).outcome := by
  rw [findSite, Loading.outcome_bind_of_ok (w.resolve_appends path) (resolve_outcome_iff.2 h)
    (w.readSite_appends p)]

theorem readText_eq_error {content : ByteArray} (h : ∀ text : String, content ≠ text.toUTF8) :
    readText (.file content) = .error .notUnicode := by
  cases hutf8 : String.fromUTF8? content with
  | some text => exact absurd (eq_toUTF8_of_fromUTF8? hutf8) (h text)
  | none => rw [readText, hutf8]

/-! ## Reading a file, stage by stage -/

theorem readSite_of_missing (h : w.status p = .missing) :
    (w.readSite p).outcome = .error (.notFound p) := by
  simp only [readSite, h]
  rfl

theorem readSite_of_format_eq_none (h : w.status p ≠ .missing) (hformat : Format.ofPath? p = none) :
    (w.readSite p).outcome = .error (.unsupportedFormat p) := by
  rw [readSite]
  split
  · next hmissing => exact absurd hmissing h
  · rw [hformat]
    rfl

theorem readSite_of_readText_error {r : ReadError} (h : w.status p ≠ .missing)
    (hformat : Format.ofPath? p = some f) (htext : readText (w.status p) = .error r) :
    (w.readSite p).outcome = .error (.unreadable r) := by
  rw [readSite]
  split
  · next hmissing => exact absurd hmissing h
  · simp only [hformat, htext]
    rfl

theorem Opens.readSite_outcome (h : w.Opens path p f text) : (w.readSite p).outcome =
    ((decode f text).map (·.site)).mapError .undecodable :=
  Workspace.readSite_outcome h.content h.format

/-! ## The outcome of loading -/

theorem loadReported_of_error (hp : w.Finds path p) (h : (w.readSite p).outcome = .error e) :
    (w.loadReported path basePath).outcome = .error e := by
  rw [loadReported_outcome, findSite_of_finds hp, h]
  rfl

theorem loadReported_of_readText_error {status : Status} {r : ReadError} (hp : w.Finds path p)
    (hstatus : w.status p = status) (hthere : status ≠ .missing) (hformat : Format.ofPath? p = some f)
    (htext : readText status = .error r) :
    (w.loadReported path basePath).outcome = .error (.unreadable r) := by
  subst hstatus
  exact loadReported_of_error hp (readSite_of_readText_error hthere hformat htext)

/-- A site that is decoded is accepted or refused with its override in place. -/
theorem Opens.loadReported_outcome (h : w.Opens path p f text) {d : Decoded}
    (hd : decode f text = .ok d) : (w.loadReported path basePath).outcome =
      accept { d.site with basePath := basePath.getD d.site.basePath } := by
  rw [Workspace.loadReported_outcome, findSite_of_finds h.finds, h.readSite_outcome, hd,
    ← Site.withBasePath_eq]
  rfl

theorem Accepts.outcome (h : w.Accepts path basePath s) :
    (w.loadReported path basePath).outcome = .ok (s, s.validate) := by
  obtain ⟨hopens, hd, rfl, hvalid⟩ := h
  rw [hopens.loadReported_outcome hd, accept, (Report.hasErrors_eq_false_iff _).2 hvalid]
  rfl

theorem Fails.outcome (h : w.Fails path basePath e) :
    (w.loadReported path basePath).outcome = .error e := by
  cases h with
  | notDiscovered hpath hfound =>
    subst hpath
    rw [loadReported_outcome, findSite, Loading.outcome_bind (w.resolve_appends none) w.readSite_appends]
    simp only [resolve, hfound]
    rfl
  | notFound hp hstatus => exact loadReported_of_error hp (readSite_of_missing hstatus)
  | unsupportedFormat hp hthere hformat =>
    exact loadReported_of_error hp (readSite_of_format_eq_none hthere hformat)
  | isDirectory hp hstatus hformat =>
    exact loadReported_of_readText_error hp hstatus (by simp) hformat rfl
  | notUnicode hp hstatus hformat htext =>
    exact loadReported_of_readText_error hp hstatus (by simp) hformat (readText_eq_error htext)
  | refused hp hstatus hformat =>
    exact loadReported_of_readText_error hp hstatus (by simp) hformat rfl
  | undecodable hopens hdecode =>
    refine loadReported_of_error hopens.finds ?_
    rw [hopens.readSite_outcome, hdecode]
    rfl
  | invalid hopens hdecode hsite hissues =>
    subst hsite
    rw [hopens.loadReported_outcome hdecode, accept, if_pos ((Report.hasErrors_eq_true_iff _).2 hissues)]

/-- What is there but cannot be read as a text is a directory, is no text, or is refused. -/
theorem fails_of_readText_error {r : ReadError} (hp : w.Finds path p) (hthere : w.status p ≠ .missing)
    (hformat : Format.ofPath? p = some f) (htext : readText (w.status p) = .error r) :
    w.Fails path basePath (.unreadable r) := by
  generalize hstatus : w.status p = status at htext
  cases status with
  | missing => exact absurd hstatus hthere
  | directory =>
    cases htext
    exact .isDirectory hp hstatus hformat
  | unreadable reason =>
    cases htext
    exact .refused hp hstatus hformat
  | file content =>
    have hcontent : ∀ text : String, content ≠ text.toUTF8 := by
      rintro text rfl
      rw [readText_file] at htext
      cases htext
    rw [readText_eq_error hcontent] at htext
    cases htext
    exact .notUnicode hp hstatus hformat hcontent

/-- A file that is found is opened, unless one of the stages before decoding fails. -/
theorem opens_or_unread (hp : w.Finds path p) : (∃ f text, w.Opens path p f text) ∨
    ∃ e, (w.readSite p).outcome = .error e ∧ (∀ r, e ≠ .invalid r) ∧
      ∀ basePath, w.Fails path basePath e := by
  by_cases hthere : w.status p = .missing
  · exact .inr ⟨_, readSite_of_missing hthere, nofun, fun _ => .notFound hp hthere⟩
  cases hformat : Format.ofPath? p with
  | none =>
    exact .inr ⟨_, readSite_of_format_eq_none hthere hformat, nofun,
      fun _ => .unsupportedFormat hp hthere hformat⟩
  | some f =>
    cases htext : readText (w.status p) with
    | ok text => exact .inl ⟨f, text, hp, hformat, status_of_readText htext⟩
    | error r =>
      exact .inr ⟨_, readSite_of_readText_error hthere hformat htext, nofun,
        fun _ => fails_of_readText_error hp hthere hformat htext⟩

/-- Some stage is the first that does not hold, unless all of them do. -/
theorem accepts_or_fails (w : Workspace) (path basePath : Option String) :
    (∃ s, w.Accepts path basePath s) ∨ ∃ e, w.Fails path basePath e := by
  cases hresolve : (w.resolve path).outcome with
  | error e =>
    cases path with
    | some given => cases hresolve
    | none =>
      cases hfound : w.files.discover w.directory.toList with
      | none => exact .inr ⟨_, .notDiscovered rfl hfound⟩
      | some found => cases hresolve.symm.trans (resolve_outcome_iff.2 (.discovered hfound))
  | ok p =>
    rcases opens_or_unread (resolve_outcome_iff.1 hresolve) with
      ⟨f, text, hopens⟩ | ⟨e, -, -, he⟩
    · cases hdecode : decode f text with
      | error e => exact .inr ⟨_, .undecodable hopens hdecode⟩
      | ok d =>
        cases herrors : (Site.validate
            { d.site with basePath := basePath.getD d.site.basePath }).hasErrors with
        | false =>
          exact .inl ⟨_, .intro hopens hdecode rfl ((Report.hasErrors_eq_false_iff _).1 herrors)⟩
        | true => exact .inr ⟨_, .invalid hopens hdecode rfl ((Report.hasErrors_eq_true_iff _).1 herrors)⟩
    · exact .inr ⟨e, he basePath⟩

theorem Accepts.severity_eq (h : w.Accepts path basePath s) {i : Issue}
    (hi : i ∈ s.validate.issues) : i.severity = .warning := by
  obtain ⟨-, -, -, hvalid⟩ := h
  cases hseverity : i.severity with
  | error => exact absurd hseverity (hvalid i hi)
  | warning => rfl

theorem loadReported_eq_ok_iff {r : Report} :
    (w.loadReported path basePath).outcome = .ok (s, r) ↔
      w.Accepts path basePath s ∧ r = s.validate := by
  constructor
  · intro h
    rcases w.accepts_or_fails path basePath with ⟨s', hs'⟩ | ⟨e, he⟩
    · obtain ⟨rfl, rfl⟩ := Prod.mk.inj (Except.ok.inj (hs'.outcome.symm.trans h))
      exact ⟨hs', rfl⟩
    · cases he.outcome.symm.trans h
  · rintro ⟨h, rfl⟩
    exact h.outcome

theorem loadReported_eq_error_iff :
    (w.loadReported path basePath).outcome = .error e ↔ w.Fails path basePath e := by
  constructor
  · intro h
    rcases w.accepts_or_fails path basePath with ⟨s, hs⟩ | ⟨e', he'⟩
    · cases hs.outcome.symm.trans h
    · obtain rfl := Except.error.inj (he'.outcome.symm.trans h)
      exact he'
  · exact Fails.outcome

/-- Reading a file succeeds exactly if loading it does or fails with a report, whatever the
override. -/
theorem readSite_eq_ok_iff (hp : w.Finds path p) :
    (∃ s, (w.readSite p).outcome = .ok s) ↔
      (∃ s r, (w.loadReported path basePath).outcome = .ok (s, r)) ∨
        ∃ r, (w.loadReported path basePath).outcome = .error (.invalid r) := by
  rcases opens_or_unread hp with ⟨f, text, hopens⟩ | ⟨e, hread, hne, -⟩
  · rw [hopens.readSite_outcome]
    cases hdecode : decode f text with
    | ok d =>
      rw [hopens.loadReported_outcome hdecode, accept]
      refine iff_of_true ⟨_, rfl⟩ ?_
      split
      · exact .inr ⟨_, rfl⟩
      · exact .inl ⟨_, _, rfl⟩
    | error e =>
      have hload : (w.loadReported path basePath).outcome = .error (.undecodable e) := by
        apply loadReported_of_error hopens.finds
        rw [hopens.readSite_outcome, hdecode]
        rfl
      constructor
      · rintro ⟨s, h⟩
        cases h
      · rintro (⟨s, r, h⟩ | ⟨r, h⟩)
        · cases hload.symm.trans h
        · cases hload.symm.trans h
  · have hload : (w.loadReported path basePath).outcome = .error e := loadReported_of_error hp hread
    constructor
    · rintro ⟨s, h⟩
      cases hread.symm.trans h
    · rintro (⟨s, r, h⟩ | ⟨r, h⟩)
      · cases hload.symm.trans h
      · exact absurd (Except.error.inj (hload.symm.trans h)) (hne r)

/-- What loading comes to is decided by its stages. Its two forms agree, and the stages before
validation can be run alone, whatever the override. -/
theorem loadReported_stages (w : Workspace) (path basePath : Option String) :
    (∀ s r, (w.loadReported path basePath).outcome = .ok (s, r) ↔
      w.Accepts path basePath s ∧ r = s.validate) ∧
    (∀ s r, (w.loadReported path basePath).outcome = .ok (s, r) →
      ∀ i ∈ r.issues, i.severity = .warning) ∧
    (∀ e, (w.loadReported path basePath).outcome = .error e ↔ w.Fails path basePath e) ∧
    (∀ e, (w.loadReported path basePath).outcome = .error (.undecodable e) →
      ∃ p, w.Finds path p ∧ Format.ofPath? p = some e.format) ∧
    (w.load path basePath).outcome = (w.loadReported path basePath).outcome.map (·.1) ∧
    ∀ p, w.Finds path p → ((∃ s, (w.readSite p).outcome = .ok s) ↔
      (∃ s r, (w.loadReported path basePath).outcome = .ok (s, r)) ∨
        ∃ r, (w.loadReported path basePath).outcome = .error (.invalid r)) := by
  refine ⟨fun s r => loadReported_eq_ok_iff, fun s r h => ?_, fun e => loadReported_eq_error_iff,
    fun e h => ?_, w.load_outcome path basePath, fun p => readSite_eq_ok_iff⟩
  · obtain ⟨haccepts, rfl⟩ := loadReported_eq_ok_iff.1 h
    exact fun i => haccepts.severity_eq
  · cases loadReported_eq_error_iff.1 h with
    | undecodable hopens hdecode =>
      exact ⟨_, hopens.finds, by rw [format_of_decode hdecode, hopens.format]⟩

/-- A file is loaded with a warning for its title, and refused with an override that is no absolute
path. The file itself is read either way. -/
theorem loadReported_stages_overridden :
    let text := "title: ' '\ndescription: D\nbase: /b/\nsidebar:\n- text: g\n  items: [{text: t, link: /a}]\n"
    let w : Workspace := ⟨⟨fun _ => .file text.toUTF8⟩, "/d"⟩
    let s : Site := ⟨" ", "D", "/b/", [⟨"g", none, [⟨"t", "/a"⟩]⟩]⟩
    (w.loadReported (some "nav.yml") none).outcome = .ok (s, ⟨[⟨.title, .emptyTitle⟩]⟩) ∧
      (w.loadReported (some "nav.yml") (some "b")).outcome = .error (.invalid ⟨[⟨.title, .emptyTitle⟩,
        ⟨.basePath, .basePathNotAbsolute⟩, ⟨.basePath, .basePathWithoutTrailingSlash⟩]⟩) ∧
      ∃ s, (w.readSite "nav.yml").outcome = .ok s := by
  intro text w s
  have hopens : w.Opens (some "nav.yml") "nav.yml" .yaml text := ⟨.given _, by decide, rfl⟩
  have hsite : (decode .yaml text).map (·.site) = .ok s := eq_ok_of_toOption (by decide +kernel)
  obtain ⟨d, hdecode, hd⟩ : ∃ d, decode .yaml text = .ok d ∧ s = d.site := by
    cases hdecode : decode .yaml text with
    | error e =>
      rw [hdecode] at hsite
      cases hsite
    | ok d =>
      rw [hdecode] at hsite
      exact ⟨d, rfl, (Except.ok.inj hsite).symm⟩
  have haccepts : w.Accepts (some "nav.yml") none s :=
    .intro hopens hdecode (by rw [← hd]; rfl) (by decide)
  have hreport : { s with basePath := "b" }.validate = ⟨[⟨.title, .emptyTitle⟩,
      ⟨.basePath, .basePathNotAbsolute⟩, ⟨.basePath, .basePathWithoutTrailingSlash⟩]⟩ := by decide
  have hfails : w.Fails (some "nav.yml") (some "b") (.invalid { s with basePath := "b" }.validate) :=
    .invalid hopens hdecode (by rw [← hd]; rfl) ⟨⟨.basePath, .basePathNotAbsolute⟩, by decide, by decide⟩
  obtain ⟨-, -, herror, -, -, hread⟩ := loadReported_stages w (some "nav.yml") (some "b")
  have hinvalid := (herror _).2 hfails
  rw [hreport] at hinvalid
  exact ⟨((loadReported_stages w _ none).1 s _).2 ⟨haccepts, by decide⟩, hinvalid,
    (hread _ hopens.finds).2 (.inr ⟨_, hinvalid⟩)⟩

end Workspace

end SiteNav
