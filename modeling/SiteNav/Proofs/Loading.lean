import SiteNav.SiteFile

/-!
# What loading a site comes to

No stage of loading looks at the log: started on any log it has the same outcome and adds the same
events at the end. So the outcome of a sequence of stages is the sequence of their outcomes, and its
events are those of the stages that are reached, one after the other. Main statements: the outcome of
loading a site in terms of the outcomes of finding it and reading it.
-/
namespace SiteNav

theorem eq_ok_of_toOption {ε α : Type} {x : Except ε α} {a : α} (h : x.toOption = some a) :
    x = .ok a := by
  cases x with
  | error e => cases h
  | ok b => rw [Option.some.inj h]

theorem exists_of_map_eq_ok {ε α β : Type} {x : Except ε α} {g : α → β} {b : β}
    (h : x.map g = .ok b) : ∃ a, x = .ok a ∧ g a = b := by
  cases x with
  | error e => cases h
  | ok a => exact ⟨a, rfl, Except.ok.inj h⟩

namespace Report
variable (r : Report)

theorem hasErrors_eq_true_iff :
    r.hasErrors = true ↔ ∃ i ∈ r.issues, i.severity = .error := by
  rw [hasErrors, List.any_eq_true]
  simp only [Issue.isError, decide_eq_true_eq]

theorem hasErrors_eq_false_iff :
    r.hasErrors = false ↔ ∀ i ∈ r.issues, i.severity ≠ .error := by
  rw [hasErrors, List.any_eq_false]
  simp only [Issue.isError, decide_eq_true_eq, ne_eq]

end Report

namespace Loading
variable {α β : Type}

def Appends (l : Loading α) : Prop :=
  ∀ log, l.run.run log = (l.outcome, log ++ l.events)

theorem Appends.pure (a : α) : Appends (pure a : Loading α) := by
  intro log
  change (Except.ok a, log) = (Except.ok a, log ++ [])
  rw [List.append_nil]

theorem Appends.throw (e : LoadError) : Appends (throw e : Loading α) := by
  intro log
  change (Except.error e, log) = (Except.error e, log ++ [])
  rw [List.append_nil]

theorem Appends.logAll (es : List Log.Event) : Appends (logAll es) := fun _ => rfl

theorem Appends.log (e : Log.Event) : Appends (log e) := Appends.logAll [e]

theorem run_bind (l : Loading α) (f : α → Loading β) (log : List Log.Event) :
    (l >>= f).run.run log = match l.run.run log with
      | (.ok a, log') => (f a).run.run log'
      | (.error e, log') => (.error e, log') := by
  simp only [bind, ExceptT.bind, ExceptT.mk, ExceptT.run, StateT.run, StateT.bind]
  rcases l log with ⟨_ | _, _⟩ <;> rfl

section Bind
variable {l : Loading α} {f : α → Loading β} (hl : l.Appends) (hf : ∀ a, (f a).Appends)
include hl

theorem run_bind_of_ok {a : α} (h : l.outcome = .ok a) (hf : (f a).Appends)
    (log : List Log.Event) :
    (l >>= f).run.run log = ((f a).outcome, log ++ (l.events ++ (f a).events)) := by
  rw [run_bind, hl log, h, ← List.append_assoc]
  exact hf _

theorem run_bind_of_error {e : LoadError} (h : l.outcome = .error e) (log : List Log.Event) :
    (l >>= f).run.run log = (.error e, log ++ l.events) := by
  rw [run_bind, hl log, h]

theorem outcome_bind_of_ok {a : α} (h : l.outcome = .ok a) (hf : (f a).Appends) :
    (l >>= f).outcome = (f a).outcome := by
  rw [outcome, run_bind_of_ok hl h hf]

theorem events_bind_of_ok {a : α} (h : l.outcome = .ok a) (hf : (f a).Appends) :
    (l >>= f).events = l.events ++ (f a).events := by
  rw [events, run_bind_of_ok hl h hf, List.nil_append]

theorem outcome_bind_of_error {e : LoadError} (h : l.outcome = .error e) :
    (l >>= f).outcome = .error e := by
  rw [outcome, run_bind_of_error hl h]

theorem events_bind_of_error {e : LoadError} (h : l.outcome = .error e) :
    (l >>= f).events = l.events := by
  rw [events, run_bind_of_error hl h, List.nil_append]

include hf

theorem Appends.bind : (l >>= f).Appends := by
  intro log
  cases h : l.outcome with
  | ok a =>
    rw [run_bind_of_ok hl h (hf a), outcome_bind_of_ok hl h (hf a), events_bind_of_ok hl h (hf a)]
  | error e =>
    rw [run_bind_of_error hl h, outcome_bind_of_error hl h, events_bind_of_error hl h]

theorem outcome_bind : (l >>= f).outcome = l.outcome.bind fun a => (f a).outcome := by
  cases h : l.outcome with
  | ok a => exact outcome_bind_of_ok hl h (hf a)
  | error e => exact outcome_bind_of_error hl h

end Bind

end Loading

theorem decodeLogged_appends (format : Format) (text : String) :
    (decodeLogged format text).Appends := by
  unfold decodeLogged
  split
  · exact (Loading.Appends.logAll _).bind fun _ => .pure _
  · exact .throw _

theorem decodeLogged_outcome (format : Format) (text : String) :
    (decodeLogged format text).outcome =
      ((decode format text).map (·.site)).mapError .undecodable := by
  unfold decodeLogged
  cases decode format text <;> rfl

namespace Workspace
variable (w : Workspace)

theorem resolve_appends (path : Option String) : (w.resolve path).Appends := by
  unfold resolve
  split
  · exact .pure _
  · split
    · exact (Loading.Appends.log _).bind fun _ => .pure _
    · exact .throw _

theorem readSite_appends (path : String) : (w.readSite path).Appends := by
  unfold readSite
  split
  · exact .throw _
  · split
    · exact .throw _
    · refine (Loading.Appends.log _).bind fun _ => ?_
      split
      · exact decodeLogged_appends _ _
      · exact .throw _

/-- Everything that loading does before it validates. -/
def findSite (path : Option String) : Loading Site := do
  w.readSite (← w.resolve path)

/-- A site with an override, together with its report, unless it has errors. -/
def accept (s : Site) : Except LoadError (Site × Report) :=
  if s.validate.hasErrors then .error (.invalid s.validate) else .ok (s, s.validate)

/-- The last stage of loading: a site is refused for its errors, or else its warnings are logged. -/
def settle (path : String) (s : Site) : Loading (Site × Report) := do
  if s.validate.hasErrors then throw (.invalid s.validate)
  Loading.logAll (s.validate.warnings.map (.warned · path))
  return (s, s.validate)

theorem loadReported_eq (path basePath : Option String) :
    w.loadReported path basePath = w.resolve path >>= fun p => w.readSite p >>= fun s =>
      settle p (s.withBasePath basePath) := by
  rfl

theorem settle_appends (path : String) (s : Site) : (settle path s).Appends := by
  unfold settle
  split
  · exact .throw _
  · exact (Loading.Appends.logAll _).bind fun _ => .pure _

theorem settle_outcome (path : String) (s : Site) : (settle path s).outcome = accept s := by
  unfold settle accept
  split <;> rfl

theorem loadReported_appends (path basePath : Option String) :
    (w.loadReported path basePath).Appends := by
  rw [loadReported_eq]
  exact (w.resolve_appends path).bind fun p => (w.readSite_appends p).bind fun s =>
    settle_appends p _

theorem loadReported_outcome (path basePath : Option String) :
    (w.loadReported path basePath).outcome =
      (w.findSite path).outcome.bind fun s => accept (s.withBasePath basePath) := by
  rw [loadReported_eq, findSite, Loading.outcome_bind (w.resolve_appends path) fun p =>
      (w.readSite_appends p).bind fun s => settle_appends p _,
    Loading.outcome_bind (w.resolve_appends path) w.readSite_appends]
  cases (w.resolve path).outcome with
  | error e => rfl
  | ok p =>
    change (w.readSite p >>= fun s => settle p (s.withBasePath basePath)).outcome = _
    rw [Loading.outcome_bind (w.readSite_appends p) fun s => settle_appends p _]
    simp only [settle_outcome]
    rfl

theorem load_outcome (path basePath : Option String) :
    (w.load path basePath).outcome = (w.loadReported path basePath).outcome.map (·.1) := by
  rw [load, Loading.outcome_bind (w.loadReported_appends path basePath) fun _ => .pure _]
  cases (w.loadReported path basePath).outcome <;> rfl

section File
variable {w} {config basePath : Option String} {path text : String} {f : Format} {s : Site}

theorem readText_file (text : String) : readText (.file text.toUTF8) = .ok text := by
  have hvalid : text.toUTF8.IsValidUTF8 := text.isValidUTF8
  rw [readText, String.fromUTF8?, dif_pos hvalid]
  rfl

theorem eq_toUTF8_of_fromUTF8? {content : ByteArray} (h : String.fromUTF8? content = some text) :
    content = text.toUTF8 := by
  rw [String.fromUTF8?] at h
  split at h
  · exact congrArg String.toUTF8 (Option.some.inj h)
  · cases h

theorem status_of_readText {status : Status} (h : readText status = .ok text) :
    status = .file text.toUTF8 := by
  cases status with
  | file content =>
    rw [readText] at h
    split at h
    · next hutf8 => rw [eq_toUTF8_of_fromUTF8? hutf8, Except.ok.inj h]
    · cases h
  | _ => cases h

/-- A file of a known format is read by decoding its text. -/
theorem readSite_outcome (hstatus : w.status path = .file text.toUTF8)
    (hformat : Format.ofPath? path = some f) : (w.readSite path).outcome =
      ((decode f text).map (·.site)).mapError .undecodable := by
  rw [readSite, hstatus]
  simp only [hformat, readText_file]
  rw [Loading.outcome_bind (.log _) fun _ => decodeLogged_appends _ _]
  exact decodeLogged_outcome f text

theorem findSite_outcome (hpath : (w.resolve config).outcome = .ok path)
    (hs : (w.readSite path).outcome = .ok s) : (w.findSite config).outcome = .ok s := by
  rw [findSite, Loading.outcome_bind_of_ok (w.resolve_appends config) hpath (w.readSite_appends path),
    hs]

/-- A site that was loaded has no errors. -/
theorem hasErrors_of_load (h : (w.load config basePath).outcome = .ok s) :
    s.validate.hasErrors = false := by
  rw [load_outcome, loadReported_outcome] at h
  cases hfound : (w.findSite config).outcome with
  | error e => simp [hfound, Except.bind, Except.map] at h
  | ok found =>
    simp only [hfound, Except.bind, accept] at h
    cases herrors : (found.withBasePath basePath).validate.hasErrors with
    | true => simp [herrors, Except.map] at h
    | false =>
      obtain rfl : found.withBasePath basePath = s := by simpa [herrors, Except.map] using h
      exact herrors

theorem load_of_findSite (h : (w.findSite config).outcome = .ok s)
    (hvalid : s.validate.hasErrors = false) : (w.load config none).outcome = .ok s := by
  rw [load_outcome, loadReported_outcome, h]
  simp [Except.bind, accept, Site.withBasePath, hvalid, Except.map]

end File

end Workspace

end SiteNav
