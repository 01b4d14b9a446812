import SiteNav.Proofs.Discovery.Nearest
import SiteNav.Proofs.Loading.Stages

/-!
# Loading a discovered site

A path that discovery returns leads to something and ends in the standard name, whatever the directory
before it is called. So its format is known, and the stages of loading that ask for these cannot fail.
Main statement: a site that is discovered is loaded as if its path were given, and without a path there
are only four kinds of errors.
-/
namespace SiteNav

namespace FilePath
variable {dir name : List Char}

theorem join_of_isAbsolute (h : isAbsolute name = true) : join dir name = name :=
  if_pos h

theorem isAbsolute_join (h : isAbsolute dir = true) : isAbsolute (join dir name) = true := by
  cases dir with
  | nil => cases h
  | cons c cs =>
    obtain rfl : c = '/' := by simpa [isAbsolute] using h
    unfold join
    split
    · assumption
    · split <;> rfl

/-- A proper name put below a directory is the file name, however the directory is written. -/
theorem fileName?_join (dir : List Char) (hslash : '/' ∉ name) (hidle : isIdle name = false)
    (habove : name ≠ ['.', '.']) : fileName? (join dir name) = some name := by
  obtain ⟨ps, hpieces, -⟩ := exists_pieces_join dir hslash
  have hreverse : (pieces (join dir name)).reverse.dropWhile isIdle = name :: ps.reverse := by
    rw [hpieces, List.reverse_append, List.reverse_singleton, List.singleton_append,
      List.dropWhile_cons_of_neg (by simp [hidle])]
  rw [fileName?, hreverse]
  exact if_neg (by simpa using habove)

end FilePath

namespace FileSystem
variable {fs : FileSystem} {start p : List Char}

theorem ofPath?_join_standardName (dir : List Char) :
    Format.ofPath? (String.ofList (FilePath.join dir standardName)) = some .toml := by
  have hname : FilePath.fileName? (FilePath.join dir standardName) = some standardName :=
    FilePath.fileName?_join dir (by decide) (by decide) (by decide)
  rw [Format.ofPath?, String.toList_ofList, FilePath.extension?, hname]
  decide

theorem holds_of_discover (h : fs.discover start = some p) : fs.holds p = true :=
  List.find?_some h

theorem isAbsolute_of_discover (hstart : FilePath.isAbsolute start = true)
    (h : fs.discover start = some p) : FilePath.isAbsolute p = true := by
  obtain ⟨n, dir, hnearest, rfl⟩ := discover_eq_some_iff.1 h
  exact FilePath.isAbsolute_join (FilePath.isAbsolute_of_climb hstart hnearest.climb)

theorem ofPath?_of_discover (h : fs.discover start = some p) :
    Format.ofPath? (String.ofList p) = some .toml := by
  obtain ⟨n, dir, -, rfl⟩ := discover_eq_some_iff.1 h
  exact ofPath?_join_standardName dir

end FileSystem

/-- Once a file in TOML is there, it can be refused for these. -/
inductive LoadError.OfToml : LoadError → Prop
  | unreadable (e : ReadError) : OfToml (.unreadable e)
  | undecodable (e : Toml.Error) (text : String) : OfToml (.undecodable (.toml e text))
  | invalid (r : Report) : OfToml (.invalid r)

namespace Workspace
variable {w : Workspace} {path basePath : Option String} {p : List Char}

theorem status_of_isAbsolute (h : FilePath.isAbsolute p = true) :
    w.status (String.ofList p) = w.files.status p := by
  have hne : String.ofList p ≠ "" := by
    intro hempty
    obtain rfl : p = [] := String.ofList_injective hempty
    cases h
  rw [status, if_neg hne, String.toList_ofList, FilePath.join_of_isAbsolute h]

theorem status_of_discover (hdir : FilePath.isAbsolute w.directory.toList = true)
    (h : w.files.discover w.directory.toList = some p) : w.status (String.ofList p) ≠ .missing := by
  have habsolute : FilePath.isAbsolute p = true := FileSystem.isAbsolute_of_discover hdir h
  have hholds : w.files.holds p = true := FileSystem.holds_of_discover h
  rw [status_of_isAbsolute habsolute]
  intro hmissing
  rw [FileSystem.holds, hmissing] at hholds
  cases hholds

/-- Of the errors at and after the file, only the two that ask for it and for its format are ruled
out. -/
theorem Fails.ofToml {e : LoadError} (h : w.Fails path basePath e) {p : String} (hp : w.Finds path p)
    (hthere : w.status p ≠ .missing) (hformat : Format.ofPath? p = some .toml) : e.OfToml := by
  have hunique : ∀ q, w.Finds path q → q = p := by
    intro q hq
    exact Except.ok.inj ((resolve_outcome_iff.2 hq).symm.trans (resolve_outcome_iff.2 hp))
  cases h with
  | notDiscovered hpath hfound =>
    subst hpath
    cases hp with
    | discovered hsome => cases hfound.symm.trans hsome
  | notFound hq hstatus => exact absurd (hunique _ hq ▸ hstatus) hthere
  | unsupportedFormat hq _ hnone => cases (hunique _ hq ▸ hnone).symm.trans hformat
  | isDirectory => exact .unreadable _
  | notUnicode => exact .unreadable _
  | refused => exact .unreadable _
  | undecodable hopens hdecode =>
    have htoml := hunique _ hopens.finds ▸ hopens.format
    obtain rfl := Option.some.inj (htoml.symm.trans hformat)
    have hkind := format_of_decode hdecode
    cases ‹DecodeError› with
    | toml e text => exact .undecodable e text
    | json e => cases hkind
    | yaml e => cases hkind
  | invalid => exact .invalid _

section Found
variable (h : w.files.discover w.directory.toList = some p)
include h

theorem resolve_of_discover :
    w.resolve none = Loading.log (.discovered (String.ofList p)) >>= fun _ => pure (String.ofList p) := by
  rw [resolve, h]

theorem loadReported_of_discover (basePath : Option String) :
    w.loadReported none basePath = Loading.log (.discovered (String.ofList p)) >>= fun _ =>
      w.loadReported (some (String.ofList p)) basePath := by
  rw [loadReported_eq, resolve_of_discover h]
  rfl

end Found

/-- A site that is discovered is loaded as if its path were given, but for the event that says so, and
fails only as a TOML file that is there does. Where none is discovered, loading fails with the
directory. -/
theorem loadReported_none (w : Workspace) (hdir : FilePath.isAbsolute w.directory.toList = true)
    (basePath : Option String) :
    (∀ p, w.files.discover w.directory.toList = some p →
      (w.loadReported none basePath).outcome =
        (w.loadReported (some (String.ofList p)) basePath).outcome ∧
      (w.loadReported none basePath).events =
        .discovered (String.ofList p) :: (w.loadReported (some (String.ofList p)) basePath).events ∧
      ∀ e, (w.loadReported none basePath).outcome = .error e → e.OfToml) ∧
    (w.files.discover w.directory.toList = none →
      (w.loadReported none basePath).outcome = .error (.notDiscovered w.directory)) ∧
    ∀ e, (w.loadReported none basePath).outcome = .error e →
      e = .notDiscovered w.directory ∨ e.OfToml := by
  have hnone : w.files.discover w.directory.toList = none →
      (w.loadReported none basePath).outcome = .error (.notDiscovered w.directory) :=
    fun h => (Fails.notDiscovered rfl h).outcome
  have herror : ∀ p, w.files.discover w.directory.toList = some p →
      ∀ e, (w.loadReported none basePath).outcome = .error e → e.OfToml := by
    intro p h e he
    exact (loadReported_eq_error_iff.1 he).ofToml (.discovered h) (status_of_discover hdir h)
      (FileSystem.ofPath?_of_discover h)
  refine ⟨fun p h => ?_, hnone, fun e he => ?_⟩
  · have hgiven := w.loadReported_appends (some (String.ofList p)) basePath
    have hlog := Loading.Appends.log (.discovered (String.ofList p))
    refine ⟨?_, ?_, herror p h⟩
    · rw [loadReported_of_discover h, Loading.outcome_bind_of_ok hlog rfl hgiven]
    · rw [loadReported_of_discover h, Loading.events_bind_of_ok hlog rfl hgiven]
      rfl
  · cases h : w.files.discover w.directory.toList with
    | none => exact .inl (Except.error.inj (he.symm.trans (hnone h)))
    | some p => exact .inr (herror p h e he)

/-- The site file is in the directory above, whose name ends as that of a file in JSON. -/
theorem loadReported_none_above :
    let found := "/a//b.json/docnav.toml".toList
    let w (s : Status) : Workspace := ⟨⟨fun p => if p = found then s else .missing⟩, "/a//b.json/./c"⟩
    FilePath.isAbsolute "/a//b.json/./c".toList = true ∧
      (∀ content basePath, ((w (.file content)).loadReported none basePath).outcome =
        ((w (.file content)).loadReported (some "/a//b.json/docnav.toml") basePath).outcome) ∧
      LoadError.OfToml (.unreadable .isDirectory) ∧
      ((w .directory).loadReported none none).outcome = .error (.unreadable .isDirectory) ∧
      ((w .missing).loadReported none none).outcome = .error (.notDiscovered "/a//b.json/./c") := by
  intro found w
  have hdir : FilePath.isAbsolute "/a//b.json/./c".toList = true := by decide
  have hparent : FilePath.parent? "/a//b.json/./c".toList = some "/a//b.json".toList := by decide
  have hfound : ∀ s, s ≠ .missing →
      (w s).files.discover (w s).directory.toList = some found := by
    intro s hs
    have hthere : (w s).files.holds found = true := by
      cases s with
      | missing => exact absurd rfl hs
      | directory => rfl
      | file content => rfl
      | unreadable reason => rfl
    exact ((FileSystem.Nearest.here hthere).above hparent rfl).discover_eq
  have hmissing : (w .missing).files.discover (w .missing).directory.toList = none := by
    rw [FileSystem.discover_eq_none_iff]
    intro n dir hclimb
    simp only [FileSystem.holds, w, ite_self]
  have hdirectory : ((w .directory).loadReported none none).outcome =
      .error (.unreadable .isDirectory) := by
    have hstatus : (w .directory).status (String.ofList found) = .directory := by
      rw [status_of_isAbsolute (by decide)]
      simp only [w, if_pos]
    have hthere := hfound .directory (by simp)
    exact (Fails.isDirectory (.discovered hthere) hstatus (FileSystem.ofPath?_of_discover hthere)).outcome
  refine ⟨hdir, fun content basePath => ?_, ?_, hdirectory, ?_⟩
  · exact ((loadReported_none (w (.file content)) hdir basePath).1 found (hfound _ (by simp))).1
  · exact ((loadReported_none (w .directory) hdir none).1 found (hfound _ (by simp))).2.2 _ hdirectory
  · exact (loadReported_none (w .missing) hdir none).2.1 hmissing

end Workspace

end SiteNav
