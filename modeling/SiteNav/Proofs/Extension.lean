import Mathlib
import SiteNav.Proofs.FilePath
import SiteNav.Proofs.Loading.Stages

/-!
# The format that a path chooses

A path chooses a format by what stands behind the last dot of its last component, in any case of the
ASCII letters. Neither the directories before that component count nor the slashes and dots behind it.
Main statement: which paths have which format, which paths have the same one, and which have none and so
cannot be read.
-/
namespace SiteNav

namespace FilePath
variable {path name suffix stem ext : List Char}

/-- Slashes, each alone or with a dot behind it. -/
inductive Idles : List Char → Prop
  | nil : Idles []
  | slash {cs : List Char} : Idles cs → Idles ('/' :: cs)
  | dot {cs : List Char} : Idles cs → Idles ('/' :: '.' :: cs)

/-- The name of an entry of a directory, which is neither that directory nor the one above. -/
structure IsName (name : List Char) : Prop where
  slash_notMem : '/' ∉ name
  ne_nil : name ≠ []
  ne_dot : name ≠ ['.']
  ne_dots : name ≠ ['.', '.']

/-! ## File names -/

theorem IsName.components_eq (h : IsName name) : components name = [name] := by
  have hidle : isIdle name = false := by simp [isIdle, h.ne_nil, h.ne_dot]
  rw [components, pieces_eq_singleton h.slash_notMem, List.filter_cons_of_pos (by simp [hidle])]
  rfl

theorem components_append_slash (dir path : List Char) :
    components (dir ++ '/' :: path) = components dir ++ components path := by
  rw [components, pieces_append_slash, List.filter_append]
  rfl

/-- By induction on what follows: each slash ends a piece, and only idle ones come behind it. -/
theorem Idles.exists_pieces (h : Idles suffix) (path : List Char) :
    ∃ ps, pieces (path ++ suffix) = pieces path ++ ps ∧ ∀ p ∈ ps, isIdle p = true := by
  induction h generalizing path with
  | nil => exact ⟨[], by simp, List.forall_mem_nil _⟩
  | @slash cs _ ih =>
    obtain ⟨ps, hps, hidle⟩ := ih []
    refine ⟨[] :: ps, ?_, List.forall_mem_cons.2 ⟨rfl, hidle⟩⟩
    rw [List.nil_append] at hps
    rw [pieces_append_slash, hps]
    rfl
  | @dot cs _ ih =>
    obtain ⟨ps, hps, hidle⟩ := ih ['.']
    refine ⟨['.'] :: ps, ?_, List.forall_mem_cons.2 ⟨rfl, hidle⟩⟩
    rw [List.singleton_append] at hps
    rw [pieces_append_slash, hps]
    rfl

theorem Idles.components_append (h : Idles suffix) (path : List Char) :
    components (path ++ suffix) = components path := by
  obtain ⟨ps, hps, hidle⟩ := h.exists_pieces path
  have hnone : ps.filter (!isIdle ·) = [] := by
    rw [List.filter_eq_nil_iff]
    intro p hp
    simp [hidle p hp]
  rw [components, hps, List.filter_append, hnone, List.append_nil]
  rfl

/-- The file name is the last component, if that does not lead upwards. -/
theorem fileName?_eq (path : List Char) :
    fileName? path = (components path).getLast?.filter (· ≠ ['.', '.']) := by
  have hlast : (components path).getLast? = ((pieces path).reverse.dropWhile isIdle).head? := by
    rw [components, ← List.head?_reverse, ← List.filter_reverse, List.head?_filter,
      List.find?_eq_head?_dropWhile_not]
    simp only [Bool.not_not]
  rw [fileName?, hlast]
  cases (pieces path).reverse.dropWhile isIdle with
  | nil => rfl
  | cons p ps =>
    by_cases hp : p = ['.', '.']
    · simp [hp, Option.filter]
    · simp [hp, Option.filter]

/-- Neither directories nor idle pieces change the file name. -/
theorem IsName.fileName?_eq (h : IsName name) (hsuffix : Idles suffix) (dir : List Char) :
    fileName? (dir ++ '/' :: (name ++ suffix)) = some name ∧ fileName? (name ++ suffix) = some name := by
  have hname : (components (name ++ suffix)).getLast? = some name := by
    rw [hsuffix.components_append, h.components_eq]
    rfl
  constructor
  · rw [FilePath.fileName?_eq, components_append_slash, List.getLast?_append, hname]
    simp [h.ne_dots]
  · rw [FilePath.fileName?_eq, hname]
    simp [h.ne_dots]

/-! ## Extensions -/

theorem splitLastDot_eq_none_iff {cs : List Char} : splitLastDot cs = none ↔ '.' ∉ cs := by
  induction cs with
  | nil => simp [splitLastDot]
  | cons c cs ih =>
    rw [splitLastDot, List.mem_cons, not_or, ← ih]
    cases hcs : splitLastDot cs with
    | some parts => simp
    | none =>
      by_cases hc : c = '.'
      · simp [hc]
      · simp [hc, Ne.symm hc]

theorem eq_append_of_splitLastDot {cs : List Char} (h : splitLastDot cs = some (stem, ext)) :
    cs = stem ++ '.' :: ext ∧ '.' ∉ ext := by
  induction cs generalizing stem with
  | nil => cases h
  | cons c cs ih =>
    rw [splitLastDot] at h
    cases hcs : splitLastDot cs with
    | some parts =>
      obtain ⟨front, back⟩ := parts
      rw [hcs] at h
      cases h
      obtain ⟨rfl, hback⟩ := ih hcs
      exact ⟨rfl, hback⟩
    | none =>
      rw [hcs] at h
      by_cases hc : c = '.'
      · rw [if_pos hc] at h
        cases h
        exact ⟨by rw [hc]; rfl, splitLastDot_eq_none_iff.1 hcs⟩
      · rw [if_neg hc] at h
        cases h

theorem splitLastDot_append (stem : List Char) (h : '.' ∉ ext) :
    splitLastDot (stem ++ '.' :: ext) = some (stem, ext) := by
  induction stem with
  | nil =>
    rw [List.nil_append, splitLastDot, splitLastDot_eq_none_iff.2 h]
    rfl
  | cons c stem ih => rw [List.cons_append, splitLastDot, ih]

theorem extension?_eq_some_iff : extension? path = some ext ↔
    ∃ stem, stem ≠ [] ∧ '.' ∉ ext ∧ fileName? path = some (stem ++ '.' :: ext) := by
  constructor
  · intro h
    unfold extension? at h
    split at h
    · next c stem ext' hsplit =>
      cases h
      obtain ⟨name, hname, hparts⟩ := Option.bind_eq_some_iff.1 hsplit
      obtain ⟨rfl, hdot⟩ := eq_append_of_splitLastDot hparts
      exact ⟨c :: stem, List.cons_ne_nil c stem, hdot, hname⟩
    · cases h
  · rintro ⟨stem, hstem, hdot, hname⟩
    obtain ⟨c, stem, rfl⟩ := List.exists_cons_of_ne_nil hstem
    rw [extension?, hname, Option.bind_some, splitLastDot_append _ hdot]

/-! ## Letters in another case -/

theorem toLower_eq_iff {c d : Char} (hd : d.isAlpha = false) : c.toLower = d ↔ c = d := by
  have hlower : c.isAlpha = false → c.toLower = c := by
    intro hc
    apply Char.toLower_eq_of_not_isUpper
    simp_all [Char.isAlpha]
  constructor
  · rintro rfl
    rw [Char.isAlpha_toLower_eq_isAlpha] at hd
    exact (hlower hd).symm
  · rintro rfl
    exact hlower hd

theorem map_toLower_eq_iff {cs ds : List Char} (hds : ∀ d ∈ ds, d.isAlpha = false) :
    cs.map Char.toLower = ds ↔ cs = ds := by
  induction cs generalizing ds with
  | nil => rfl
  | cons c cs ih =>
    cases ds with
    | nil => simp
    | cons d ds =>
      rw [List.forall_mem_cons] at hds
      rw [List.map_cons, List.cons_eq_cons, List.cons_eq_cons, toLower_eq_iff hds.1, ih hds.2]

theorem pieces_map_toLower (cs : List Char) :
    pieces (cs.map Char.toLower) = (pieces cs).map (·.map Char.toLower) := by
  induction cs with
  | nil => rfl
  | cons c cs ih =>
    rw [List.map_cons, pieces, pieces, ih]
    by_cases hc : c = '/'
    · rw [if_pos ((toLower_eq_iff rfl).2 hc), if_pos hc]
      rfl
    · rw [if_neg (mt (toLower_eq_iff rfl).1 hc), if_neg hc]
      cases pieces cs with
      | nil => rfl
      | cons p ps => rfl

theorem isIdle_map_toLower (p : List Char) : isIdle (p.map Char.toLower) = isIdle p := by
  have hdot : p.map Char.toLower = ['.'] ↔ p = ['.'] := map_toLower_eq_iff (by simp)
  rw [Bool.eq_iff_iff]
  simp [isIdle, hdot]

theorem components_map_toLower (path : List Char) :
    components (path.map Char.toLower) = (components path).map (·.map Char.toLower) := by
  rw [components, components, pieces_map_toLower, List.filter_map]
  simp only [Function.comp_def, isIdle_map_toLower]

theorem fileName?_map_toLower (path : List Char) :
    fileName? (path.map Char.toLower) = (fileName? path).map (·.map Char.toLower) := by
  have hdots : ∀ p : List Char, p.map Char.toLower = ['.', '.'] ↔ p = ['.', '.'] :=
    fun p => map_toLower_eq_iff (by simp)
  rw [fileName?_eq, fileName?_eq, components_map_toLower, List.getLast?_map, Option.filter_map]
  simp only [Function.comp_def, ne_eq, hdots]

theorem splitLastDot_map_toLower (cs : List Char) : splitLastDot (cs.map Char.toLower) =
    (splitLastDot cs).map (Prod.map (·.map Char.toLower) (·.map Char.toLower)) := by
  cases hcs : splitLastDot cs with
  | none =>
    rw [splitLastDot_eq_none_iff] at hcs
    rw [Option.map_none, splitLastDot_eq_none_iff, List.mem_map]
    rintro ⟨c, hc, hdot⟩
    exact hcs ((toLower_eq_iff rfl).1 hdot ▸ hc)
  | some parts =>
    obtain ⟨stem, ext⟩ := parts
    obtain ⟨rfl, hext⟩ := eq_append_of_splitLastDot hcs
    rw [List.map_append, List.map_cons]
    apply splitLastDot_append
    rw [List.mem_map]
    rintro ⟨c, hc, hdot⟩
    exact hext ((toLower_eq_iff rfl).1 hdot ▸ hc)

theorem extension?_map_toLower (path : List Char) :
    extension? (path.map Char.toLower) = (extension? path).map (·.map Char.toLower) := by
  rw [extension?, extension?, fileName?_map_toLower]
  cases fileName? path with
  | none => rfl
  | some name =>
    rw [Option.map_some, Option.bind_some, Option.bind_some, splitLastDot_map_toLower]
    rcases splitLastDot name with _ | ⟨_ | ⟨c, stem⟩, ext⟩ <;> rfl

end FilePath

namespace Format
open FilePath
variable {f : Format} {ext : List Char} {path : String}

/-- The extensions of files in a format. -/
def extensions : Format → List (List Char)
  | toml => ["toml".toList]
  | json => ["json".toList]
  | yaml => ["yaml".toList, "yml".toList]

theorem ofExtension?_eq_some_iff :
    ofExtension? ext = some f ↔ ext.map Char.toLower ∈ f.extensions := by
  simp only [ofExtension?, beq_iff_eq, Bool.or_eq_true, ← String.toList_inj, String.toList_ofList]
  generalize ext.map Char.toLower = lower
  constructor
  · intro h
    split_ifs at h with htoml hjson hyaml
    · cases h
      exact List.mem_singleton.2 htoml
    · cases h
      exact List.mem_singleton.2 hjson
    · cases h
      rw [extensions, List.mem_cons, List.mem_singleton]
      exact hyaml
  · intro h
    cases f with
    | toml => rw [List.mem_singleton.1 h]; decide
    | json => rw [List.mem_singleton.1 h]; decide
    | yaml =>
      rw [extensions, List.mem_cons, List.mem_singleton] at h
      rcases h with rfl | rfl <;> decide

/-- Extensions are written in ASCII, and what is not ASCII has no case here. -/
theorem ofExtension?_eq_none {c : Char} (hc : c ∈ ext) (hascii : 128 ≤ c.toNat) :
    ofExtension? ext = none := by
  have hsame : c.toLower = c := by
    apply Char.toLower_eq_of_not_isUpper
    simp only [Char.isUpper, decide_eq_true_eq, not_and, UInt32.le_iff_toNat_le]
    change _ → ¬c.toNat ≤ 90
    omega
  cases h : ofExtension? ext with
  | none => rfl
  | some f =>
    have hmem := List.mem_map_of_mem (f := Char.toLower) hc
    rw [hsame] at hmem
    have hwords : ∀ word ∈ f.extensions, ∀ c ∈ word, c.toNat < 128 := by
      cases f <;> simp [extensions]
    have := hwords _ (ofExtension?_eq_some_iff.1 h) c hmem
    omega

theorem ofExtension?_map_toLower (ext : List Char) :
    ofExtension? (ext.map Char.toLower) = ofExtension? ext := by
  rw [ofExtension?, ofExtension?, List.map_map]
  simp only [Function.comp_def, Char.toLower_toLower_eq_toLower]

theorem ofPath?_congr {path path' : String} (h : fileName? path.toList = fileName? path'.toList) :
    ofPath? path = ofPath? path' := by
  rw [ofPath?, ofPath?, extension?, extension?, h]

theorem ofPath?_eq_some_iff : ofPath? path = some f ↔ ∃ stem ext, stem ≠ [] ∧ '.' ∉ ext ∧
    fileName? path.toList = some (stem ++ '.' :: ext) ∧ ext.map Char.toLower ∈ f.extensions := by
  rw [ofPath?, Option.bind_eq_some_iff]
  simp only [extension?_eq_some_iff, ofExtension?_eq_some_iff]
  constructor
  · rintro ⟨ext, ⟨stem, hstem, hdot, hname⟩, hext⟩
    exact ⟨stem, ext, hstem, hdot, hname, hext⟩
  · rintro ⟨stem, ext, hstem, hdot, hname, hext⟩
    exact ⟨ext, ⟨stem, hstem, hdot, hname⟩, hext⟩

theorem ofPath?_eq_of_map_toLower_eq {path path' : String}
    (h : path.toList.map Char.toLower = path'.toList.map Char.toLower) :
    ofPath? path = ofPath? path' := by
  have hlower : ∀ path : String,
      ofPath? path = (extension? (path.toList.map Char.toLower)).bind ofExtension? := by
    intro path
    rw [ofPath?, extension?_map_toLower, Option.bind_map]
    simp only [Function.comp_def, ofExtension?_map_toLower]
  rw [hlower, hlower, h]

theorem ofPath?_eq_none_of_fileName? (h : fileName? path.toList = none) : ofPath? path = none := by
  rw [ofPath?, extension?, h]
  rfl

end Format

/-- What is there is refused for its format exactly if it has none. -/
theorem Workspace.readSite_unsupportedFormat_iff {w : Workspace} {path : String}
    (h : w.status path ≠ .missing) :
    (w.readSite path).outcome = .error (.unsupportedFormat path) ↔ Format.ofPath? path = none := by
  constructor
  · intro hrefused
    have hload : (w.loadReported (some path) none).outcome = .error (.unsupportedFormat path) :=
      loadReported_of_error (.given path) hrefused
    cases loadReported_eq_error_iff.1 hload with
    | unsupportedFormat _ _ hformat => exact hformat
  · exact readSite_of_format_eq_none h

namespace Format
open FilePath

/-- A path has the format of its file name, whatever comes before and behind it. The name has one if
something stands before its last dot and one of the extensions behind it, in any case of the letters. A
path whose last component leads upwards, or that has none, is refused. -/
theorem ofPath?_of_last_component :
    (∀ dir name suffix, IsName name → Idles suffix →
      ofPath? (String.ofList (dir ++ '/' :: (name ++ suffix))) = ofPath? (String.ofList name) ∧
      ofPath? (String.ofList (name ++ suffix)) = ofPath? (String.ofList name)) ∧
    (∀ name f, IsName name → (ofPath? (String.ofList name) = some f ↔
      ∃ stem ext, stem ≠ [] ∧ '.' ∉ ext ∧ name = stem ++ '.' :: ext ∧
        ext.map Char.toLower ∈ f.extensions)) ∧
    (∀ path path' : String, path.toList.map Char.toLower = path'.toList.map Char.toLower →
      ofPath? path = ofPath? path') ∧
    (∀ stem ext c, IsName (stem ++ '.' :: ext) → '.' ∉ ext → c ∈ ext → 128 ≤ c.toNat →
      ofPath? (String.ofList (stem ++ '.' :: ext)) = none) ∧
    (∀ path : String, components path.toList = [] ∨ (components path.toList).getLast? = some ['.', '.'] →
      ofPath? path = none) ∧
    (∀ (w : Workspace) (path : String), w.status path ≠ .missing →
      ((w.readSite path).outcome = .error (.unsupportedFormat path) ↔ ofPath? path = none)) := by
  have hfile : ∀ name, IsName name → fileName? name = some name := by
    intro name hname
    have := (hname.fileName?_eq .nil []).2
    rwa [List.append_nil] at this
  refine ⟨?_, ?_, ?_, ?_, ?_, ?_⟩
  · intro dir name suffix hname hsuffix
    obtain ⟨hunder, halone⟩ := hname.fileName?_eq hsuffix dir
    constructor
    · apply ofPath?_congr
      rw [String.toList_ofList, String.toList_ofList, hunder, hfile name hname]
    · apply ofPath?_congr
      rw [String.toList_ofList, String.toList_ofList, halone, hfile name hname]
  · intro name f hname
    rw [ofPath?_eq_some_iff]
    simp only [String.toList_ofList, hfile name hname, Option.some.injEq]
  · intro path path' h
    exact ofPath?_eq_of_map_toLower_eq h
  · intro stem ext c hname hdot hc hascii
    cases hf : ofPath? (String.ofList (stem ++ '.' :: ext)) with
    | none => rfl
    | some f =>
      obtain ⟨stem', ext', -, hdot', hparts, hext⟩ := ofPath?_eq_some_iff.1 hf
      rw [String.toList_ofList, hfile _ hname] at hparts
      have hsplit := splitLastDot_append stem hdot
      rw [Option.some.inj hparts, splitLastDot_append stem' hdot'] at hsplit
      cases hsplit
      have hnone := ofExtension?_eq_none hc hascii
      rw [ofExtension?_eq_some_iff.2 hext] at hnone
      cases hnone
  · intro path h
    apply ofPath?_eq_none_of_fileName?
    rw [fileName?_eq]
    rcases h with h | h
    · rw [h]
      rfl
    · rw [h]
      simp [Option.filter]
  · intro w path h
    exact Workspace.readSite_unsupportedFormat_iff h

/-- A file under a directory with a dot in it, with idle pieces behind. -/
theorem ofPath?_of_last_component_docs :
    ofPath? (String.ofList ("docs.yml".toList ++ '/' :: ("nav.JSON".toList ++ "//.".toList))) =
      ofPath? (String.ofList "nav.JSON".toList) ∧
    (ofPath? (String.ofList "nav.JSON".toList) = some .json ↔
      ∃ stem ext, stem ≠ [] ∧ '.' ∉ ext ∧ "nav.JSON".toList = stem ++ '.' :: ext ∧
        ext.map Char.toLower ∈ extensions .json) ∧
    ofPath? "NAV.Json" = ofPath? "nav.jsON" ∧
    ofPath? (String.ofList ("nav".toList ++ '.' :: "ｊson".toList)) = none ∧
    ofPath? "nav.json/.." = none ∧
    ((⟨⟨fun _ => .directory⟩, "/"⟩ : Workspace).readSite "nav").outcome =
      .error (.unsupportedFormat "nav") := by
  have hname : ∀ name ∈ ["nav.JSON".toList, "nav".toList ++ '.' :: "ｊson".toList], IsName name := by
    intro name hname
    simp only [List.mem_cons, List.not_mem_nil, or_false] at hname
    rcases hname with rfl | rfl <;> exact ⟨by decide, by decide, by decide, by decide⟩
  have hjson := hname _ List.mem_cons_self
  have hwide := hname _ (List.mem_cons_of_mem _ List.mem_cons_self)
  obtain ⟨hplace, hchoice, hcase, hascii, habove, hread⟩ := ofPath?_of_last_component
  refine ⟨(hplace _ _ _ hjson (.slash (.dot .nil))).1, hchoice _ .json hjson, hcase _ _ (by decide),
    hascii _ _ 'ｊ' hwide (by decide) (by decide) (by decide), habove _ (.inr (by decide)), ?_⟩
  exact (hread _ _ (by simp [Workspace.status])).2 (by decide)

end Format
end SiteNav
