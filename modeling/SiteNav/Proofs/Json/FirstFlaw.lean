import Mathlib
import SiteNav.Codec
import SiteNav.Proofs.Json.Places
import SiteNav.Proofs.Json.Reports

/-!
# The first flaw of a JSON document

Only what is wrong with a site as a whole, that its sidebar is not given exactly once, comes after all
that is wrong with its parts. Main statement: a JSON document whose structures are maps is refused for
the flaw that stands first in it, and if it has none it is refused for the place of its sidebar or not
at all; entries that nobody asks for do not count.
-/
namespace SiteNav.Json
open Document

/-! ## What a document is refused for -/

/-- What is wrong with the place of the sidebar in a site with these fields. -/
def misplaced? (names : List String) : Option Misfit :=
  match decide ("sidebar" ∈ names), decide ("themeConfig" ∈ names) with
  | true, true => some .twoSidebars
  | false, false => some .noSidebar
  | _, _ => none

section Misplaced
variable {names : List String}

theorem of_misplaced?_eq_some {m : Misfit} (h : misplaced? names = some m) :
    (m = .twoSidebars ∧ "sidebar" ∈ names ∧ "themeConfig" ∈ names) ∨
    (m = .noSidebar ∧ "sidebar" ∉ names ∧ "themeConfig" ∉ names) := by
  by_cases hsidebar : "sidebar" ∈ names <;> by_cases htheme : "themeConfig" ∈ names <;>
    simp only [misplaced?, hsidebar, htheme, decide_true, decide_false, Option.some.injEq,
      reduceCtorEq] at h
  · exact .inl ⟨h.symm, hsidebar, htheme⟩
  · exact .inr ⟨h.symm, hsidebar, htheme⟩

theorem of_misplaced?_eq_none (h : misplaced? names = none) :
    "sidebar" ∈ names ↔ "themeConfig" ∉ names := by
  by_cases hsidebar : "sidebar" ∈ names <;> by_cases htheme : "themeConfig" ∈ names <;>
    simp_all [misplaced?]

end Misplaced

theorem reports_site {root : Node} (h : Sound .site root) :
    Reports (dialect.tracking.siteLayout.read dialect.tracking [] root) (root.flaws .site) fun raw =>
      match misplaced? (filled Form.siteMembers root.entries) with
      | some m => raw.settle = .error m
      | none => ∃ s, raw.settle = .ok s := by
  refine (asks_site.read rfl h).weaken ?_
  rintro raw ⟨⟨_ | title, _ | description, _ | basePath, sidebar, themeSidebar⟩, hraw, hdraft⟩
  case some.some.some =>
    obtain rfl := Except.ok.inj hraw
    simp only [Sets, Dialect.siteLayout, List.forall_mem_cons] at hdraft
    obtain ⟨-, -, -, hsidebar, htheme, -⟩ := hdraft
    rw [misplaced?, ← hsidebar, ← htheme]
    cases sidebar <;> cases themeSidebar <;> simp [RawSite.settle]
  all_goals cases hraw

theorem readTracked_of_ok {root : Node} {raw : RawSite} {ps : List Path}
    (h : (dialect.tracking.siteLayout.read dialect.tracking [] root).run [] = .ok (raw, ps)) :
    dialect.readTracked root = (raw.settle.map (·, ps)).mapError (.misfit · none) := by
  have hok : (Except.ok (raw, ps) : Except Error _) = pure (raw, ps) := rfl
  rw [Dialect.readTracked, Dialect.readSite, StateT.run_bind, h, hok, pure_bind]
  dsimp only
  cases raw.settle <;> rfl

/-- A site is refused for its first flaw, and after that for the place of its sidebar. -/
theorem cases_readTracked {root : Node} (h : Sound .site root) :
    (∃ f fs, root.flaws .site = f :: fs ∧
      dialect.readTracked root = .error (.misfit f.1 (some f.2))) ∨
    (root.flaws .site = [] ∧ ∃ m, misplaced? (filled Form.siteMembers root.entries) = some m ∧
      dialect.readTracked root = .error (.misfit m none)) ∨
    (root.flaws .site = [] ∧ misplaced? (filled Form.siteMembers root.entries) = none ∧
      ∃ r, dialect.readTracked root = .ok r) := by
  have hreports := reports_site h
  cases hflaws : root.flaws .site with
  | cons f fs =>
    rw [hflaws] at hreports
    refine .inl ⟨f, fs, rfl, ?_⟩
    rw [Dialect.readTracked, Dialect.readSite, StateT.run_bind, hreports []]
    rfl
  | nil =>
    rw [hflaws] at hreports
    obtain ⟨raw, ps, hrun, hraw⟩ := hreports []
    rw [readTracked_of_ok hrun]
    cases hplace : misplaced? (filled Form.siteMembers root.entries) with
    | some m =>
      have hsettle : raw.settle = .error m := by rwa [hplace] at hraw
      rw [hsettle]
      exact .inr (.inl ⟨rfl, m, rfl, rfl⟩)
    | none =>
      obtain ⟨s, hsettle⟩ : ∃ s, raw.settle = .ok s := by rwa [hplace] at hraw
      rw [hsettle]
      exact .inr (.inr ⟨rfl, rfl, (s, ps), rfl⟩)

/-- The flaw stands before all others. -/
structure IsFirst (fm : Form) (n : Node) (m : Misfit) (pos : Pos) : Prop where
  flaw : Flaw fm n m pos
  before : ∀ m' pos', Flaw fm n m' pos' → (m' = m ∧ pos' = pos) ∨ pos < pos'

theorem isFirst_of_flaws {fm : Form} {n : Node} {f : Misfit × Pos} {fs : List (Misfit × Pos)} {p q : Pos}
    (hspans : n.Spans p q) (h : n.flaws fm = f :: fs) : IsFirst fm n f.1 f.2 := by
  have hclimbs := climbs_flaws n fm hspans
  rw [h] at hclimbs
  refine ⟨mem_flaws_iff.1 (h ▸ List.mem_cons_self), fun m' pos' hflaw => ?_⟩
  have hmem := mem_flaws_iff.2 hflaw
  rw [h, List.mem_cons] at hmem
  obtain rfl | hmem := hmem
  · exact .inl ⟨rfl, rfl⟩
  · exact .inr (hclimbs.lt_of_mem_tail hmem)

/-- A text holds one value and nothing after it, all its keys and scalars have values, and where a
structure is asked for there is no list. -/
structure WellFormed (text : String) (root : Node) (t : Tree) : Prop where
  read : read text.toList = ⟨root, none⟩
  tree : root.tree? = some t
  values : t.all Option.isSome Option.isSome = true
  maps : ¬Positional .site t

theorem WellFormed.decode_eq {text : String} {root : Node} {t : Tree} (h : WellFormed text root t) :
    decode .json text = ((dialect.readTracked root).map .ofTracked).mapError .json := by
  have hread : readWith dialect.readTracked text = dialect.readTracked root := by
    rw [readWith, h.read]
    cases dialect.readTracked root <;> rfl
  rw [decode, hread]

/-- What becomes of a document: it is refused for its first flaw, or if it has none for having its sidebar
in both places or in neither. -/
inductive Verdict (root : Node) : Except DecodeError Decoded → Prop
  | flawed {m : Misfit} {pos : Pos} (h : IsFirst .site root m pos) :
      Verdict root (.error (.json (.misfit m (some pos))))
  | twoSidebars (h : ∀ m pos, ¬Flaw .site root m pos)
      (hsidebar : "sidebar" ∈ filled Form.siteMembers root.entries)
      (htheme : "themeConfig" ∈ filled Form.siteMembers root.entries) :
      Verdict root (.error (.json (.misfit .twoSidebars none)))
  | noSidebar (h : ∀ m pos, ¬Flaw .site root m pos)
      (hsidebar : "sidebar" ∉ filled Form.siteMembers root.entries)
      (htheme : "themeConfig" ∉ filled Form.siteMembers root.entries) :
      Verdict root (.error (.json (.misfit .noSidebar none)))
  | accepted {d : Decoded} (h : ∀ m pos, ¬Flaw .site root m pos)
      (hone : "sidebar" ∈ filled Form.siteMembers root.entries ↔
        "themeConfig" ∉ filled Form.siteMembers root.entries) : Verdict root (.ok d)

theorem not_flaw_of_flaws {root : Node} (h : root.flaws .site = []) (m : Misfit) (pos : Pos) :
    ¬Flaw .site root m pos := by
  rw [← mem_flaws_iff, h]
  exact List.not_mem_nil

theorem WellFormed.verdict {text : String} {root : Node} {t : Tree} (h : WellFormed text root t) :
    Verdict root (decode .json text) := by
  obtain ⟨start, stop, hspans⟩ := exists_spans_of_read h.read h.tree
  rw [h.decode_eq]
  obtain ⟨f, fs, hflaws, hread⟩ | ⟨hflaws, m, hplace, hread⟩ | ⟨hflaws, hplace, r, hread⟩ :=
    cases_readTracked (sound_of_tree? root h.tree h.values h.maps)
  · rw [hread]
    exact .flawed (isFirst_of_flaws hspans hflaws)
  · rw [hread]
    obtain ⟨rfl, hsidebar, htheme⟩ | ⟨rfl, hsidebar, htheme⟩ := of_misplaced?_eq_some hplace
    · exact .twoSidebars (not_flaw_of_flaws hflaws) hsidebar htheme
    · exact .noSidebar (not_flaw_of_flaws hflaws) hsidebar htheme
  · rw [hread]
    exact .accepted (not_flaw_of_flaws hflaws) (of_misplaced?_eq_none hplace)

/-! ## Entries that nobody asks for -/

/-- The keys of a map. -/
def keys : Tree → List (Option String)
  | .map es => es.map (·.1)
  | _ => []

theorem filled_entries {root : Node} {t : Tree} (h : root.tree? = some t) (members : List (Member Form)) :
    filled members root.entries = Form.filled members (keys t) := by
  obtain ⟨_, _, _, rfl, rfl⟩ | ⟨_, _, _, _, rfl, rfl, -⟩ | ⟨_, _, _, _, rfl, rfl, hes⟩ :=
    Node.cases_of_tree? h
  · rfl
  · rfl
  · exact filled_of_forall₂ hes

theorem filled_keys_prune (members : List (Member Form)) (r : Record) (t : Tree) :
    Form.filled members (keys (meaning.prune (Form.record r members).shape t)) =
      Form.filled members (keys t) := by
  cases t with
  | scalar value => rfl
  | list ts => rfl
  | map es => exact filled_pruneEntries members es

/-- What a tree is refused for as a site. -/
def refusal? (t : Tree) : Option Misfit :=
  (misfits t .site).head?.or (misplaced? (Form.filled Form.siteMembers (keys t)))

theorem refusal?_prune (t : Tree) : refusal? (meaning.prune .site t) = refusal? t := by
  rw [refusal?, refusal?, ← Form.shape_site, misfits_prune, Form.site, filled_keys_prune]

/-- Both documents are accepted, or both are refused for the same misfit, wherever it stands. -/
inductive SameVerdict : Except DecodeError Decoded → Except DecodeError Decoded → Prop
  | accepted (d d' : Decoded) : SameVerdict (.ok d) (.ok d')
  | refused (m : Misfit) (pos pos' : Option Pos) :
      SameVerdict (.error (.json (.misfit m pos))) (.error (.json (.misfit m pos')))

namespace WellFormed
variable {text text' : String} {root root' : Node} {t t' : Tree}

theorem decode_of_refusal (h : WellFormed text root t) : match refusal? t with
    | some m => ∃ pos, decode .json text = .error (.json (.misfit m pos))
    | none => ∃ d, decode .json text = .ok d := by
  rw [h.decode_eq, refusal?, ← filled_entries h.tree, ← map_fst_flaws root h.tree]
  obtain ⟨f, fs, hflaws, hread⟩ | ⟨hflaws, m, hplace, hread⟩ | ⟨hflaws, hplace, r, hread⟩ :=
    cases_readTracked (sound_of_tree? root h.tree h.values h.maps)
  · rw [hflaws, hread]
    exact ⟨some f.2, rfl⟩
  · rw [hflaws, hplace, hread]
    exact ⟨none, rfl⟩
  · rw [hflaws, hplace, hread]
    exact ⟨.ofTracked r, rfl⟩

theorem sameVerdict (h : WellFormed text root t) (h' : WellFormed text' root' t')
    (hprune : meaning.prune .site t' = meaning.prune .site t) :
    SameVerdict (decode .json text) (decode .json text') := by
  have hrefusal := h.decode_of_refusal
  have hrefusal' := h'.decode_of_refusal
  rw [← refusal?_prune, hprune, refusal?_prune] at hrefusal'
  cases hm : refusal? t with
  | some m =>
    rw [hm] at hrefusal hrefusal'
    obtain ⟨pos, hdecode⟩ := hrefusal
    obtain ⟨pos', hdecode'⟩ := hrefusal'
    rw [hdecode, hdecode']
    exact .refused m pos pos'
  | none =>
    rw [hm] at hrefusal hrefusal'
    obtain ⟨d, hdecode⟩ := hrefusal
    obtain ⟨d', hdecode'⟩ := hrefusal'
    rw [hdecode, hdecode']
    exact .accepted d d'

end WellFormed

/-- The first flaw of a document decides, then the place of its sidebar; what nobody asks for causes no
refusal and hides none. -/
theorem decode_first_flaw {text : String} {root : Node} {t : Tree} (h : WellFormed text root t) :
    Verdict root (decode .json text) ∧
    ∀ {text' : String} {root' : Node} {t' : Tree}, WellFormed text' root' t' →
      meaning.prune .site t' = meaning.prune .site t →
      SameVerdict (decode .json text) (decode .json text') :=
  ⟨h.verdict, fun h' hprune => h.sameVerdict h' hprune⟩

/-- The title is a list and is given again, and other fields are missing. -/
theorem decode_first_flaw_list :
    let text := "\x7b\"title\":[],\"x\":[],\"title\":\"\"\x7d"
    let text' := "\x7b\"title\":[],\"title\":\"\"\x7d"
    (∃ root t, WellFormed text root t) ∧ (∃ root t, WellFormed text' root t) ∧
    decode .json text = .error (.json (.misfit (.mistyped .list .text) (some ⟨1, 9⟩))) ∧
    SameVerdict (decode .json text) (decode .json text') := by
  intro text text'
  let title : Key × Node := (⟨.ok "title", ⟨1, 8⟩⟩, .list ⟨1, 9⟩ [] (.closed ⟨1, 11⟩))
  let root : Node := .map ⟨1, 0⟩
    [title, (⟨.ok "x", ⟨1, 15⟩⟩, .list ⟨1, 16⟩ [] (.closed ⟨1, 18⟩)),
      (⟨.ok "title", ⟨1, 26⟩⟩, .scalar ⟨1, 27⟩ ⟨1, 29⟩ (.ok (.text "")))] (.closed ⟨1, 30⟩)
  let root' : Node := .map ⟨1, 0⟩
    [title, (⟨.ok "title", ⟨1, 19⟩⟩, .scalar ⟨1, 20⟩ ⟨1, 22⟩ (.ok (.text "")))] (.closed ⟨1, 23⟩)
  let entry : Option String × Tree := (some "title", .scalar (some (.text "")))
  have h : WellFormed text root (.map [(some "title", .list []), (some "x", .list []), entry]) := by
    refine ⟨by cbv, rfl, rfl, fun hlist => ?_⟩
    cases hlist with
    | field ht hs hlist =>
      simp only [entry, List.mem_cons, Prod.mk.injEq, List.not_mem_nil, or_false] at ht
      rcases ht with ⟨rfl, rfl⟩ | ⟨rfl, rfl⟩ | ⟨rfl, rfl⟩ <;> cases hs <;> cases hlist
  have h' : WellFormed text' root' (.map [(some "title", .list []), entry]) := by
    refine ⟨by cbv, rfl, rfl, fun hlist => ?_⟩
    cases hlist with
    | field ht hs hlist =>
      simp only [entry, List.mem_cons, Prod.mk.injEq, List.not_mem_nil, or_false] at ht
      rcases ht with ⟨rfl, rfl⟩ | ⟨rfl, rfl⟩ <;> cases hs <;> cases hlist
  have hflaws : root.flaws .site = [(.mistyped .list .text, ⟨1, 9⟩), (.repeated "title", ⟨1, 26⟩),
      (.missing "description", ⟨1, 30⟩)] := by cbv
  obtain ⟨hverdict, hsame⟩ := decode_first_flaw h
  refine ⟨⟨_, _, h⟩, ⟨_, _, h'⟩, ?_, hsame h' rfl⟩
  have hflaw : Flaw .site root (.mistyped .list .text) ⟨1, 9⟩ := by
    rw [← mem_flaws_iff, hflaws]
    exact List.mem_cons_self
  generalize decode .json text = outcome at hverdict
  cases hverdict with
  | flawed hfirst =>
    obtain ⟨rfl, rfl⟩ | hlt := hfirst.before _ _ hflaw
    · rfl
    · have hmem := mem_flaws_iff.2 hfirst.flaw
      rw [hflaws] at hmem
      simp only [List.mem_cons, Prod.mk.injEq, List.not_mem_nil, or_false] at hmem
      rcases hmem with ⟨-, rfl⟩ | ⟨-, rfl⟩ | ⟨-, rfl⟩ <;> simp [Pos.lt_iff] at hlt
  | twoSidebars hnone | noSidebar hnone | accepted hnone => exact absurd hflaw (hnone _ _)

end SiteNav.Json
