import SiteNav.Proofs.Document.Yields

/-!
# Which trees are sites

A tree is an item, a group, a themed sidebar or a site if it holds the values of its fields, each under
one of its names and once, or where structures are positional, as a list in declared order. Nothing is
said about strays. Main statements: a site is read from a tree exactly if the tree is that site and its
strays are in nobody's way, and then the paths kept are those of the strays; a tree is the same site
without its strays.
-/
namespace SiteNav.Document
variable {κ σ : Type} (M : Meaning κ σ)

namespace Meaning

def IsText (t : Tree κ σ) (s : String) : Prop :=
  ∃ v, t = .scalar v ∧ M.text v = some s

def IsFlag (t : Tree κ σ) (c : Option Bool) : Prop :=
  ∃ v, t = .scalar v ∧ M.flag v = some c

/-- A flag that may be left out. -/
def MayBeFlag (ts : List (Tree κ σ)) (c : Option Bool) : Prop :=
  (ts = [] ∧ c = none) ∨ ∃ t, ts = [t] ∧ M.IsFlag t c

/-- A list of such values, for which a void may stand if there are none. -/
def IsList {α : Type} (P : Tree κ σ → α → Prop) : Tree κ σ → List α → Prop
  | .list ts, as => List.Forall₂ P ts as
  | .scalar v, as => M.isLost v = false ∧ M.isVoid v = true ∧ as = []
  | .map _, _ => False

/-- A structure may be written as a list that ends like this. -/
def MayEnd (rest : List (Tree κ σ)) : Prop :=
  M.positional = true ∧ (M.exact = true → rest = [])

inductive IsItem : Tree κ σ → Item → Prop
  | map {es : List (κ × Tree κ σ)} {t l : Tree κ σ} {text link : String} :
      M.values ["text"] es = [t] → M.IsText t text → M.values ["link"] es = [l] → M.IsText l link →
      IsItem (.map es) ⟨text, link⟩
  | list {t l : Tree κ σ} {rest : List (Tree κ σ)} {text link : String} :
      M.MayEnd rest → M.IsText t text → M.IsText l link → IsItem (.list (t :: l :: rest)) ⟨text, link⟩

inductive IsGroup : Tree κ σ → Group → Prop
  | map {es : List (κ × Tree κ σ)} {t i : Tree κ σ} {text : String} {collapsible : Option Bool}
      {items : List Item} : M.values ["text"] es = [t] → M.IsText t text →
      M.MayBeFlag (M.values ["collapsible"] es) collapsible →
      M.values ["items"] es = [i] → M.IsList M.IsItem i items →
      IsGroup (.map es) ⟨text, collapsible, items⟩
  | list {t c i : Tree κ σ} {rest : List (Tree κ σ)} {text : String} {collapsible : Option Bool}
      {items : List Item} : M.MayEnd rest → M.IsText t text → M.IsFlag c collapsible →
      M.IsList M.IsItem i items → IsGroup (.list (t :: c :: i :: rest)) ⟨text, collapsible, items⟩

inductive IsTheme : Tree κ σ → List Group → Prop
  | map {es : List (κ × Tree κ σ)} {s : Tree κ σ} {sidebar : List Group} :
      M.values ["sidebar"] es = [s] → M.IsList M.IsGroup s sidebar → IsTheme (.map es) sidebar
  | list {s : Tree κ σ} {rest : List (Tree κ σ)} {sidebar : List Group} :
      M.MayEnd rest → M.IsList M.IsGroup s sidebar → IsTheme (.list (s :: rest)) sidebar

/-- The sidebar of a site stands among its entries, in one of its two places. -/
inductive HasSidebar (es : List (κ × Tree κ σ)) (sidebar : List Group) : Prop
  | plain {s : Tree κ σ} : M.values ["sidebar"] es = [s] →
      M.values ["themeConfig", "theme_config"] es = [] → M.IsList M.IsGroup s sidebar →
      HasSidebar es sidebar
  | themed {s : Tree κ σ} : M.values ["sidebar"] es = [] →
      M.values ["themeConfig", "theme_config"] es = [s] → M.IsTheme s sidebar →
      HasSidebar es sidebar

inductive IsSite : Tree κ σ → Site → Prop
  | map {es : List (κ × Tree κ σ)} {t d b : Tree κ σ} {title description basePath : String}
      {sidebar : List Group} : M.values ["title"] es = [t] → M.IsText t title →
      M.values ["description"] es = [d] → M.IsText d description →
      M.values ["basePath", "base_path", "base"] es = [b] → M.IsText b basePath →
      M.HasSidebar es sidebar → IsSite (.map es) ⟨title, description, basePath, sidebar⟩
  | list {t d b s : Tree κ σ} {title description basePath : String} {sidebar : List Group} :
      M.positional = true → M.IsText t title → M.IsText d description → M.IsText b basePath →
      M.IsList M.IsGroup s sidebar →
      IsSite (.list [t, d, b, s]) ⟨title, description, basePath, sidebar⟩

/-! ## Slots of the four structures -/

def itemSlots : List (Slot κ σ ItemDraft) := [
  { names := ["text"], shape := .leaf, holds := M.IsText
    get := (·.text), put := fun s t => { t with text := some s } },
  { names := ["link"], shape := .leaf, holds := M.IsText
    get := (·.link), put := fun s t => { t with link := some s } }]

def groupSlots : List (Slot κ σ GroupDraft) := [
  { names := ["text"], shape := .leaf, holds := M.IsText
    get := (·.text), put := fun s t => { t with text := some s } },
  { names := ["collapsible"], shape := .leaf, optional := true, holds := M.IsFlag
    get := (·.collapsible), put := fun c t => { t with collapsible := some c } },
  { names := ["items"], shape := .list .item, holds := M.IsList M.IsItem
    get := (·.items), put := fun is t => { t with items := some is } }]

def themeSlots : List (Slot κ σ ThemeDraft) := [
  { names := ["sidebar"], shape := .list .group, holds := M.IsList M.IsGroup
    get := (·.sidebar), put := fun gs t => { t with sidebar := some gs } }]

def siteSlots : List (Slot κ σ SiteDraft) := [
  { names := ["title"], shape := .leaf, holds := M.IsText
    get := (·.title), put := fun s t => { t with title := some s } },
  { names := ["description"], shape := .leaf, holds := M.IsText
    get := (·.description), put := fun s t => { t with description := some s } },
  { names := ["basePath", "base_path", "base"], shape := .leaf, holds := M.IsText
    get := (·.basePath), put := fun s t => { t with basePath := some s } },
  { names := ["sidebar"], shape := .list .group, optional := true, holds := M.IsList M.IsGroup
    get := (·.sidebar), put := fun gs t => { t with sidebar := some gs } },
  { names := ["themeConfig", "theme_config"], shape := .theme, optional := true, holds := M.IsTheme
    get := (·.themeSidebar), put := fun gs t => { t with themeSidebar := some gs } }]

variable {M}

/-! ## What the fields read -/

theorem yields_text (p : Path) (t : Tree κ σ) :
    Yields (M.dialect.tracking.text p t) (M.strays .leaf p t) fun s =>
      M.Legible .leaf t ∧ M.IsText t s := by
  have htext : M.dialect.tracking.text p t = liftM (M.dialect.text p t) := rfl
  rw [htext, show M.strays .leaf p t = [] by simp only [strays]]
  refine (Yields.lift _).congr fun s => ?_
  simp only [Legible, true_and, IsText]
  cases t with
  | scalar v => simp only [dialect, Tree.scalar.injEq, exists_eq_left']
  | list ts => simp only [dialect, reduceCtorEq, false_and, exists_false]
  | map es => simp only [dialect, reduceCtorEq, false_and, exists_false]

theorem yields_flag (p : Path) (holder t : Tree κ σ) :
    Yields (M.dialect.tracking.flag p holder t) (M.strays .leaf p t) fun c =>
      M.Legible .leaf t ∧ M.IsFlag t c := by
  have hflag : M.dialect.tracking.flag p holder t = liftM (M.dialect.flag p holder t) := rfl
  rw [hflag, show M.strays .leaf p t = [] by simp only [strays]]
  refine (Yields.lift _).congr fun c => ?_
  simp only [Legible, true_and, IsFlag]
  cases t with
  | scalar v => simp only [dialect, Tree.scalar.injEq, exists_eq_left']
  | list ts => simp only [dialect, reduceCtorEq, false_and, exists_false]
  | map es => simp only [dialect, reduceCtorEq, false_and, exists_false]

theorem yields_list {α : Type} {readOne : Path → Tree κ σ → StateT (List Path) Option α} {sh : Shape}
    {P : Tree κ σ → α → Prop} (hone : ∀ p t, Yields (readOne p t) (M.strays sh p t) fun a =>
      M.Legible sh t ∧ P t a) (p : Path) (t : Tree κ σ) :
    Yields (readList M.dialect.tracking readOne p t) (M.strays (.list sh) p t) fun as =>
      M.Legible (.list sh) t ∧ M.IsList P t as := by
  cases t with
  | list ts =>
    simp only [strays, Legible, IsList]
    refine Yields.congr (x := readList M.dialect.tracking readOne p (.list ts))
      ((Yields.readItemsFrom hone p 0 ts).put id) fun as => ?_
    simp only [id_eq, exists_eq_right']
  | map es =>
    simp only [IsList, and_false]
    exact Yields.never
  | scalar v =>
    simp only [strays, Legible, IsList, true_and]
    have hview : M.dialect.tracking.view (.scalar v) = liftM (M.dialect.view (.scalar v)) := rfl
    rw [readList, hview]
    simp only [dialect]
    cases M.isLost v with
    | true =>
      simp only [Bool.true_eq_false, false_and]
      exact Yields.never
    | false =>
      cases M.isVoid v with
      | true => exact (Yields.pure []).congr fun as => by simp only [true_and]
      | false =>
        simp only [Bool.false_eq_true, if_false, false_and, and_false]
        cases M.guise v with
        | some k => exact Yields.never
        | none => exact Yields.never

theorem serves_itemLayout : M.dialect.tracking.itemLayout.Serves M M.itemSlots where
  fills := .cons ⟨rfl, rfl, fun _ => rfl, fun p _ t _ => (yields_text p t).fill _⟩ <|
    .cons ⟨rfl, rfl, fun _ => rfl, fun p _ t _ => (yields_text p t).fill _⟩ .nil
  apart := by simp [itemSlots, Slot.apart_iff]
  get_put := by simp [itemSlots]
  ext := by
    rintro ⟨t, l⟩ ⟨t', l'⟩ h
    simpa [itemSlots] using h
  get_empty := by simp [itemSlots, Dialect.itemLayout]
  finish_empty := nofun
  guise := by simp [itemSlots]

theorem isItem_iff {t : Tree κ σ} {it : Item} :
    M.IsItem t it ↔ ∃ draft, Slot.Gathers M M.itemSlots {} t draft ∧ draft.finish = .ok it := by
  constructor
  · rintro (⟨ht, htext, hl, hlink⟩ | ⟨⟨hpositional, hend⟩, htext, hlink⟩)
    · refine ⟨⟨some _, some _⟩, ?_, rfl⟩
      simp [Slot.Gathers, itemSlots, settled_some, ht, hl, htext, hlink]
    · exact ⟨⟨some _, some _⟩, ⟨hpositional, _, htext, _, hlink, hend, rfl⟩, rfl⟩
  · rintro ⟨⟨_ | text, _ | link⟩, hgathers, hfinish⟩
    · cases hfinish
    · cases hfinish
    · cases hfinish
    · cases hfinish
      cases t with
      | scalar v => exact hgathers.elim
      | list ts =>
        obtain ⟨hpositional, hplaced⟩ := hgathers
        rcases ts with _ | ⟨t, _ | ⟨l, rest⟩⟩
        · simp [Slot.Placed, itemSlots] at hplaced
        · simp [Slot.Placed, itemSlots] at hplaced
        · obtain ⟨_, ht, _, hl, hend, heq⟩ := hplaced
          cases heq
          exact .list ⟨hpositional, hend⟩ ht hl
      | map es =>
        simp only [Slot.Gathers, itemSlots, List.forall_mem_cons, settled_some] at hgathers
        obtain ⟨⟨t, ht, htext⟩, ⟨l, hl, hlink⟩, _⟩ := hgathers
        exact .map ht htext hl hlink

theorem yields_item (p : Path) (t : Tree κ σ) :
    Yields (M.dialect.tracking.readItem p t) (M.strays .item p t) fun it =>
      M.Legible .item t ∧ M.IsItem t it :=
  (serves_itemLayout.read p t).congr fun _ => and_congr_right fun _ => isItem_iff.symm

theorem serves_groupLayout : M.dialect.tracking.groupLayout.Serves M M.groupSlots where
  fills := .cons ⟨rfl, rfl, fun _ => rfl, fun p _ t _ => (yields_text p t).fill _⟩ <|
    .cons ⟨rfl, rfl, fun _ => rfl, fun p holder t _ => (yields_flag p holder t).fill _⟩ <|
    .cons ⟨rfl, rfl, fun _ => rfl, fun p _ t _ => (yields_list yields_item p t).fill _⟩ .nil
  apart := by simp [groupSlots, Slot.apart_iff]
  get_put := by simp [groupSlots]
  ext := by
    rintro ⟨t, c, is⟩ ⟨t', c', is'⟩ h
    simpa [groupSlots] using h
  get_empty := by simp [groupSlots, Dialect.groupLayout]
  finish_empty := nofun
  guise := by simp [groupSlots]

theorem isGroup_iff {t : Tree κ σ} {g : Group} :
    M.IsGroup t g ↔ ∃ draft, Slot.Gathers M M.groupSlots {} t draft ∧ draft.finish = .ok g := by
  constructor
  · rintro (⟨ht, htext, hc, hi, hitems⟩ | ⟨⟨hpositional, hend⟩, htext, hc, hitems⟩)
    · rcases hc with ⟨hc, rfl⟩ | ⟨c, hc, hflag⟩
      · refine ⟨⟨some _, none, some _⟩, ?_, rfl⟩
        simp [Slot.Gathers, groupSlots, settled_some, settled_none, ht, hi, hc, htext, hitems]
      · refine ⟨⟨some _, some _, some _⟩, ?_, rfl⟩
        simp [Slot.Gathers, groupSlots, settled_some, ht, hi, hc, htext, hitems, hflag]
    · exact ⟨⟨some _, some _, some _⟩, ⟨hpositional, _, htext, _, hc, _, hitems, hend, rfl⟩, rfl⟩
  · rintro ⟨⟨_ | text, c, _ | items⟩, hgathers, hfinish⟩
    · cases hfinish
    · cases hfinish
    · cases hfinish
    · cases hfinish
      cases t with
      | scalar v => exact hgathers.elim
      | list ts =>
        obtain ⟨hpositional, hplaced⟩ := hgathers
        rcases ts with _ | ⟨t, _ | ⟨f, _ | ⟨i, rest⟩⟩⟩
        · simp [Slot.Placed, groupSlots] at hplaced
        · simp [Slot.Placed, groupSlots] at hplaced
        · simp [Slot.Placed, groupSlots] at hplaced
        · obtain ⟨_, ht, _, hf, _, hi, hend, heq⟩ := hplaced
          cases heq
          exact .list ⟨hpositional, hend⟩ ht hf hi
      | map es =>
        simp only [Slot.Gathers, groupSlots, List.forall_mem_cons, settled_some] at hgathers
        obtain ⟨⟨t, ht, htext⟩, hc, ⟨i, hi, hitems⟩, _⟩ := hgathers
        refine .map ht htext ?_ hi hitems
        cases c with
        | none => exact .inl ⟨settled_none.1 hc, rfl⟩
        | some c => exact .inr (settled_some.1 hc)

theorem yields_group (p : Path) (t : Tree κ σ) :
    Yields (M.dialect.tracking.readGroup p t) (M.strays .group p t) fun g =>
      M.Legible .group t ∧ M.IsGroup t g :=
  (serves_groupLayout.read p t).congr fun _ => and_congr_right fun _ => isGroup_iff.symm

theorem serves_themeLayout : M.dialect.tracking.themeLayout.Serves M M.themeSlots where
  fills := .cons ⟨rfl, rfl, fun _ => rfl, fun p _ t _ => (yields_list yields_group p t).fill _⟩ .nil
  apart := by simp [themeSlots]
  get_put := by simp [themeSlots]
  ext := by
    rintro ⟨gs⟩ ⟨gs'⟩ h
    simpa [themeSlots] using h
  get_empty := by simp [themeSlots, Dialect.themeLayout]
  finish_empty := nofun
  guise := by simp [themeSlots]

theorem isTheme_iff {t : Tree κ σ} {gs : List Group} :
    M.IsTheme t gs ↔ ∃ draft, Slot.Gathers M M.themeSlots {} t draft ∧ draft.finish = .ok gs := by
  constructor
  · rintro (⟨hs, hgroups⟩ | ⟨⟨hpositional, hend⟩, hgroups⟩)
    · refine ⟨⟨some _⟩, ?_, rfl⟩
      simp [Slot.Gathers, themeSlots, settled_some, hs, hgroups]
    · exact ⟨⟨some _⟩, ⟨hpositional, _, hgroups, hend, rfl⟩, rfl⟩
  · rintro ⟨⟨_ | gs⟩, hgathers, hfinish⟩
    · cases hfinish
    · cases hfinish
      cases t with
      | scalar v => exact hgathers.elim
      | list ts =>
        obtain ⟨hpositional, hplaced⟩ := hgathers
        rcases ts with _ | ⟨s, rest⟩
        · simp [Slot.Placed, themeSlots] at hplaced
        · obtain ⟨_, hs, hend, heq⟩ := hplaced
          cases heq
          exact .list ⟨hpositional, hend⟩ hs
      | map es =>
        simp only [Slot.Gathers, themeSlots, List.forall_mem_cons, settled_some] at hgathers
        obtain ⟨⟨s, hs, hgroups⟩, _⟩ := hgathers
        exact .map hs hgroups

theorem yields_theme (p : Path) (t : Tree κ σ) :
    Yields (M.dialect.tracking.themeLayout.read M.dialect.tracking p t) (M.strays .theme p t) fun gs =>
      M.Legible .theme t ∧ M.IsTheme t gs :=
  (serves_themeLayout.read p t).congr fun _ => and_congr_right fun _ => isTheme_iff.symm

theorem serves_siteLayout : M.dialect.tracking.siteLayout.Serves M M.siteSlots where
  fills := .cons ⟨rfl, rfl, fun _ => rfl, fun p _ t _ => (yields_text p t).fill _⟩ <|
    .cons ⟨rfl, rfl, fun _ => rfl, fun p _ t _ => (yields_text p t).fill _⟩ <|
    .cons ⟨rfl, rfl, fun _ => rfl, fun p _ t _ => (yields_text p t).fill _⟩ <|
    .cons ⟨rfl, rfl, fun _ => rfl, fun p _ t _ => (yields_list yields_group p t).fill _⟩ <|
    .cons ⟨rfl, rfl, fun _ => rfl, fun p _ t _ => (yields_theme p t).fill _⟩ .nil
  apart := by simp [siteSlots, Slot.apart_iff]
  get_put := by simp [siteSlots]
  ext := by
    rintro ⟨t, d, b, s, ts⟩ ⟨t', d', b', s', ts'⟩ h
    simpa [siteSlots] using h
  get_empty := by simp [siteSlots, Dialect.siteLayout]
  finish_empty := nofun
  guise := by simp [siteSlots]

/-- What a site is settled with is found in one of the two places, and the other is empty. -/
theorem hasSidebar_of_settle {es : List (κ × Tree κ σ)} {raw : RawSite} {s : Site}
    (hplain : Settled (M.IsList M.IsGroup) (M.values ["sidebar"] es) none raw.sidebar)
    (hthemed : Settled M.IsTheme (M.values ["themeConfig", "theme_config"] es) none raw.themeSidebar)
    (h : raw.settle = .ok s) : M.HasSidebar es s.sidebar := by
  obtain ⟨title, description, basePath, sidebar, theme⟩ := raw
  cases sidebar with
  | none =>
    cases theme with
    | none => cases h
    | some gs =>
      cases h
      obtain ⟨s, hs, htheme⟩ := settled_some.1 hthemed
      exact .themed (settled_none.1 hplain) hs htheme
  | some gs =>
    cases theme with
    | some _ => cases h
    | none =>
      cases h
      obtain ⟨s, hs, hgroups⟩ := settled_some.1 hplain
      exact .plain hs (settled_none.1 hthemed) hgroups

theorem eq_of_settle {raw : RawSite} {s : Site} (h : raw.settle = .ok s) :
    s = ⟨raw.title, raw.description, raw.basePath, s.sidebar⟩ := by
  obtain ⟨title, description, basePath, sidebar, theme⟩ := raw
  cases sidebar <;> cases theme <;> cases h <;> rfl

theorem isSite_iff {t : Tree κ σ} {s : Site} : M.IsSite t s ↔ ∃ draft raw,
    Slot.Gathers M M.siteSlots {} t draft ∧ draft.finish = .ok raw ∧ raw.settle = .ok s := by
  constructor
  · rintro (⟨ht, htitle, hd, hdescription, hb, hbase, hsidebar⟩ |
      ⟨hpositional, htitle, hdescription, hbase, hgroups⟩)
    · rcases hsidebar with ⟨hs, hno, hgroups⟩ | ⟨hno, hs, htheme⟩
      · refine ⟨⟨some _, some _, some _, some _, none⟩, _, ?_, rfl, rfl⟩
        simp [Slot.Gathers, siteSlots, settled_some, settled_none, ht, hd, hb, hs, hno, htitle,
          hdescription, hbase, hgroups]
      · refine ⟨⟨some _, some _, some _, none, some _⟩, _, ?_, rfl, rfl⟩
        simp [Slot.Gathers, siteSlots, settled_some, settled_none, ht, hd, hb, hs, hno, htitle,
          hdescription, hbase, htheme]
    · exact ⟨⟨some _, some _, some _, some _, none⟩, _, ⟨hpositional, _, htitle, _, hdescription, _,
        hbase, _, hgroups, rfl, fun _ => rfl, rfl⟩, rfl, rfl⟩
  · rintro ⟨⟨_ | title, _ | description, _ | basePath, sidebar, theme⟩, raw, hgathers, hfinish, hsettle⟩
    all_goals cases hfinish
    cases t with
    | scalar v => exact hgathers.elim
    | list ts =>
      obtain ⟨hpositional, hplaced⟩ := hgathers
      rcases ts with _ | ⟨t, _ | ⟨d, _ | ⟨b, _ | ⟨g, _ | ⟨theme, rest⟩⟩⟩⟩⟩
      · simp [Slot.Placed, siteSlots] at hplaced
      · simp [Slot.Placed, siteSlots] at hplaced
      · simp [Slot.Placed, siteSlots] at hplaced
      · obtain ⟨_, _, _, _, _, _, _, _, _, heq⟩ := hplaced
        cases heq
        cases hsettle
      · obtain ⟨_, ht, _, hd, _, hb, _, hg, _, _, heq⟩ := hplaced
        cases heq
        cases hsettle
        exact .list hpositional ht hd hb hg
      · obtain ⟨_, _, _, _, _, _, _, _, _, _, _, heq⟩ := hplaced
        cases heq
        cases hsettle
    | map es =>
      simp only [Slot.Gathers, siteSlots, List.forall_mem_cons, settled_some] at hgathers
      obtain ⟨⟨t, ht, htitle⟩, ⟨d, hd, hdescription⟩, ⟨b, hb, hbase⟩, hplain, hthemed, _⟩ := hgathers
      have hsidebar := hasSidebar_of_settle hplain hthemed hsettle
      rw [eq_of_settle hsettle]
      exact .map ht htitle hd hdescription hb hbase hsidebar

/-! ## Reading a site -/

theorem yields_site (t : Tree κ σ) :
    Yields (M.dialect.tracking.readSite t) (M.strays .site [] t) fun s =>
      M.Legible .site t ∧ M.IsSite t s := by
  have hread : Yields (M.dialect.tracking.readSite t) (M.strays .site [] t ++ []) _ :=
    (serves_siteLayout.read [] t).bind (S := fun raw s => raw.settle = .ok s) fun raw _ => by
      cases raw.settle with
      | ok s =>
        refine (Yields.pure s).congr fun s' => ?_
        rw [Except.ok.injEq, eq_comm]
      | error e => exact Yields.never.congr fun s => by simp only [reduceCtorEq]
  rw [List.append_nil] at hread
  refine hread.congr fun s => ?_
  rw [isSite_iff]
  constructor
  · rintro ⟨raw, ⟨ht, draft, hgathers, hfinish⟩, hs⟩
    exact ⟨ht, draft, raw, hgathers, hfinish, hs⟩
  · rintro ⟨ht, draft, raw, hgathers, hfinish, hs⟩
    exact ⟨raw, ⟨ht, draft, hgathers, hfinish⟩, hs⟩

/-- A site is read from a tree exactly if the tree is that site and its strays are in nobody's way. The
paths kept are those of the strays. -/
theorem readTracked_eq_some_iff {t : Tree κ σ} {s : Site} {ps : List Path} :
    M.dialect.readTracked t = some (s, ps) ↔
      (M.Legible .site t ∧ M.IsSite t s) ∧ ps = M.strays .site [] t := by
  rw [← List.nil_append (M.strays .site [] t)]
  exact yields_site t [] s ps

/-! ## Trees without their strays -/

theorem pruneItems_const (sh : Shape) (ts : List (Tree κ σ)) (i : Nat) :
    M.pruneItems (fun _ => some sh) i ts = ts.map (M.prune sh) := by
  induction ts generalizing i with
  | nil => simp only [pruneItems, List.map_nil]
  | cons t ts ih => simp only [pruneItems, List.map_cons, ih]

theorem prune_leaf (t : Tree κ σ) : M.prune .leaf t = t := by
  simp only [prune]

theorem isList_prune {α : Type} {P : Tree κ σ → α → Prop} {sh : Shape}
    (hone : ∀ t a, P (M.prune sh t) a ↔ P t a) (t : Tree κ σ) (as : List α) :
    M.IsList P (M.prune (.list sh) t) as ↔ M.IsList P t as := by
  cases t with
  | scalar v => simp only [prune]
  | map es => simp only [prune]
  | list ts => simp only [prune, IsList, pruneItems_const, List.forall₂_map_left_iff, hone]

theorem isItem_prune (t : Tree κ σ) (it : Item) : M.IsItem (M.prune .item t) it ↔ M.IsItem t it := by
  have hslots : ∀ s ∈ M.itemSlots, ∀ t b, s.holds (M.prune s.shape t) b ↔ s.holds t b := by
    simp only [itemSlots, List.forall_mem_cons, prune_leaf, implies_true, true_and]
    exact nofun
  rw [isItem_iff, isItem_iff]
  exact exists_congr fun draft => and_congr_left fun _ => serves_itemLayout.gathers_prune hslots {} t draft

theorem isGroup_prune (t : Tree κ σ) (g : Group) :
    M.IsGroup (M.prune .group t) g ↔ M.IsGroup t g := by
  have hslots : ∀ s ∈ M.groupSlots, ∀ t b, s.holds (M.prune s.shape t) b ↔ s.holds t b := by
    simp only [groupSlots, List.forall_mem_cons, prune_leaf, isList_prune isItem_prune, implies_true,
      true_and]
    exact nofun
  rw [isGroup_iff, isGroup_iff]
  exact exists_congr fun draft => and_congr_left fun _ => serves_groupLayout.gathers_prune hslots {} t draft

theorem isTheme_prune (t : Tree κ σ) (gs : List Group) :
    M.IsTheme (M.prune .theme t) gs ↔ M.IsTheme t gs := by
  have hslots : ∀ s ∈ M.themeSlots, ∀ t b, s.holds (M.prune s.shape t) b ↔ s.holds t b := by
    simp only [themeSlots, List.forall_mem_cons, isList_prune isGroup_prune, implies_true, true_and]
    exact nofun
  rw [isTheme_iff, isTheme_iff]
  exact exists_congr fun draft => and_congr_left fun _ => serves_themeLayout.gathers_prune hslots {} t draft

/-- A tree is the same site with its strays and without them. -/
theorem isSite_prune (t : Tree κ σ) (s : Site) : M.IsSite (M.prune .site t) s ↔ M.IsSite t s := by
  have hslots : ∀ s ∈ M.siteSlots, ∀ t b, s.holds (M.prune s.shape t) b ↔ s.holds t b := by
    simp only [siteSlots, List.forall_mem_cons, prune_leaf, isList_prune isGroup_prune, isTheme_prune,
      implies_true, true_and]
    exact nofun
  rw [isSite_iff, isSite_iff]
  exact exists_congr fun draft => exists_congr fun raw => and_congr_left fun _ =>
    serves_siteLayout.gathers_prune hslots {} t draft

theorem readTracked_prune {t : Tree κ σ} {s : Site} {ps : List Path}
    (h : M.dialect.readTracked t = some (s, ps)) :
    M.dialect.readTracked (M.prune .site t) = some (s, []) := by
  obtain ⟨⟨hlegible, hsite⟩, -⟩ := readTracked_eq_some_iff.1 h
  exact readTracked_eq_some_iff.2 ⟨⟨hlegible.prune, (isSite_prune t s).2 hsite⟩, (strays_prune ..).symm⟩

/-- Strays change nothing but the paths kept. -/
theorem readTracked_of_grows {t t' : Tree κ σ} (hgrows : M.Grows .site t t') {s : Site} {ps : List Path}
    (h : M.dialect.readTracked t = some (s, ps)) :
    M.dialect.readTracked t' = some (s, M.strays .site [] t') := by
  obtain ⟨⟨hlegible, hsite⟩, -⟩ := readTracked_eq_some_iff.1 h
  have hsite' : M.IsSite t' s := by
    rw [← isSite_prune, hgrows.prune_eq, isSite_prune]
    exact hsite
  exact readTracked_eq_some_iff.2 ⟨⟨hgrows.legible hlegible, hsite'⟩, rfl⟩

end Meaning

end SiteNav.Document
