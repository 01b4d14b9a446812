import Mathlib.Data.List.Perm.Basic
import SiteNav.Document.Content
import SiteNav.Document.SiteReader

/-!
# Nodes that show a content

A node shows a content in a dialect if whoever looks at it through the dialect finds that content:
scalars read as its texts and flags, lists with its elements in order, maps with its entries in some
order, every list and map well formed up to its end. The formats have little else in common, so this
is what their readers are measured by. Main statement: a site is read from every node that shows its
content, and no entry is left over.
-/
namespace SiteNav.Document
variable {m : Type → Type} [Monad m] {ν κ : Type}

namespace Dialect
variable (d : Dialect m ν κ)

mutual

def Shows (n : ν) : Content → Prop
  | .flag b => ∀ p holder, d.flag p holder n = pure (some b)
  | .text s => ∀ p, d.text p n = pure s
  | .list cs => ∃ n' ns, d.view n = pure (n', .list ns) ∧ d.close n' = pure () ∧ ShowsItems ns cs
  | .map es => ∃ n' entries arranged, d.view n = pure (n', .map entries) ∧ d.close n' = pure () ∧
      arranged.Perm entries ∧ ShowsEntries arranged es

def ShowsItems : List ν → List Content → Prop
  | [], [] => True
  | n :: ns, c :: cs => Shows n c ∧ ShowsItems ns cs
  | _, _ => False

def ShowsEntries : List (κ × ν) → List (String × Content) → Prop
  | [], [] => True
  | (k, n) :: entries, (name, c) :: es =>
    (∀ p h, d.key p h k = pure (.key name)) ∧ Shows n c ∧ ShowsEntries entries es
  | _, _ => False

end

/-- A key and a node that show an entry. -/
def ShowsEntry (e : κ × ν) (c : String × Content) : Prop :=
  (∀ p h, d.key p h e.1 = pure (.key c.1)) ∧ d.Shows e.2 c.2

theorem showsEntries_iff_forall₂ (entries : List (κ × ν)) (es : List (String × Content)) :
    d.ShowsEntries entries es ↔ List.Forall₂ d.ShowsEntry entries es := by
  induction entries generalizing es with
  | nil => cases es <;> simp [ShowsEntries]
  | cons e entries ih =>
    cases es with
    | nil => simp [ShowsEntries]
    | cons c es => simp [ShowsEntries, ShowsEntry, ih, and_assoc]

theorem ShowsItems.concat {d : Dialect m ν κ} {ns : List ν} {cs : List Content} {n : ν} {c : Content}
    (hns : d.ShowsItems ns cs) (hn : d.Shows n c) : d.ShowsItems (ns ++ [n]) (cs ++ [c]) := by
  induction ns generalizing cs with
  | nil =>
    cases cs with
    | nil => exact ⟨hn, trivial⟩
    | cons _ _ => exact hns.elim
  | cons n' ns ih =>
    cases cs with
    | nil => exact hns.elim
    | cons c' cs => exact ⟨hns.1, ih hns.2⟩

/-- The order of entries can be put down to the content instead of the node. -/
theorem Shows.exists_perm {d : Dialect m ν κ} {n : ν} {es : List (String × Content)}
    (h : d.Shows n (.map es)) :
    ∃ n' entries es', d.view n = pure (n', .map entries) ∧ d.close n' = pure () ∧
      es'.Perm es ∧ List.Forall₂ d.ShowsEntry entries es' := by
  obtain ⟨n', entries, arranged, hview, hclose, hperm, hshow⟩ := h
  rw [showsEntries_iff_forall₂] at hshow
  obtain ⟨es', hshow', hperm'⟩ := List.perm_comp_forall₂ hperm.symm hshow
  exact ⟨n', entries, es', hview, hclose, hperm', hshow'⟩

end Dialect

mutual

/-- Keeping track of left-over entries does not change what a node shows. -/
theorem Dialect.Shows.tracking [LawfulMonad m] (d : Dialect m ν κ) (n : ν) :
    ∀ {c : Content}, d.Shows n c → d.tracking.Shows n c
  | .flag _, h => fun p holder => by
    change liftM (d.flag p holder n) = _
    rw [h p holder, liftM_pure]
  | .text _, h => fun p => by
    change liftM (d.text p n) = _
    rw [h p, liftM_pure]
  | .list cs, ⟨n', ns, hview, hclose, hshow⟩ => by
    refine ⟨n', ns, ?_, ?_, ShowsItems.tracking d ns cs hshow⟩
    · change liftM (d.view n) = _
      rw [hview, liftM_pure]
    · change liftM (d.close n') = _
      rw [hclose, liftM_pure]
  | .map es, ⟨n', entries, arranged, hview, hclose, hperm, hshow⟩ => by
    refine ⟨n', entries, arranged, ?_, ?_, hperm, ShowsEntries.tracking d arranged es hshow⟩
    · change liftM (d.view n) = _
      rw [hview, liftM_pure]
    · change liftM (d.close n') = _
      rw [hclose, liftM_pure]

theorem Dialect.ShowsItems.tracking [LawfulMonad m] (d : Dialect m ν κ) :
    ∀ (ns : List ν) (cs : List Content), d.ShowsItems ns cs → d.tracking.ShowsItems ns cs
  | [], [], _ => trivial
  | n :: ns, _ :: cs, ⟨hn, hns⟩ => ⟨Shows.tracking d n hn, ShowsItems.tracking d ns cs hns⟩
  | [], _ :: _, h => h.elim
  | _ :: _, [], h => h.elim

theorem Dialect.ShowsEntries.tracking [LawfulMonad m] (d : Dialect m ν κ) :
    ∀ (entries : List (κ × ν)) (es : List (String × Content)),
      d.ShowsEntries entries es → d.tracking.ShowsEntries entries es
  | [], [], _ => trivial
  | (k, n) :: entries, _ :: es, ⟨hk, hn, hes⟩ => by
    refine ⟨fun p h => ?_, Shows.tracking d n hn, ShowsEntries.tracking d entries es hes⟩
    change liftM (d.key p h k) = _
    rw [hk p h, liftM_pure]
  | [], _ :: _, h => h.elim
  | _ :: _, [], h => h.elim

end

section Readers
variable [LawfulMonad m] {d : Dialect m ν κ}

namespace Layout
variable {δ α : Type} {lay : Layout m ν δ α}

/-- `fill` says what each entry of a content does to a draft: it is read by a field that is still
free, and it sets no other field. -/
structure Fits (d : Dialect m ν κ) (lay : Layout m ν δ α) (fill : String → δ → δ)
    (e : String × Content) (others : List (String × Content)) (f : Field m ν δ) : Prop where
  find : lay.fields.find? (·.answersTo e.1) = some f
  read : ∀ p n v draft, d.Shows v e.2 → f.read p n v draft = pure (fill e.1 draft)
  free : f.isSet lay.empty = false
  keep : ∀ o ∈ others, o.1 ≠ e.1 → ∀ draft, f.isSet (fill o.1 draft) = f.isSet draft

theorem readEntries_of_shows {fill : String → δ → δ} {es all : List (String × Content)}
    (hfits : ∀ e ∈ all, ∃ f, lay.Fits d fill e all f) (hsub : es ⊆ all)
    (hnames : (es.map (·.1)).Nodup) {entries : List (κ × ν)}
    (hshow : List.Forall₂ d.ShowsEntry entries es) (p : Path) (n : ν) (draft : δ)
    (hfree : ∀ e ∈ es, ∀ f, lay.fields.find? (·.answersTo e.1) = some f → f.isSet draft = false) :
    lay.readEntries d p n entries draft = pure (es.foldl (fun t e => fill e.1 t) draft) := by
  induction hshow generalizing draft with
  | nil => simp [readEntries]
  | @cons entry e entries es hentry _ ih =>
    obtain ⟨k, v⟩ := entry
    obtain ⟨f, hf⟩ := hfits e (hsub (by simp))
    have hset : f.isSet draft = false := hfree e (by simp) f hf.find
    simp only [List.map_cons, List.nodup_cons, List.mem_map, not_exists, not_and] at hnames
    have hrest := ih (fun x hx => hsub (by simp [hx])) hnames.2 (fill e.1 draft) (by
      intro o ho g hg
      obtain ⟨g', hg'⟩ := hfits o (hsub (by simp [ho]))
      obtain rfl : g' = g := Option.some.inj (hg'.find.symm.trans hg)
      rw [hg'.keep e (hsub (by simp)) (fun he => hnames.1 o ho he.symm)]
      exact hfree o (by simp [ho]) g' hg)
    simp only [readEntries, hentry.1 p n, pure_bind, Step.plain, hf.find, hset,
      hf.read _ n v draft hentry.2, hrest, List.foldl_cons, Bool.false_eq_true, if_false]

/-- A structure is read from a node that shows its content, in whatever order its entries stand. -/
theorem read_of_shows (fill : String → δ → δ) {es : List (String × Content)} {a : α}
    (hfits : ∀ e ∈ es, ∃ f, lay.Fits d fill e es f) (hnames : (es.map (·.1)).Nodup)
    (hcomm : ∀ e ∈ es, ∀ e' ∈ es, ∀ draft,
      fill e'.1 (fill e.1 draft) = fill e.1 (fill e'.1 draft))
    (hfinish : lay.finish (es.foldl (fun t e => fill e.1 t) lay.empty) = .ok a)
    {n : ν} (hshow : d.Shows n (.map es)) (p : Path) : lay.read d p n = pure a := by
  obtain ⟨n', entries, es', hview, hclose, hperm, hentries⟩ := hshow.exists_perm
  have hread := readEntries_of_shows hfits hperm.subset ((hperm.map _).nodup_iff.2 hnames) hentries
    p n' lay.empty (by
      intro e he f hf
      obtain ⟨f', hf'⟩ := hfits e (hperm.subset he)
      obtain rfl : f' = f := Option.some.inj (hf'.find.symm.trans hf)
      exact hf'.free)
  have hfold : es'.foldl (fun t e => fill e.1 t) lay.empty =
      es.foldl (fun t e => fill e.1 t) lay.empty :=
    hperm.foldl_eq' (fun e he e' he' draft =>
      hcomm e (hperm.subset he) e' (hperm.subset he') draft) _
  simp only [read, hview, pure_bind, hread, hclose, conclude, hfold, hfinish]

end Layout

theorem readItemsFrom_of_shows {α : Type} {readOne : Path → ν → m α} {content : α → Content}
    (hone : ∀ a p n, d.Shows n (content a) → readOne p n = pure a) (p : Path) (as : List α) :
    ∀ (i : Nat) (ns : List ν), d.ShowsItems ns (as.map content) →
      readItemsFrom readOne p i ns = pure as := by
  induction as with
  | nil =>
    intro i ns h
    cases ns with
    | nil => rfl
    | cons n ns => exact h.elim
  | cons a as ih =>
    intro i ns h
    cases ns with
    | nil => exact h.elim
    | cons n ns => simp only [readItemsFrom, hone a _ n h.1, pure_bind, ih (i + 1) ns h.2]

theorem readList_of_shows {α : Type} {readOne : Path → ν → m α} {content : α → Content}
    (hone : ∀ a p n, d.Shows n (content a) → readOne p n = pure a) (p : Path) (as : List α)
    {n : ν} (h : d.Shows n (.list (as.map content))) : readList d readOne p n = pure as := by
  obtain ⟨n', ns, hview, hclose, hshow⟩ := h
  simp only [readList, hview, pure_bind, readItemsFrom_of_shows hone p as 0 ns hshow, hclose]

namespace Dialect

/-- What the entry of a field adds to a draft. -/
def fillItem (it : Item) (name : String) (t : ItemDraft) : ItemDraft :=
  if name = "text" then { t with text := some it.text } else { t with link := some it.link }

theorem readItem_of_shows (it : Item) (p : Path) (n : ν) (h : d.Shows n (.ofItem it)) :
    d.readItem p n = pure it := by
  refine Layout.read_of_shows (fillItem it) ?_ (by simp) ?_ rfl h p
  · intro e he
    simp only [List.mem_cons, List.not_mem_nil, or_false] at he
    rcases he with rfl | rfl
    · refine ⟨_, rfl, fun p n v draft hv => ?_, rfl, ?_⟩
      · simp [fillItem, hv _]
      · simp [fillItem]
    · refine ⟨_, rfl, fun p n v draft hv => ?_, rfl, ?_⟩
      · simp [fillItem, hv _]
      · simp [fillItem]
  · simp [fillItem]

def fillGroup (g : Group) (name : String) (t : GroupDraft) : GroupDraft :=
  if name = "text" then { t with text := some g.text }
  else if name = "collapsible" then { t with collapsible := some g.collapsible }
  else { t with items := some g.items }

theorem readGroup_of_shows (g : Group) (p : Path) (n : ν) (h : d.Shows n (.ofGroup g)) :
    d.readGroup p n = pure g := by
  have hitems : ∀ p v, d.Shows v (.list (g.items.map .ofItem)) →
      readList d d.readItem p v = pure g.items := fun p v hv =>
    readList_of_shows d.readItem_of_shows p g.items hv
  obtain ⟨text, collapsible, items⟩ := g
  cases collapsible with
  | none =>
    refine Layout.read_of_shows (fillGroup ⟨text, none, items⟩) ?_ (by simp) ?_ rfl h p
    · intro e he
      simp only [Option.map_none, Option.toList_none, List.nil_append, List.mem_cons,
        List.not_mem_nil, or_false] at he
      rcases he with rfl | rfl
      · refine ⟨_, rfl, fun p n v draft hv => ?_, rfl, ?_⟩
        · simp [fillGroup, hv _]
        · simp [fillGroup]
      · refine ⟨_, rfl, fun p n v draft hv => ?_, rfl, ?_⟩
        · simp [fillGroup, hitems p v hv]
        · simp [fillGroup]
    · simp [fillGroup]
  | some b =>
    refine Layout.read_of_shows (fillGroup ⟨text, some b, items⟩) ?_ (by simp) ?_ rfl h p
    · intro e he
      simp only [Option.map_some, Option.toList_some, List.cons_append, List.nil_append,
        List.mem_cons, List.not_mem_nil, or_false] at he
      rcases he with rfl | rfl | rfl
      · refine ⟨_, rfl, fun p n v draft hv => ?_, rfl, ?_⟩
        · simp [fillGroup, hv _]
        · simp [fillGroup]
      · refine ⟨_, rfl, fun p n v draft hv => ?_, rfl, ?_⟩
        · simp [fillGroup, hv _ _]
        · simp [fillGroup]
      · refine ⟨_, rfl, fun p n v draft hv => ?_, rfl, ?_⟩
        · simp [fillGroup, hitems p v hv]
        · simp [fillGroup]
    · simp [fillGroup]

theorem readSidebar_of_shows (gs : List Group) (p : Path) (n : ν)
    (h : d.Shows n (.list (gs.map .ofGroup))) : d.readSidebar p n = pure gs :=
  readList_of_shows d.readGroup_of_shows p gs h

def fillSite (s : Site) (name : String) (t : SiteDraft) : SiteDraft :=
  if name = "title" then { t with title := some s.title }
  else if name = "description" then { t with description := some s.description }
  else if name = "basePath" then { t with basePath := some s.basePath }
  else { t with sidebar := some s.sidebar }

theorem readSite_of_shows (s : Site) (n : ν) (h : d.Shows n (.ofSite s)) :
    d.readSite n = pure s := by
  have hraw : d.siteLayout.read d [] n =
      pure ⟨s.title, s.description, s.basePath, some s.sidebar, none⟩ := by
    refine Layout.read_of_shows (fillSite s) ?_ (by simp) ?_ rfl h []
    · intro e he
      simp only [List.mem_cons, List.not_mem_nil, or_false] at he
      rcases he with rfl | rfl | rfl | rfl
      · refine ⟨_, rfl, fun p n v draft hv => ?_, rfl, ?_⟩
        · simp [fillSite, hv _]
        · simp [fillSite]
      · refine ⟨_, rfl, fun p n v draft hv => ?_, rfl, ?_⟩
        · simp [fillSite, hv _]
        · simp [fillSite]
      · refine ⟨_, rfl, fun p n v draft hv => ?_, rfl, ?_⟩
        · simp [fillSite, hv _]
        · simp [fillSite]
      · refine ⟨_, rfl, fun p n v draft hv => ?_, rfl, ?_⟩
        · simp [fillSite, d.readSidebar_of_shows s.sidebar p v hv]
        · simp [fillSite]
    · simp [fillSite]
  simp only [readSite, hraw, pure_bind, RawSite.settle]

/-- A site is read from every node that shows its content, and no entry is left over. -/
theorem readTracked_of_shows (s : Site) (n : ν) (h : d.Shows n (.ofSite s)) :
    d.readTracked n = pure (s, []) := by
  rw [readTracked, d.tracking.readSite_of_shows s n (Shows.tracking d n h)]
  rfl

end Dialect

end Readers

end SiteNav.Document
