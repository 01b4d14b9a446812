import SiteNav.Proofs.Json.Flaws

/-!
# What readers of JSON report

A reader stops at the first thing that is wrong. Where nothing but flaws can stop it, it reports the
first flaw of its value, and if there is none it returns what it has read. This is followed through the
steps of a reader by a rule for each way to put steps together. Main statement: a structure whose fields
are read as its members ask reports its first flaw, or comes from the fields that its entries fill.
-/
namespace SiteNav.Json
open Document

/-- The entries of a map. -/
def Node.entries : Node → List (Key × Node)
  | map _ entries _ => entries
  | _ => []

/-- Some structure that is asked for is written as a list. -/
inductive Positional : Form → Tree → Prop
  | here {r : Record} {members : List (Member Form)} (ts : List Tree) : Positional (.record r members) (.list ts)
  | element {fm : Form} {ts : List Tree} {t : Tree} (ht : t ∈ ts) (h : Positional fm t) :
      Positional (.list fm) (.list ts)
  | field {r : Record} {members : List (Member Form)} {es : List (Option String × Tree)}
      {k : Option String} {t : Tree} {s : Member Form} (ht : (k, t) ∈ es)
      (hs : Form.member? members k = some s) (h : Positional s.form t) :
      Positional (.record r members) (.map es)

/-- Where a form is asked for, nothing but flaws stops a reader. -/
inductive Sound : Form → Node → Prop
  | scalar {fm : Form} {start stop : Pos} {s : Scalar} : Sound fm (.scalar start stop (.ok s))
  | list {fm : Form} {start stop : Pos} {items : List Node} (h : ∀ n ∈ items, Sound fm n) :
      Sound (.list fm) (.list start items (.closed stop))
  | map {r : Record} {members : List (Member Form)} {start stop : Pos} {entries : List (Key × Node)}
      (hkeys : ∀ e ∈ entries, ∃ name, e.1.text = .ok name)
      (hskip : ∀ e ∈ entries, e.2.skip = .ok ())
      (h : ∀ e ∈ entries, ∀ s, Form.member? members e.1.text.toOption = some s → Sound s.form e.2) :
      Sound (.record r members) (.map start entries (.closed stop))
  | otherList {fm : Form} {start : Pos} {items : List Node} {ending : Ending}
      (h : ∀ element, fm ≠ .list element) (h' : ∀ r members, fm ≠ .record r members) :
      Sound fm (.list start items ending)
  | otherMap {fm : Form} {start : Pos} {entries : List (Key × Node)} {ending : Ending}
      (h : ∀ r members, fm ≠ .record r members) : Sound fm (.map start entries ending)

section Sound

theorem all_of_mem_items {key : Option String → Bool} {scalar : Option Scalar → Bool} {ts : List Tree}
    (h : Document.Tree.allItems key scalar ts = true) : ∀ t ∈ ts, t.all key scalar = true := by
  induction ts with
  | nil => exact fun t ht => absurd ht List.not_mem_nil
  | cons t ts ih =>
    rw [Document.Tree.allItems, Bool.and_eq_true] at h
    exact List.forall_mem_cons.2 ⟨h.1, ih h.2⟩

theorem all_of_mem_entries {key : Option String → Bool} {scalar : Option Scalar → Bool}
    {es : List (Option String × Tree)} (h : Document.Tree.allEntries key scalar es = true) :
    ∀ e ∈ es, key e.1 = true ∧ e.2.all key scalar = true := by
  induction es with
  | nil => exact fun e he => absurd he List.not_mem_nil
  | cons e es ih =>
    rw [Document.Tree.allEntries, Bool.and_eq_true, Bool.and_eq_true] at h
    exact List.forall_mem_cons.2 ⟨h.1, ih h.2⟩

theorem exists_mem_of_forall₂ {α β : Type} {R : α → β → Prop} {as : List α} {bs : List β}
    (h : List.Forall₂ R as bs) {a : α} (ha : a ∈ as) : ∃ b ∈ bs, R a b := by
  induction h with
  | nil => cases ha
  | @cons a' b' _ _ hab _ ih =>
    rcases List.mem_cons.1 ha with rfl | ha
    · exact ⟨b', List.mem_cons_self, hab⟩
    · obtain ⟨b, hb, hr⟩ := ih ha
      exact ⟨b, List.mem_cons_of_mem b' hb, hr⟩

/-- A document in which every key and scalar has a value, and no structure is a list, is sound. -/
theorem sound_of_tree? (n : Node) {t : Tree} {fm : Form} (h : n.tree? = some t)
    (hvalues : t.all Option.isSome Option.isSome = true) (hmaps : ¬Positional fm t) : Sound fm n := by
  induction n using Node.inductOn generalizing t fm with
  | scalar start stop value =>
    obtain rfl := Option.some.inj h
    cases value with
    | ok s => exact .scalar
    | error e => cases hvalues
  | list start items ending ih =>
    obtain ⟨_, _, _, heq, -⟩ | ⟨_, _, stop, ts, heq, rfl, hts⟩ | ⟨_, _, _, _, heq, -⟩ :=
      Node.cases_of_tree? h
    · cases heq
    · cases heq
      cases fm with
      | text | flag => exact .otherList (by simp) (by simp)
      | record r members => exact absurd (.here ts) hmaps
      | list element =>
        refine .list fun n hn => ?_
        obtain ⟨t, ht, hnt⟩ := exists_mem_of_forall₂ hts hn
        exact ih n hn hnt (all_of_mem_items hvalues t ht) fun h => hmaps (.element ht h)
    · cases heq
  | map start entries ending ih =>
    obtain ⟨_, _, _, heq, -⟩ | ⟨_, _, _, _, heq, -⟩ | ⟨_, _, stop, es, heq, rfl, hes⟩ :=
      Node.cases_of_tree? h
    · cases heq
    · cases heq
    · cases heq
      cases fm with
      | text | flag | list element => exact .otherMap (by simp)
      | record r members =>
        refine .map (fun e he => ?_) (fun e he => ?_) fun e he s hs => ?_
        · obtain ⟨e', he', hkey, -⟩ := exists_mem_of_forall₂ hes he
          have hname := (all_of_mem_entries hvalues e' he').1
          cases htext : e.1.text with
          | ok name => exact ⟨name, rfl⟩
          | error f =>
            rw [← hkey, htext] at hname
            cases hname
        · obtain ⟨e', -, -, htree⟩ := exists_mem_of_forall₂ hes he
          exact Node.skip_of_tree? e.2 htree
        · obtain ⟨⟨k, t⟩, he', hkey, htree⟩ := exists_mem_of_forall₂ hes he
          rw [hkey] at hs
          exact ih e he htree (all_of_mem_entries hvalues _ he').2 fun h => hmaps (.field he' hs h)
  | broken start wanted skipped => cases h

end Sound

/-! ## What readers report -/

/-- A reader fails with the first of some flaws, or returns something with a property if there are
none. -/
def Reports {α : Type} (x : StateT (List Path) (Except Error) α) (fs : List (Misfit × Pos))
    (P : α → Prop) : Prop :=
  match fs with
  | [] => ∀ ps, ∃ a ps', x.run ps = .ok (a, ps') ∧ P a
  | f :: _ => ∀ ps, x.run ps = .error (.misfit f.1 (some f.2))

namespace Reports
variable {α β : Type} {x : StateT (List Path) (Except Error) α}
  {g : α → StateT (List Path) (Except Error) β} {fs gs : List (Misfit × Pos)} {P P' : α → Prop}
  {Q : β → Prop}

theorem pure {a : α} (h : P a) : Reports (pure a) [] P :=
  fun ps => ⟨a, ps, rfl, h⟩

theorem bind (hx : Reports x fs P) (hg : ∀ a, P a → Reports (g a) gs Q) :
    Reports (x >>= g) (fs ++ gs) Q := by
  cases fs with
  | cons f fs =>
    intro ps
    rw [StateT.run_bind, hx ps]
    rfl
  | nil =>
    cases gs with
    | nil =>
      intro ps
      obtain ⟨a, ps', hrun, ha⟩ := hx ps
      rw [StateT.run_bind, hrun]
      exact hg a ha ps'
    | cons f gs =>
      intro ps
      obtain ⟨a, ps', hrun, ha⟩ := hx ps
      rw [StateT.run_bind, hrun]
      exact hg a ha ps'

theorem weaken (hx : Reports x fs P) (h : ∀ a, P a → P' a) : Reports x fs P' := by
  cases fs with
  | cons f fs => exact hx
  | nil =>
    intro ps
    obtain ⟨a, ps', hrun, ha⟩ := hx ps
    exact ⟨a, ps', hrun, h a ha⟩

theorem put (hx : Reports x fs P) {h : α → β} (hh : ∀ a, P a → Q (h a)) :
    Reports (do return h (← x)) fs Q := by
  have hbind := hx.bind fun a ha => pure (hh a ha)
  rwa [List.append_nil] at hbind

/-- What comes first has no flaw. -/
theorem lift_bind {a : α} (hg : Reports (g a) gs Q) :
    Reports (liftM (Except.ok a : Except Error α) >>= g) gs Q :=
  hg

theorem lift {a : α} (h : P a) : Reports (liftM (Except.ok a : Except Error α)) [] P :=
  pure h

theorem fail (m : Misfit) (pos : Pos) :
    Reports (liftM (Except.error (.misfit m (some pos)) : Except Error α)) ((m, pos) :: fs) P :=
  fun _ => rfl

end Reports

section Values
variable {n : Node} {p : Path} {holder : Node}

theorem reports_text (h : Sound .text n) :
    Reports (dialect.tracking.text p n) (n.flaws .text) fun _ => True := by
  cases h with
  | @scalar _ _ stop s =>
    cases s with
    | text s => exact .lift trivial
    | null | bool b | number x => exact .fail _ _
  | otherList | otherMap => exact .fail _ _

theorem reports_flag (h : Sound .flag n) :
    Reports (dialect.tracking.flag p holder n) (n.flaws .flag) fun _ => True := by
  cases h with
  | @scalar _ _ stop s =>
    cases s with
    | null | bool b => exact .lift trivial
    | text s | number x => exact .fail _ _
  | otherList | otherMap => exact .fail _ _

variable {α : Type} {readOne : Path → Node → StateT (List Path) (Except Error) α} {fm : Form}

theorem reports_itemsFrom {items : List Node}
    (hone : ∀ p n, Sound fm n → Reports (readOne p n) (n.flaws fm) fun _ => True)
    (h : ∀ n ∈ items, Sound fm n) (i : Nat) :
    Reports (readItemsFrom readOne p i items) (Node.flawsOfItems items fm) fun _ => True := by
  induction items generalizing i with
  | nil => exact .pure trivial
  | cons n ns ih =>
    rw [List.forall_mem_cons] at h
    exact (hone _ n h.1).bind fun _ _ => (ih h.2 (i + 1)).put fun _ _ => trivial

theorem reports_list (hone : ∀ p n, Sound fm n → Reports (readOne p n) (n.flaws fm) fun _ => True)
    (h : Sound (.list fm) n) :
    Reports (readList dialect.tracking readOne p n) (n.flaws (.list fm)) fun _ => True := by
  cases h with
  | scalar => exact .lift_bind (.fail _ _)
  | list h =>
    refine .lift_bind ?_
    have hitems := reports_itemsFrom (p := p) hone h 0
    exact hitems.put fun _ _ => trivial
  | otherList h => exact absurd rfl (h fm)
  | otherMap => exact .lift_bind (.fail _ _)

end Values

/-! ## What structures report -/

section Structures
variable {δ α : Type}

/-- These fields of a draft are set and no others. -/
def Sets (lay : Layout (StateT (List Path) (Except Error)) Node δ α) (draft : δ) (names : List String) :
    Prop :=
  ∀ f ∈ lay.fields, f.isSet draft = decide (f.name ∈ names)

/-- The field is the member of a structure: it goes by its names, asks for its form and sets nothing
else. -/
structure Serves (lay : Layout (StateT (List Path) (Except Error)) Node δ α)
    (f : Field (StateT (List Path) (Except Error)) Node δ) (s : Member Form) : Prop where
  name : f.name = s.name
  aliases : f.aliases = s.aliases
  read : ∀ p holder n draft, Sound s.form n → Reports (f.read p holder n draft) (n.flaws s.form)
    fun draft' => ∀ g ∈ lay.fields, g.isSet draft' = (g.isSet draft || decide (g.name = s.name))

/-- A structure is read as its members ask, and complete if nothing is lacking. -/
structure Asks (lay : Layout (StateT (List Path) (Except Error)) Node δ α)
    (members : List (Member Form)) : Prop where
  fields : List.Forall₂ (Serves lay) lay.fields members
  empty : Sets lay lay.empty []
  finish : ∀ {draft names}, Sets lay draft names → match Form.lacking? members names with
    | some s => lay.finish draft = .error s.name
    | none => ∃ a, lay.finish draft = .ok a

variable {lay : Layout (StateT (List Path) (Except Error)) Node δ α} {members : List (Member Form)}

theorem Sets.congr {draft : δ} {names names' : List String} (h : Sets lay draft names)
    (hnames : ∀ name, name ∈ names ↔ name ∈ names') : Sets lay draft names' := by
  intro f hf
  rw [h f hf, decide_eq_decide]
  exact hnames f.name

/-- A name is that of a field and the member it serves, or of neither. -/
theorem find?_serves {fs : List (Field (StateT (List Path) (Except Error)) Node δ)}
    (h : List.Forall₂ (Serves lay) fs members) (name : String) :
    (fs.find? (·.answersTo name) = none ∧ members.find? (·.answersTo name) = none) ∨
    ∃ f s, fs.find? (·.answersTo name) = some f ∧ members.find? (·.answersTo name) = some s ∧
      f ∈ fs ∧ Serves lay f s := by
  induction h with
  | nil => exact .inl ⟨rfl, rfl⟩
  | @cons f s fs members hf _ ih =>
    have hanswers : f.answersTo name = s.answersTo name := by
      rw [Field.answersTo, Member.answersTo, hf.name, hf.aliases]
    rw [List.find?_cons, List.find?_cons, hanswers]
    cases s.answersTo name with
    | true => exact .inr ⟨f, s, rfl, rfl, List.mem_cons_self, hf⟩
    | false =>
      obtain ⟨hfs, hmembers⟩ | ⟨g, u, hfs, hmembers, hmem, hg⟩ := ih
      · exact .inl ⟨hfs, hmembers⟩
      · exact .inr ⟨g, u, hfs, hmembers, List.mem_cons_of_mem f hmem, hg⟩

theorem reports_stray {x : StateT (List Path) (Except Error) δ} {fs : List (Misfit × Pos)}
    {P : δ → Prop} (hx : Reports x fs P) (p : Path) {n : Node} (hn : n.skip = .ok ()) :
    Reports (do
      dialect.tracking.note p
      dialect.tracking.skip n
      x) fs P := by
  have hskip : dialect.tracking.skip n = liftM (Except.ok () : Except Error Unit) :=
    congrArg (liftM ·) hn
  have hnote : Reports (dialect.tracking.note p) [] fun _ => True := fun ps => ⟨(), ps ++ [p], rfl, trivial⟩
  rw [hskip]
  exact hnote.bind fun _ _ => .lift_bind hx

namespace Asks
variable (h : Asks lay members)
include h

/-- By induction on the entries: each repeats a field, fills a field that was empty so far, or is passed
over. -/
theorem readEntries (p : Path) (n : Node) {entries : List (Key × Node)}
    (hkeys : ∀ e ∈ entries, ∃ name, e.1.text = .ok name) (hskip : ∀ e ∈ entries, e.2.skip = .ok ())
    (hsound : ∀ e ∈ entries, ∀ s, Form.member? members e.1.text.toOption = some s → Sound s.form e.2)
    {draft : δ} {seen : List String} (hdraft : Sets lay draft seen) :
    Reports (lay.readEntries dialect.tracking p n entries draft)
      (Node.flawsOfEntries entries members seen)
      fun draft' => Sets lay draft' (filled members entries ++ seen) := by
  induction entries generalizing draft seen with
  | nil => exact .pure hdraft
  | cons e es ih =>
    obtain ⟨⟨text, stop⟩, v⟩ := e
    rw [List.forall_mem_cons] at hkeys hskip hsound
    obtain ⟨name, rfl⟩ : ∃ name, text = .ok name := hkeys.1
    rw [Layout.readEntries, Node.flawsOfEntries, filled_cons]
    refine .lift_bind ?_
    obtain ⟨hfs, hmembers⟩ | ⟨f, s, hfs, hmembers, hf, hserves⟩ := find?_serves h.fields name
    · have hnone : Form.member? members (some name) = none := hmembers
      simp only [Except.toOption, hnone, Step.plain, hfs]
      exact reports_stray (ih hkeys.2 hskip.2 hsound.2 hdraft) _ hskip.1
    · have hsome : Form.member? members (some name) = some s := hmembers
      simp only [Except.toOption, hsome, Step.plain, hfs, hdraft f hf, hserves.name]
      by_cases hseen : s.name ∈ seen
      · simp only [hseen, decide_true, if_true]
        exact .fail _ _
      · simp only [hseen, decide_false, Bool.false_eq_true, if_false]
        refine (hserves.read _ n v draft (hsound.1 s hsome)).bind fun next hnext => ?_
        have hset : Sets lay next (s.name :: seen) := by
          intro g hg
          rw [hnext g hg, hdraft g hg, Bool.or_comm, ← Bool.decide_or]
          simp only [List.mem_cons]
        refine (ih hkeys.2 hskip.2 hsound.2 hset).weaken fun last hlast => hlast.congr fun name => ?_
        simp only [List.mem_append, List.mem_cons, Option.map_some, Option.toList_some,
          List.not_mem_nil, or_false]
        exact or_left_comm.trans or_assoc.symm

theorem conclude {p : Path} {start stop : Pos} {entries : List (Key × Node)} {draft : δ}
    {names : List String} (hdraft : Sets lay draft names) :
    Reports (lay.conclude dialect.tracking p (.map start entries (.closed stop)) draft)
      (Node.flawsOfEnding members names (.closed stop)) fun a => lay.finish draft = .ok a := by
  have hfinish := h.finish hdraft
  rw [Layout.conclude, Node.flawsOfEnding]
  cases hlacking : Form.lacking? members names with
  | some s =>
    have herror : lay.finish draft = .error s.name := by rwa [hlacking] at hfinish
    rw [herror]
    exact .fail _ _
  | none =>
    obtain ⟨a, ha⟩ : ∃ a, lay.finish draft = .ok a := by rwa [hlacking] at hfinish
    rw [ha]
    exact .pure rfl

/-- A structure reports its first flaw; if it has none, what is returned comes from the fields that its
entries fill. -/
theorem read {r : Record} (hr : lay.record = r) {p : Path} {n : Node} (hn : Sound (.record r members) n) :
    Reports (lay.read dialect.tracking p n) (n.flaws (.record r members)) fun a =>
      ∃ draft, lay.finish draft = .ok a ∧ Sets lay draft (filled members n.entries) := by
  subst hr
  cases hn with
  | scalar => exact .lift_bind (.fail _ _)
  | otherList _ h => exact absurd rfl (h _ _)
  | otherMap h => exact absurd rfl (h _ _)
  | @map _ _ start stop entries hkeys hskip hsound =>
    refine .lift_bind ?_
    refine (h.readEntries p _ hkeys hskip hsound h.empty).bind fun draft hdraft => ?_
    rw [List.append_nil] at hdraft
    exact (h.conclude hdraft).weaken fun a ha => ⟨draft, ha, hdraft⟩

end Asks

end Structures

/-! ## The structures of a site -/

theorem asks_item : Asks dialect.tracking.itemLayout Form.itemMembers where
  fields := by
    refine .cons ⟨rfl, rfl, fun p holder n draft h => ?_⟩
      (.cons ⟨rfl, rfl, fun p holder n draft h => ?_⟩ .nil)
    · refine (reports_text h).put fun _ _ => ?_
      simp [Dialect.itemLayout]
    · refine (reports_text h).put fun _ _ => ?_
      simp [Dialect.itemLayout]
  empty := by simp [Sets, Dialect.itemLayout]
  finish := by
    rintro ⟨_ | text, _ | link⟩ names h
    all_goals
      simp [Sets, Dialect.itemLayout] at h
      simp [Form.lacking?, Form.itemMembers, Dialect.itemLayout, ItemDraft.finish, h]

theorem reports_item (p : Path) (n : Node) (h : Sound .item n) :
    Reports (dialect.tracking.readItem p n) (n.flaws .item) fun _ => True :=
  (asks_item.read rfl h).weaken fun _ _ => trivial

theorem asks_group : Asks dialect.tracking.groupLayout Form.groupMembers where
  fields := by
    refine .cons ⟨rfl, rfl, fun p holder n draft h => ?_⟩
      (.cons ⟨rfl, rfl, fun p holder n draft h => ?_⟩
      (.cons ⟨rfl, rfl, fun p holder n draft h => ?_⟩ .nil))
    · refine (reports_text h).put fun _ _ => ?_
      simp [Dialect.groupLayout]
    · refine (reports_flag h).put fun _ _ => ?_
      simp [Dialect.groupLayout]
    · refine (reports_list reports_item h).put fun _ _ => ?_
      simp [Dialect.groupLayout]
  empty := by simp [Sets, Dialect.groupLayout]
  finish := by
    rintro ⟨_ | text, collapsible, _ | items⟩ names h
    all_goals
      simp [Sets, Dialect.groupLayout] at h
      simp [Form.lacking?, Form.groupMembers, Dialect.groupLayout, GroupDraft.finish, h]

theorem reports_group (p : Path) (n : Node) (h : Sound .group n) :
    Reports (dialect.tracking.readGroup p n) (n.flaws .group) fun _ => True :=
  (asks_group.read rfl h).weaken fun _ _ => trivial

theorem asks_theme : Asks dialect.tracking.themeLayout Form.themeMembers where
  fields := by
    refine .cons ⟨rfl, rfl, fun p holder n draft h => ?_⟩ .nil
    refine (reports_list reports_group h).put fun _ _ => ?_
    simp [Dialect.themeLayout]
  empty := by simp [Sets, Dialect.themeLayout]
  finish := by
    rintro ⟨_ | gs⟩ names h
    all_goals
      simp [Sets, Dialect.themeLayout] at h
      simp [Form.lacking?, Form.themeMembers, Dialect.themeLayout, ThemeDraft.finish, h]

theorem asks_site : Asks dialect.tracking.siteLayout Form.siteMembers where
  fields := by
    refine .cons ⟨rfl, rfl, fun p holder n draft h => ?_⟩
      (.cons ⟨rfl, rfl, fun p holder n draft h => ?_⟩
      (.cons ⟨rfl, rfl, fun p holder n draft h => ?_⟩
      (.cons ⟨rfl, rfl, fun p holder n draft h => ?_⟩
      (.cons ⟨rfl, rfl, fun p holder n draft h => ?_⟩ .nil))))
    · refine (reports_text h).put fun _ _ => ?_
      simp [Dialect.siteLayout]
    · refine (reports_text h).put fun _ _ => ?_
      simp [Dialect.siteLayout]
    · refine (reports_text h).put fun _ _ => ?_
      simp [Dialect.siteLayout]
    · refine (reports_list reports_group h).put fun _ _ => ?_
      simp [Dialect.siteLayout]
    · refine (asks_theme.read rfl h).put fun _ _ => ?_
      simp [Dialect.siteLayout]
  empty := by simp [Sets, Dialect.siteLayout]
  finish := by
    rintro ⟨_ | title, _ | description, _ | basePath, sidebar, themeSidebar⟩ names h
    all_goals
      simp [Sets, Dialect.siteLayout] at h
      simp [Form.lacking?, Form.siteMembers, Dialect.siteLayout, SiteDraft.finish, h]

end SiteNav.Json
