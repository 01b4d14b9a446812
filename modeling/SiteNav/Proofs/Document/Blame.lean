import SiteNav.Proofs.Document.Form
import SiteNav.Proofs.Document.Inspection

/-!
# What a refusal is about

A value is asked for where a structure has a field for it or a list holds it. A reader looks at nothing
else, so when it fails, one of these looks has failed: at a value that is not of the form that is asked
of it, or at a structure that lacks a field. Main statement: a property of errors that each look through
a dialect makes sure of, where it is asked for, holds of what a document is refused with.
-/
namespace SiteNav.Document
variable {ν κ : Type}

namespace Form

def all : List Form :=
  [site, theme, list group, group, list item, item, text, flag]

theorem members_of_mem_all {r : Record} {members : List (Member Form)} (h : record r members ∈ all) :
    members = siteMembers ∨ members = themeMembers ∨ members = groupMembers ∨ members = itemMembers := by
  simp only [all, site, theme, group, item, List.mem_cons, record.injEq, reduceCtorEq, List.not_mem_nil,
    or_false, false_or] at h
  tauto

theorem mem_all_of_member {r : Record} {members : List (Member Form)} {s : Member Form}
    (h : record r members ∈ all) (hs : s ∈ members) : s.form ∈ all := by
  have hforms : ∀ members ∈ [siteMembers, themeMembers, groupMembers, itemMembers], ∀ s ∈ members,
      s.form ∈ all := by
    simp [siteMembers, themeMembers, groupMembers, itemMembers, all]
  have hmembers := members_of_mem_all h
  exact hforms members (by simpa using hmembers) s hs

theorem mem_all_of_element {element : Form} (h : list element ∈ all) : element ∈ all := by
  simp only [all, site, theme, group, item, List.mem_cons, list.injEq, reduceCtorEq, List.not_mem_nil,
    or_false, false_or] at h
  rcases h with rfl | rfl <;> simp [all, group, item]

end Form

/-- What there is to see in a document. -/
structure Sight (ν κ : Type) where
  /-- The node that stands at a place, and its view. -/
  view : ν → Option (ν × View ν κ)
  /-- The step to the entry of a key. -/
  step : κ → Option Step
  isText : ν → Bool
  isFlag : ν → Bool
  /-- A structure may be written as the list of its fields. -/
  positional : Bool

/-- The view of a list or structure where one is called for. -/
def View.fits (positional : Bool) : Form → View ν κ → Bool
  | .list _, .list _ | .list _, .void | .record _ _, .map _ | .record _ _, .void => true
  | .record _ _, .list _ => positional
  | _, _ => false

namespace Sight
variable (S : Sight ν κ)

/-- The value is of the form, whatever is inside of it. -/
def Fits (fm : Form) (n : ν) : Prop :=
  match fm with
  | .text => S.isText n = true
  | .flag => S.isFlag n = true
  | _ => ∃ n' v, S.view n = some (n', v) ∧ v.fits S.positional fm = true

def names : View ν κ → List (Option String)
  | .map es => es.map fun e => (S.step e.1).map Step.plain
  | _ => []

/-- A form is asked of the value at some path. The innermost field on the way is given by the step to it;
the document itself is in no field. -/
inductive Asks (root : ν) : Form → Option Step → Path → ν → Prop
  | root : Asks root .site none [] root
  | field {r : Record} {members : List (Member Form)} {o : Option Step} {p : Path} {n n' v : ν}
      {es : List (κ × ν)} {k : κ} {step : Step} {s : Member Form}
      (h : Asks root (.record r members) o p n) (hview : S.view n = some (n', .map es)) (hv : (k, v) ∈ es)
      (hstep : S.step k = some step) (hs : Form.member? members (some step.plain) = some s) :
      Asks root s.form (some step) (step :: p) v
  | element {fm : Form} {o : Option Step} {p : Path} {n n' v : ν} {ns : List ν} {i : Nat}
      (h : Asks root (.list fm) o p n) (hview : S.view n = some (n', .list ns)) (hv : ns[i]? = some v) :
      Asks root fm o (.index i :: p) v

/-- A structure lacks a required field, or the site lacks a sidebar in both of its places. -/
inductive Lacks (root : ν) : String → Prop
  | field {r : Record} {members : List (Member Form)} {o : Option Step} {p : Path} {n n' : ν}
      {v : View ν κ} {s : Member Form} (h : S.Asks root (.record r members) o p n)
      (hview : S.view n = some (n', v)) (hs : s ∈ members) (hrequired : s.required = true)
      (hname : s.name ∉ Form.filled members (S.names v)) : Lacks root s.name
  | sidebar {n' : ν} {v : View ν κ} (hview : S.view root = some (n', v))
      (hsidebar : "sidebar" ∉ Form.filled Form.siteMembers (S.names v))
      (htheme : "themeConfig" ∉ Form.filled Form.siteMembers (S.names v)) : Lacks root "sidebar"

/-- What can be wrong with the fields of structures, whatever values they have. -/
inductive Amiss (root : ν) : Misfit → Prop
  | missing {name : String} (h : S.Lacks root name) : Amiss root (.missing name)
  | noSidebar (h : S.Lacks root "sidebar") : Amiss root .noSidebar
  | repeated (name : String) : Amiss root (.repeated name)
  | twoSidebars : Amiss root .twoSidebars

/-- Some structure is written as the list of its fields. -/
def Listed (root : ν) : Prop :=
  S.positional = true ∧ ∃ r members o p n n' ns, S.Asks root (.record r members) o p n ∧
    S.view n = some (n', .list ns)

variable {S}

/-- The path to a value goes through the field that it is in. -/
theorem Asks.step_mem {root n : ν} {fm : Form} {step : Step} {p : Path}
    (h : S.Asks root fm (some step) p n) : step ∈ p := by
  generalize ho : some step = o at h
  induction h with
  | root => cases ho
  | field =>
    cases ho
    exact List.mem_cons_self
  | element _ _ _ ih => exact List.mem_cons_of_mem _ (ih ho)

theorem Asks.eq_root {root n : ν} {fm : Form} {p : Path} (h : S.Asks root fm none p n) :
    fm = .site ∧ p = [] ∧ n = root := by
  generalize ho : none = o at h
  induction h with
  | root => exact ⟨rfl, rfl, rfl⟩
  | field => cases ho
  | element _ _ _ ih => cases (ih ho).1

theorem Asks.form_mem {root n : ν} {fm : Form} {o : Option Step} {p : Path}
    (h : S.Asks root fm o p n) : fm ∈ Form.all := by
  induction h with
  | root => exact List.mem_cons_self
  | field _ _ _ _ hs ih => exact Form.mem_all_of_member ih (List.mem_of_find?_eq_some hs)
  | element _ _ _ ih => exact Form.mem_all_of_element ih

theorem Asks.exists_of_flag {root n : ν} {step : Step} {p : Path}
    (h : S.Asks root .flag (some step) p n) : ∃ above, p = step :: above := by
  generalize hfm : Form.flag = fm at h
  generalize ho : some step = o at h
  cases h with
  | root => cases ho
  | field =>
    cases ho
    exact ⟨_, rfl⟩
  | element hn =>
    subst hfm
    have hflags := hn.form_mem
    simp [Form.all, Form.site, Form.theme, Form.group, Form.item] at hflags

end Sight

variable {m : Type → Type} [Monad m]

/-- Every look through the dialect fails with nothing but what the guarantee lets it fail with, if the
value that is looked at is asked for, and if what a failure is about is so. -/
structure Dialect.Blames (g : Guarantee m) (S : Sight ν κ) (root : ν) (d : Dialect m ν κ) : Prop where
  view : ∀ {fm o p n}, S.Asks root fm o p n → g.holds (fun v => S.view n = some v) (d.view n)
  text : ∀ {o p n}, S.Asks root .text o p n → g.holds (fun _ => True) (d.text p n)
  flag : ∀ {o p n} holder, S.Asks root .flag o p n → g.holds (fun _ => True) (d.flag p holder n)
  key : ∀ p n k, g.holds (fun step => S.step k = some step) (d.key p n k)
  mistyped : ∀ {α : Type} (P : α → Prop) {fm o p n n' v}, S.Asks root fm o p n →
    S.view n = some (n', v) → ¬S.Fits fm n → g.holds P (d.mistyped p n' fm.expected)
  missing : ∀ {α : Type} (P : α → Prop) {name} p n, S.Lacks root name →
    g.holds P (d.reject p (.closing n) (.missing name))
  repeated : ∀ {α : Type} (P : α → Prop) p n k name, g.holds P (d.reject p (.entry n k) (.repeated name))
  twoSidebars : ∀ {α : Type} (P : α → Prop), g.holds P (d.reject [] .document .twoSidebars)
  noSidebar : ∀ {α : Type} (P : α → Prop), S.Lacks root "sidebar" →
    g.holds P (d.reject [] .document .noSidebar)
  close : ∀ n, g.holds (fun _ => True) (d.close n)
  skip : ∀ n, g.holds (fun _ => True) (d.skip n)
  note : ∀ p, g.holds (fun _ => True) (d.note p)
  positional : d.positional = S.positional

variable {g : Guarantee m} {S : Sight ν κ} {root : ν} {d : Dialect m ν κ}

/-! ## Structures -/

section Structures
variable {δ α : Type}

/-- The fields of these names are set in a draft. -/
def Layout.Holds (lay : Layout m ν δ α) (draft : δ) (names : List String) : Prop :=
  ∀ f ∈ lay.fields, f.name ∈ names → f.isSet draft = true

/-- A field is read as the member asks. It is set then, and what was set stays so. -/
structure Field.Covers (g : Guarantee m) (S : Sight ν κ) (root : ν) (fs : List (Field m ν δ))
    (f : Field m ν δ) (s : Member Form) : Prop where
  name : f.name = s.name
  aliases : f.aliases = s.aliases
  read : ∀ {o p n} holder draft, S.Asks root s.form o p n →
    g.holds (fun next => ∀ h ∈ fs, h.name = s.name ∨ h.isSet draft = true → h.isSet next = true)
      (f.read p holder n draft)

/-- A structure is read as its members ask. Where it fails to be complete, a required member is not set. -/
structure Layout.Covers (g : Guarantee m) (S : Sight ν κ) (root : ν) (lay : Layout m ν δ α)
    (members : List (Member Form)) : Prop where
  fields : List.Forall₂ (Field.Covers g S root lay.fields) lay.fields members
  finish : ∀ {draft name}, lay.finish draft = .error name →
    ∃ s ∈ members, s.required = true ∧ s.name = name ∧ ∃ f ∈ lay.fields, f.name = name ∧
      f.isSet draft = false

variable {lay : Layout m ν δ α} {members : List (Member Form)}

/-- A name is that of a field and of the member it covers, or of neither. -/
theorem find?_covers {all fs : List (Field m ν δ)}
    (h : List.Forall₂ (Field.Covers g S root all) fs members) (name : String) :
    (fs.find? (·.answersTo name) = none ∧ members.find? (·.answersTo name) = none) ∨
    ∃ f s, fs.find? (·.answersTo name) = some f ∧ members.find? (·.answersTo name) = some s ∧
      Field.Covers g S root all f s := by
  induction h with
  | nil => exact .inl ⟨rfl, rfl⟩
  | @cons f s fs members hf _ ih =>
    have hanswers : f.answersTo name = s.answersTo name := by
      rw [Field.answersTo, Member.answersTo, hf.name, hf.aliases]
    rw [List.find?_cons, List.find?_cons, hanswers]
    cases s.answersTo name with
    | true => exact .inr ⟨f, s, rfl, rfl, hf⟩
    | false => exact ih

namespace Layout.Covers
variable (h : lay.Covers g S root members) (hd : d.Blames g S root) {r : Record} {o : Option Step}
  {p : Path} {n n' : ν}
include h hd

/-- By induction on the entries: the fields that are set are those of the keys so far. -/
theorem readEntries {all es : List (κ × ν)} (hn : S.Asks root (.record r members) o p n)
    (hview : S.view n = some (n', .map all)) (hes : es ⊆ all) {draft : δ} {seen : List String}
    (hdraft : lay.Holds draft seen) :
    g.holds (fun last => lay.Holds last (Form.filled members (S.names (.map es)) ++ seen))
      (lay.readEntries d p n' es draft) := by
  induction es generalizing draft seen with
  | nil => exact g.pure hdraft
  | cons e es ih =>
    obtain ⟨k, v⟩ := e
    rw [List.cons_subset] at hes
    have hcons : Form.filled members (S.names (.map ((k, v) :: es))) =
        ((Form.member? members ((S.step k).map Step.plain)).map (·.name)).toList ++
          Form.filled members (S.names (.map es)) := Form.filled_cons ..
    refine g.bind (hd.key p n' k) ?_
    intro step hstep
    rw [hcons, hstep]
    obtain ⟨hfind, hmember⟩ | ⟨f, s, hfind, hmember, hf⟩ := find?_covers h.fields step.plain
    · have hnone : Form.member? members (some step.plain) = none := hmember
      simp only [hfind, Option.map_some, hnone]
      refine g.bind (hd.note _) fun _ _ => ?_
      exact g.bind (hd.skip v) fun _ _ => ih hes.2 hdraft
    · have hsome : Form.member? members (some step.plain) = some s := hmember
      simp only [hfind, Option.map_some, hsome]
      split
      · exact hd.repeated ..
      · refine g.bind (hf.read n' draft (.field hn hview hes.1 hstep hsome)) ?_
        intro next hnext
        have hset : lay.Holds next (s.name :: seen) := by
          intro f' hf' hname
          apply hnext f' hf'
          rcases List.mem_cons.1 hname with hname | hname
          · exact .inl hname
          · exact .inr (hdraft f' hf' hname)
        refine g.imp ?_ (ih hes.2 hset)
        intro last hlast f' hf' hname
        apply hlast f' hf'
        simp only [Option.toList_some, List.mem_append, List.mem_cons, List.not_mem_nil, or_false] at hname ⊢
        tauto

theorem conclude {v : View ν κ} (hn : S.Asks root (.record r members) o p n)
    (hview : S.view n = some (n', v)) {draft : δ}
    (hdraft : lay.Holds draft (Form.filled members (S.names v))) :
    g.holds (fun a => lay.finish draft = .ok a) (lay.conclude d p n' draft) := by
  rw [Layout.conclude]
  cases hfinish : lay.finish draft with
  | ok a => exact g.pure rfl
  | error name =>
    obtain ⟨s, hs, hrequired, rfl, f, hf, hname, hunset⟩ := h.finish hfinish
    refine hd.missing _ _ _ (.field hn hview hs hrequired fun hfilled => ?_)
    rw [hdraft f hf (hname ▸ hfilled)] at hunset
    cases hunset

theorem read (hr : lay.record = r) (hmaps : ¬S.Listed root) (hn : S.Asks root (.record r members) o p n) :
    g.holds (fun a => ∃ n' v draft, S.view n = some (n', v) ∧ lay.finish draft = .ok a ∧
      lay.Holds draft (Form.filled members (S.names v))) (lay.read d p n) := by
  have hempty : lay.Holds lay.empty [] := fun _ _ hname => absurd hname List.not_mem_nil
  refine g.bind (hd.view hn) ?_
  rintro ⟨n', view⟩ hview
  have hmistyped : view.fits S.positional (.record r members) = false →
      g.holds (fun a => ∃ n' v draft, S.view n = some (n', v) ∧ lay.finish draft = .ok a ∧
        lay.Holds draft (Form.filled members (S.names v))) (d.mistyped p n' (.record lay.record)) := by
    intro hfits
    rw [hr]
    refine hd.mistyped _ hn hview ?_
    rintro ⟨n'', v, hv, hfit⟩
    rw [hview] at hv
    cases hv
    rw [hfits] at hfit
    cases hfit
  cases view with
  | scalar => exact hmistyped rfl
  | void =>
    refine g.imp ?_ (h.conclude hd hn hview hempty)
    intro a ha
    exact ⟨n', _, _, hview, ha, hempty⟩
  | map es =>
    refine g.bind (h.readEntries hd hn hview (List.Subset.refl es) hempty) ?_
    intro draft hdraft
    rw [List.append_nil] at hdraft
    refine g.bind (hd.close n') fun _ _ => g.imp ?_ (h.conclude hd hn hview hdraft)
    intro a ha
    exact ⟨n', _, draft, hview, ha, hdraft⟩
  | list ns =>
    dsimp only
    cases hpositional : d.positional with
    | true => exact absurd ⟨hd.positional ▸ hpositional, _, _, _, _, _, _, _, hn, hview⟩ hmaps
    | false =>
      apply hmistyped
      rw [View.fits, ← hd.positional, hpositional]

end Layout.Covers

end Structures

/-! ## Lists -/

section Lists
variable {α : Type} {readOne : Path → ν → m α} {fm : Form} {o : Option Step} {p : Path} {n n' : ν}
  (hone : ∀ {o p n}, S.Asks root fm o p n → g.holds (fun _ => True) (readOne p n))
include hone

/-- By induction on the elements that are left. -/
theorem readItemsFrom_blames (hn : S.Asks root (.list fm) o p n) (front : List ν) {ns : List ν}
    (hview : S.view n = some (n', .list (front ++ ns))) :
    g.holds (fun _ => True) (readItemsFrom readOne p front.length ns) := by
  induction ns generalizing front with
  | nil => exact g.pure trivial
  | cons v ns ih =>
    have hv : (front ++ v :: ns)[front.length]? = some v := by simp
    have hrest : S.view n = some (n', .list ((front ++ [v]) ++ ns)) := by
      rw [List.append_assoc]
      exact hview
    refine g.bind (hone (.element hn hview hv)) fun a _ => ?_
    have htail := ih _ hrest
    rw [List.length_append, List.length_singleton] at htail
    exact g.bind htail fun as _ => g.pure trivial

theorem readList_blames (hd : d.Blames g S root) (hn : S.Asks root (.list fm) o p n) :
    g.holds (fun _ => True) (readList d readOne p n) := by
  refine g.bind (hd.view hn) ?_
  rintro ⟨n', view⟩ hview
  have hmistyped : view.fits S.positional (.list fm) = false →
      g.holds (fun _ : List α => True) (d.mistyped p n' .list) := by
    intro hfits
    refine hd.mistyped (fun _ => True) hn hview ?_
    rintro ⟨n'', v, hv, hfit⟩
    rw [hview] at hv
    cases hv
    rw [hfits] at hfit
    cases hfit
  cases view with
  | scalar => exact hmistyped rfl
  | map es => exact hmistyped rfl
  | void => exact g.pure trivial
  | list ns =>
    have hitems : g.holds (fun _ => True) (readItemsFrom readOne p 0 ns) :=
      readItemsFrom_blames hone hn [] hview
    exact g.bind hitems fun as _ => g.bind (hd.close n') fun _ _ => g.pure trivial

end Lists

/-! ## The structures of a site -/

theorem Guarantee.fills {α δ : Type} {P : δ → Prop} {x : m α} (hx : g.holds (fun _ => True) x)
    {put : α → δ} (h : ∀ a, P (put a)) : g.holds P (do return put (← x)) :=
  g.bind hx fun a _ => g.pure (h a)

namespace Dialect.Blames
variable (hd : d.Blames g S root) {o : Option Step} {p : Path} {n : ν}
include hd

theorem covers_item : d.itemLayout.Covers g S root Form.itemMembers where
  fields := by
    refine .cons ⟨rfl, rfl, fun _ draft hn => ?_⟩ (.cons ⟨rfl, rfl, fun _ draft hn => ?_⟩ .nil)
    · exact Guarantee.fills (hd.text hn) fun a => by simp [Dialect.itemLayout]
    · exact Guarantee.fills (hd.text hn) fun a => by simp [Dialect.itemLayout]
  finish := by
    rintro ⟨_ | text, _ | link⟩ name h
    all_goals cases h
    all_goals simp [Form.itemMembers, Dialect.itemLayout]

theorem readItem (hmaps : ¬S.Listed root) (hn : S.Asks root .item o p n) :
    g.holds (fun _ => True) (d.readItem p n) :=
  g.imp (fun _ _ => trivial) (hd.covers_item.read hd rfl hmaps hn)

theorem covers_group (hmaps : ¬S.Listed root) : d.groupLayout.Covers g S root Form.groupMembers where
  fields := by
    refine .cons ⟨rfl, rfl, fun _ draft hn => ?_⟩ (.cons ⟨rfl, rfl, fun _ draft hn => ?_⟩
      (.cons ⟨rfl, rfl, fun _ draft hn => ?_⟩ .nil))
    · exact Guarantee.fills (hd.text hn) fun a => by simp [Dialect.groupLayout]
    · exact Guarantee.fills (hd.flag _ hn) fun a => by simp [Dialect.groupLayout]
    · exact Guarantee.fills (readList_blames (hd.readItem hmaps) hd hn) fun a => by
        simp [Dialect.groupLayout]
  finish := by
    rintro ⟨_ | text, collapsible, _ | items⟩ name h
    all_goals cases h
    all_goals simp [Form.groupMembers, Dialect.groupLayout]

theorem readGroup (hmaps : ¬S.Listed root) (hn : S.Asks root .group o p n) :
    g.holds (fun _ => True) (d.readGroup p n) :=
  g.imp (fun _ _ => trivial) ((hd.covers_group hmaps).read hd rfl hmaps hn)

theorem readSidebar (hmaps : ¬S.Listed root) (hn : S.Asks root (.list .group) o p n) :
    g.holds (fun _ => True) (d.readSidebar p n) :=
  readList_blames (hd.readGroup hmaps) hd hn

theorem covers_theme (hmaps : ¬S.Listed root) : d.themeLayout.Covers g S root Form.themeMembers where
  fields := by
    refine .cons ⟨rfl, rfl, fun _ draft hn => ?_⟩ .nil
    exact Guarantee.fills (hd.readSidebar hmaps hn) fun a => by simp [Dialect.themeLayout]
  finish := by
    rintro ⟨_ | gs⟩ name h
    all_goals cases h
    all_goals simp [Form.themeMembers, Dialect.themeLayout]

theorem readTheme (hmaps : ¬S.Listed root) (hn : S.Asks root .theme o p n) :
    g.holds (fun _ => True) (d.themeLayout.read d p n) :=
  g.imp (fun _ _ => trivial) ((hd.covers_theme hmaps).read hd rfl hmaps hn)

theorem covers_site (hmaps : ¬S.Listed root) : d.siteLayout.Covers g S root Form.siteMembers where
  fields := by
    refine .cons ⟨rfl, rfl, fun _ draft hn => ?_⟩ (.cons ⟨rfl, rfl, fun _ draft hn => ?_⟩
      (.cons ⟨rfl, rfl, fun _ draft hn => ?_⟩ (.cons ⟨rfl, rfl, fun _ draft hn => ?_⟩
      (.cons ⟨rfl, rfl, fun _ draft hn => ?_⟩ .nil))))
    · exact Guarantee.fills (hd.text hn) fun a => by simp [Dialect.siteLayout]
    · exact Guarantee.fills (hd.text hn) fun a => by simp [Dialect.siteLayout]
    · exact Guarantee.fills (hd.text hn) fun a => by simp [Dialect.siteLayout]
    · exact Guarantee.fills (hd.readSidebar hmaps hn) fun a => by simp [Dialect.siteLayout]
    · exact Guarantee.fills (hd.readTheme hmaps hn) fun a => by simp [Dialect.siteLayout]
  finish := by
    rintro ⟨_ | title, _ | description, _ | basePath, sidebar, themeSidebar⟩ name h
    all_goals cases h
    all_goals simp [Form.siteMembers, Dialect.siteLayout]

/-- A site without a sidebar has filled neither place for it. -/
theorem readSite (hmaps : ¬S.Listed root) : g.holds (fun _ => True) (d.readSite root) := by
  refine g.bind ((hd.covers_site hmaps).read hd rfl hmaps .root) ?_
  rintro raw ⟨n', v, ⟨title, description, basePath, sidebar, themeSidebar⟩, hview, hfinish, hset⟩
  rcases title with _ | title
  · cases hfinish
  rcases description with _ | description
  · cases hfinish
  rcases basePath with _ | basePath
  · cases hfinish
  cases hfinish
  rcases sidebar with _ | gs
  · rcases themeSidebar with _ | gs
    · simp only [Layout.Holds, Dialect.siteLayout, List.forall_mem_cons, Option.isSome_none,
        Bool.false_eq_true, imp_false] at hset
      exact hd.noSidebar _ (.sidebar hview hset.2.2.2.1 hset.2.2.2.2.1)
    · exact g.pure trivial
  · rcases themeSidebar with _ | gs'
    · exact g.pure trivial
    · exact hd.twoSidebars _

end Dialect.Blames

/-! ## Errors -/

/-- Nothing but errors of some kind. -/
def Guarantee.failing {ε : Type} (E : ε → Prop) : Guarantee (Except ε) where
  holds P x := match x with
    | .ok a => P a
    | .error e => E e
  pure h := h
  bind {α β P Q x f} hx hf := by
    cases x with
    | ok a => exact hf a hx
    | error e => exact hx
  imp {α P Q x} h hx := by
    cases x with
    | ok a => exact h a hx
    | error e => exact hx

def Guarantee.stateful (g : Guarantee m) (σ : Type) : Guarantee (StateT σ m) where
  holds {α} P x := ∀ s, g.holds (fun r : α × σ => P r.1) (x.run s)
  pure h _ := g.pure h
  bind hx hf s := g.bind (hx s) fun r h => hf r.1 h r.2
  imp h hx s := g.imp (fun r => h r.1) (hx s)

theorem Dialect.Blames.tracking (hd : d.Blames g S root) : d.tracking.Blames g.tracking S root where
  view hn := g.tracking_lift (hd.view hn)
  text hn := g.tracking_lift (hd.text hn)
  flag holder hn := g.tracking_lift (hd.flag holder hn)
  key p n k := g.tracking_lift (hd.key p n k)
  mistyped P _ _ _ _ _ _ hn hview hfits := g.tracking_lift (hd.mistyped P hn hview hfits)
  missing P _ p n h := g.tracking_lift (hd.missing P p n h)
  repeated P p n k name := g.tracking_lift (hd.repeated P p n k name)
  twoSidebars P := g.tracking_lift (hd.twoSidebars P)
  noSidebar P h := g.tracking_lift (hd.noSidebar P h)
  close n := g.tracking_lift (hd.close n)
  skip n := g.tracking_lift (hd.skip n)
  note p := g.tracking.bind (g.tracking_lift (hd.note p)) fun _ _ _ => g.pure trivial
  positional := hd.positional

/-- What a document with its structures in maps is refused with, some look through the dialect failed
with. -/
theorem Dialect.Blames.readTracked (hd : d.Blames g S root) (hmaps : ¬S.Listed root) :
    g.holds (fun _ => True) (d.readTracked root) :=
  hd.tracking.readSite hmaps []

end SiteNav.Document
