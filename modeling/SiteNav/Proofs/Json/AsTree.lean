import SiteNav.Json.Dialect
import SiteNav.Proofs.Document.Comparison
import SiteNav.Proofs.Document.Inspection
import SiteNav.Proofs.Document.Tree

/-!
# JSON documents as trees

A document is a tree if its text has no fault between its brackets, braces and commas. Faults inside
scalars and keys stay where they are: a number that is too large, or a text with a code point that is
only half of a character, has no value. Main statement: readers see the tree in the document.
-/
namespace SiteNav.Json
open Document

abbrev Tree := Document.Tree (Option String) (Option Scalar)

def meaning : Meaning (Option String) (Option Scalar) where
  name k := k
  text
    | some (.text s) => some s
    | _ => none
  flag
    | some .null => some none
    | some (.bool b) => some (some b)
    | _ => none
  positional := true
  exact := true

namespace Node

mutual

def tree? : Node → Option Tree
  | scalar _ _ value => some (.scalar value.toOption)
  | list _ items (.closed _) => (itemTrees? items).map .list
  | map _ entries (.closed _) => (entryTrees? entries).map .map
  | _ => none

def itemTrees? : List Node → Option (List Tree)
  | [] => some []
  | n :: rest =>
    match tree? n, itemTrees? rest with
    | some t, some ts => some (t :: ts)
    | _, _ => none

def entryTrees? : List (Key × Node) → Option (List (Option String × Tree))
  | [] => some []
  | (k, n) :: rest =>
    match tree? n, entryTrees? rest with
    | some t, some es => some ((k.text.toOption, t) :: es)
    | _, _ => none

end

theorem forall₂_of_itemTrees? {ns : List Node} {ts : List Tree}
    (h : itemTrees? ns = some ts) : List.Forall₂ (fun n t => n.tree? = some t) ns ts := by
  induction ns generalizing ts with
  | nil =>
    cases h
    exact .nil
  | cons n ns ih =>
    rw [itemTrees?] at h
    split at h
    · cases h
      exact .cons ‹_› (ih ‹_›)
    · cases h

theorem forall₂_of_entryTrees? {ns : List (Key × Node)}
    {es : List (Option String × Tree)} (h : entryTrees? ns = some es) :
    List.Forall₂ (fun n e => n.1.text.toOption = e.1 ∧ n.2.tree? = some e.2) ns es := by
  induction ns generalizing es with
  | nil =>
    cases h
    exact .nil
  | cons n ns ih =>
    obtain ⟨k, n⟩ := n
    rw [entryTrees?] at h
    split at h
    · cases h
      exact .cons ⟨rfl, ‹_›⟩ (ih ‹_›)
    · cases h

/-- What is a tree is a scalar, or a list or map with a proper end. -/
theorem cases_of_tree? {n : Node} {t : Tree} (h : n.tree? = some t) :
    (∃ start stop value, n = .scalar start stop value ∧ t = .scalar value.toOption) ∨
    (∃ start items pos ts, n = .list start items (.closed pos) ∧ t = .list ts ∧
      List.Forall₂ (fun n t => n.tree? = some t) items ts) ∨
    (∃ start entries pos es, n = .map start entries (.closed pos) ∧ t = .map es ∧
      List.Forall₂ (fun n e => n.1.text.toOption = e.1 ∧ n.2.tree? = some e.2) entries es) := by
  cases n with
  | scalar start stop value =>
    cases h
    exact .inl ⟨start, stop, value, rfl, rfl⟩
  | list start items ending =>
    cases ending with
    | closed pos =>
      simp only [tree?, Option.map_eq_some_iff] at h
      obtain ⟨ts, hts, rfl⟩ := h
      exact .inr (.inl ⟨start, items, pos, ts, rfl, rfl, forall₂_of_itemTrees? hts⟩)
    | faulty _ _ _ => simp only [tree?, reduceCtorEq] at h
  | map start entries ending =>
    cases ending with
    | closed pos =>
      simp only [tree?, Option.map_eq_some_iff] at h
      obtain ⟨es, hes, rfl⟩ := h
      exact .inr (.inr ⟨start, entries, pos, es, rfl, rfl, forall₂_of_entryTrees? hes⟩)
    | faulty _ _ _ => simp only [tree?, reduceCtorEq] at h
  | broken start wanted skipped => simp only [tree?, reduceCtorEq] at h

mutual

/-- What is a tree can be skipped. -/
theorem skip_of_tree? : ∀ (n : Node) {t : Tree}, n.tree? = some t →
    n.skip = .ok ()
  | scalar _ _ _, _, _ => rfl
  | list _ items (.closed _), _, h => by
    simp only [tree?, Option.map_eq_some_iff] at h
    obtain ⟨ts, hts, _⟩ := h
    simp only [skip, skipItems_of_itemTrees? items hts]
    rfl
  | map _ entries (.closed _), _, h => by
    simp only [tree?, Option.map_eq_some_iff] at h
    obtain ⟨es, hes, _⟩ := h
    simp only [skip, skipEntries_of_entryTrees? entries hes]
    rfl
  | list _ _ (.faulty _ _ _), _, h => by simp only [tree?, reduceCtorEq] at h
  | map _ _ (.faulty _ _ _), _, h => by simp only [tree?, reduceCtorEq] at h
  | broken _ _ _, _, h => by simp only [tree?, reduceCtorEq] at h

theorem skipItems_of_itemTrees? : ∀ (ns : List Node) {ts : List Tree},
    itemTrees? ns = some ts → skipItems ns = .ok ()
  | [], _, _ => rfl
  | n :: ns, _, h => by
    rw [itemTrees?] at h
    split at h
    · simp only [skipItems, skip_of_tree? n ‹_›, skipItems_of_itemTrees? ns ‹_›]
      rfl
    · cases h

theorem skipEntries_of_entryTrees? : ∀ (ns : List (Key × Node))
    {es : List (Option String × Tree)},
    entryTrees? ns = some es → skipEntries ns = .ok ()
  | [], _, _ => rfl
  | (k, n) :: ns, _, h => by
    rw [entryTrees?] at h
    split at h
    · simp only [skipEntries, skip_of_tree? n ‹_›, skipEntries_of_entryTrees? ns ‹_›]
      rfl
    · cases h

end

end Node

theorem dialect_alike : dialect.Alike (.except Error) (fun _ n t => n.tree? = some t)
    (fun n t => n.tree? = some t) (fun k k' => k.text.toOption = k') meaning.dialect where
  view h := by
    obtain ⟨_, _, _, rfl, rfl⟩ | ⟨_, _, _, _, rfl, rfl, hts⟩ | ⟨_, _, _, _, rfl, rfl, hes⟩ :=
      Node.cases_of_tree? h
    · exact .ok ⟨h, .scalar⟩
    · exact .ok ⟨h, .list hts⟩
    · exact .ok ⟨h, .map hes⟩
  text p p' h := by
    obtain ⟨_, _, value, rfl, rfl⟩ | ⟨_, _, _, _, rfl, rfl, _⟩ | ⟨_, _, _, _, rfl, rfl, _⟩ :=
      Node.cases_of_tree? h
    · match value with
      | .ok (.text s) => exact .ok rfl
      | .ok .null | .ok (.bool _) | .ok (.number _) | .error _ => exact .error _
    · exact .error _
    · exact .error _
  flag p p' holder holder' h := by
    obtain ⟨_, _, value, rfl, rfl⟩ | ⟨_, _, _, _, rfl, rfl, _⟩ | ⟨_, _, _, _, rfl, rfl, _⟩ :=
      Node.cases_of_tree? h
    · match value with
      | .ok .null | .ok (.bool _) => exact .ok rfl
      | .ok (.text _) | .ok (.number _) | .error _ => exact .error _
    · exact .error _
    · exact .error _
  key {k _} p p' n n' h := by
    subst h
    obtain ⟨text, stop⟩ := k
    cases text with
    | ok name => exact .ok rfl
    | error f => exact .error _
  mistyped _ _ _ _ _ _ := .error _
  reject _ _ _ place _ _ := by cases place <;> exact .error _
  close h := by
    obtain ⟨_, _, _, rfl, _⟩ | ⟨_, _, _, _, rfl, _⟩ | ⟨_, _, _, _, rfl, _⟩ := Node.cases_of_tree? h
    · exact .ok rfl
    · exact .ok rfl
    · exact .ok rfl
  surplus h hns := by
    cases hns with
    | cons _ _ => exact .error _
    | nil =>
      obtain ⟨_, _, _, rfl, _⟩ | ⟨_, _, _, _, rfl, _⟩ | ⟨_, _, _, _, rfl, _⟩ := Node.cases_of_tree? h
      · exact .ok rfl
      · exact .ok rfl
      · exact .ok rfl
  skip {_ n t} h := by
    have hskip : dialect.skip n = .ok () := Node.skip_of_tree? n h
    have haccepts : meaning.dialect.skip t = some () :=
      if_pos (Meaning.accepts_of_forall (fun _ => rfl) t)
    rw [hskip, haccepts]
    exact .ok rfl
  note _ := .ok rfl
  positional := rfl

namespace Node

/-- A list or map that has a proper end. -/
def IsClosed (n : Node) : Prop :=
  ∀ elements fields skipped, n.ending ≠ some (.faulty elements fields skipped)

theorem isSome_itemTrees? {ns : List Node} (h : ∀ n ∈ ns, n.tree?.isSome) : (itemTrees? ns).isSome := by
  induction ns with
  | nil => rfl
  | cons n ns ih =>
    obtain ⟨hn, hns⟩ := List.forall_mem_cons.1 h
    obtain ⟨t, ht⟩ := Option.isSome_iff_exists.1 hn
    obtain ⟨ts, hts⟩ := Option.isSome_iff_exists.1 (ih hns)
    rw [itemTrees?, ht, hts]
    rfl

theorem isSome_entryTrees? {ns : List (Key × Node)} (h : ∀ e ∈ ns, e.2.tree?.isSome) :
    (entryTrees? ns).isSome := by
  induction ns with
  | nil => rfl
  | cons e ns ih =>
    obtain ⟨k, n⟩ := e
    obtain ⟨hn, hns⟩ := List.forall_mem_cons.1 h
    obtain ⟨t, ht⟩ := Option.isSome_iff_exists.1 hn
    obtain ⟨es, hes⟩ := Option.isSome_iff_exists.1 (ih hns)
    rw [entryTrees?, ht, hes]
    rfl

theorem isSome_tree?_list {start : Pos} {items : List Node} {ending : Ending}
    (hclosed : (list start items ending).IsClosed) (h : ∀ n ∈ items, n.tree?.isSome) :
    (list start items ending).tree?.isSome := by
  cases ending with
  | faulty elements fields skipped => exact absurd rfl (hclosed elements fields skipped)
  | closed pos =>
    rw [tree?, Option.isSome_map]
    exact isSome_itemTrees? h

theorem isSome_tree?_map {start : Pos} {entries : List (Key × Node)} {ending : Ending}
    (hclosed : (map start entries ending).IsClosed) (h : ∀ e ∈ entries, e.2.tree?.isSome) :
    (map start entries ending).tree?.isSome := by
  cases ending with
  | faulty elements fields skipped => exact absurd rfl (hclosed elements fields skipped)
  | closed pos =>
    rw [tree?, Option.isSome_map]
    exact isSome_entryTrees? h

theorem isClosed_of_skipEnd {ending : Ending} (h : skipEnd ending = .ok ()) :
    ∃ pos, ending = .closed pos := by
  cases ending with
  | closed pos => exact ⟨pos, rfl⟩
  | faulty _ _ _ => cases h

/-- Whoever has skipped one after the other has skipped both. -/
theorem ok_of_bind_ok {x y : Except Error Unit} (h : (x >>= fun _ => y) = .ok ()) :
    x = .ok () ∧ y = .ok () := by
  cases x with
  | ok u => exact ⟨rfl, h⟩
  | error e => cases h

mutual

/-- What is skipped is a tree. -/
theorem isSome_tree?_of_skip : ∀ n : Node, n.skip = .ok () → n.tree?.isSome
  | scalar _ _ _, _ => rfl
  | list _ items ending, h => by
    rw [skip] at h
    obtain ⟨hitems, hend⟩ := ok_of_bind_ok h
    obtain ⟨pos, rfl⟩ := isClosed_of_skipEnd hend
    exact isSome_tree?_list (fun _ _ _ h => by simp [Node.ending] at h) (isSome_tree?_of_skipItems items hitems)
  | map _ entries ending, h => by
    rw [skip] at h
    obtain ⟨hentries, hend⟩ := ok_of_bind_ok h
    obtain ⟨pos, rfl⟩ := isClosed_of_skipEnd hend
    exact isSome_tree?_map (fun _ _ _ h => by simp [Node.ending] at h) (isSome_tree?_of_skipEntries entries hentries)
  | broken _ _ _, h => by cases h

theorem isSome_tree?_of_skipItems : ∀ ns : List Node, skipItems ns = .ok () → ∀ n ∈ ns, n.tree?.isSome
  | [], _ => nofun
  | n :: ns, h => by
    rw [skipItems] at h
    obtain ⟨hn, hns⟩ := ok_of_bind_ok h
    exact List.forall_mem_cons.2 ⟨isSome_tree?_of_skip n hn, isSome_tree?_of_skipItems ns hns⟩

theorem isSome_tree?_of_skipEntries : ∀ ns : List (Key × Node), skipEntries ns = .ok () →
    ∀ e ∈ ns, e.2.tree?.isSome
  | [], _ => nofun
  | (_, n) :: ns, h => by
    rw [skipEntries] at h
    obtain ⟨hn, hns⟩ := ok_of_bind_ok h
    exact List.forall_mem_cons.2 ⟨isSome_tree?_of_skip n hn, isSome_tree?_of_skipEntries ns hns⟩

end

end Node

theorem dialect_inspects :
    dialect.Inspects (.except Error) (fun n => n.tree?.isSome = true) Node.IsClosed where
  view n := by
    rintro _ h
    cases n <;> cases h
    · trivial
    · exact Node.isSome_tree?_list
    · exact Node.isSome_tree?_map
    · trivial
  text p n := by
    rintro _ h
    cases n with
    | scalar _ _ _ => rfl
    | list _ _ _ => cases h
    | map _ _ _ => cases h
    | broken _ _ _ => cases h
  flag p holder n := by
    rintro _ h
    cases n with
    | scalar _ _ _ => rfl
    | list _ _ _ => cases h
    | map _ _ _ => cases h
    | broken _ _ _ => cases h
  key _ _ _ _ _ := trivial
  mistyped _ _ _ _ := nofun
  reject _ _ l _ := by cases l <;> exact nofun
  close n := by
    rintro _ h elements fields skipped hending
    simp only [dialect, hending] at h
    cases h
  surplus n ns := by
    rintro _ h
    cases ns with
    | cons _ _ => cases h
    | nil =>
      refine ⟨nofun, fun elements fields skipped hending => ?_⟩
      simp only [dialect, hending] at h
      cases h
  skip n := fun _ h => Node.isSome_tree?_of_skip n h
  note _ _ _ := trivial

/-- The tree of a text that holds one value and nothing after it. -/
def tree? (text : String) : Option Tree :=
  match read text.toList with
  | ⟨root, none⟩ => root.tree?
  | ⟨_, some _⟩ => none

/-- Where there is a tree, nothing but the root is left to be read. -/
theorem exists_root_of_tree? {text : String} {t : Tree} (h : tree? text = some t) :
    ∃ root, root.tree? = some t ∧
      ∀ {α : Type} (reader : Node → Except Error α), readWith reader text = reader root := by
  rw [tree?] at h
  split at h
  · rename_i root hread
    refine ⟨root, h, fun reader => ?_⟩
    rw [readWith, hread]
    cases reader root <;> rfl
  · cases h

/-- A text that a site is read from is a tree. -/
theorem isSome_tree? {text : String} {r : Site × List Path}
    (h : readWith dialect.readTracked text = .ok r) : (tree? text).isSome := by
  rw [readWith] at h
  rw [tree?]
  cases hread : read text.toList with
  | mk root trailing =>
    rw [hread] at h
    cases hr : dialect.readTracked root with
    | error e =>
      simp only [hr] at h
      cases h
    | ok r' =>
      simp only [hr] at h
      cases trailing with
      | some pos => cases h
      | none => exact dialect_inspects.tracking.readSite root [] r' hr

end SiteNav.Json
