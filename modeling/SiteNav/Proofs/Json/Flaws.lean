import SiteNav.Proofs.Document.Form
import SiteNav.Proofs.Json.AsTree

/-!
# What is wrong with a JSON document

A document can be wrong in several places, whether or not a reader gets there: a value is not of the
form that is asked for, a field is given twice, or a structure ends without one. Main statements: the
list of these flaws, and that it does not depend on entries that nobody asks for.
-/
namespace SiteNav.Json
open Document

namespace Node

/-- Induction over the values of a document, with those of lists and maps at hand. -/
@[elab_as_elim]
theorem inductOn {P : Node → Prop} (scalar : ∀ start stop value, P (.scalar start stop value))
    (list : ∀ start items ending, (∀ n ∈ items, P n) → P (.list start items ending))
    (map : ∀ start entries ending, (∀ e ∈ entries, P e.2) → P (.map start entries ending))
    (broken : ∀ start wanted skipped, P (.broken start wanted skipped)) (n : Node) : P n :=
  @Node.rec P (fun ns => ∀ n ∈ ns, P n) (fun es => ∀ e ∈ es, P e.2) (fun e => P e.2) scalar
    (fun start items ending ih => list start items ending ih)
    (fun start entries ending ih => map start entries ending ih) broken
    (fun _ h => absurd h List.not_mem_nil) (fun _ _ hn hns => List.forall_mem_cons.2 ⟨hn, hns⟩)
    (fun _ h => absurd h List.not_mem_nil) (fun _ _ he hes => List.forall_mem_cons.2 ⟨he, hes⟩)
    (fun _ _ hn => hn) n

end Node

/-- The form is that of the scalar. -/
def takes : Form → Scalar → Bool
  | .text, .text _ | .flag, .null | .flag, .bool _ => true
  | _, _ => false

/-- The names of the members that the entries of a map stand for. -/
def filled (members : List (Member Form)) (entries : List (Key × Node)) : List String :=
  Form.filled members (entries.map (·.1.text.toOption))

/-- Something that is wrong with a value of which a form is asked, and its place: a scalar or a structure
of another form, a field that is given for a second time under whichever of its names, the first of the
fields that a structure does not have, or what is wrong with an element or field. -/
inductive Flaw : Form → Node → Misfit → Pos → Prop
  | scalar {fm : Form} {start stop : Pos} {s : Scalar} (h : takes fm s = false) :
      Flaw fm (.scalar start stop (.ok s)) (.mistyped s.found fm.expected) stop
  | list {fm : Form} {start : Pos} {items : List Node} {ending : Ending}
      (h : ∀ element, fm ≠ .list element) :
      Flaw fm (.list start items ending) (.mistyped .list fm.expected) start
  | map {fm : Form} {start : Pos} {entries : List (Key × Node)} {ending : Ending}
      (h : ∀ r members, fm ≠ .record r members) :
      Flaw fm (.map start entries ending) (.mistyped .map fm.expected) start
  | element {fm : Form} {start : Pos} {items : List Node} {ending : Ending} {n : Node} {m : Misfit}
      {pos : Pos} (hn : n ∈ items) (h : Flaw fm n m pos) :
      Flaw (.list fm) (.list start items ending) m pos
  | field {r : Record} {members : List (Member Form)} {start : Pos} {entries : List (Key × Node)}
      {ending : Ending} {k : Key} {n : Node} {s : Member Form} {m : Misfit} {pos : Pos}
      (hn : (k, n) ∈ entries) (hs : Form.member? members k.text.toOption = some s) (h : Flaw s.form n m pos) :
      Flaw (.record r members) (.map start entries ending) m pos
  | repeated {r : Record} {members : List (Member Form)} {start : Pos} {before after : List (Key × Node)}
      {ending : Ending} {k : Key} {n : Node} {s : Member Form}
      (hs : Form.member? members k.text.toOption = some s) (h : s.name ∈ filled members before) :
      Flaw (.record r members) (.map start (before ++ (k, n) :: after) ending) (.repeated s.name) k.stop
  | missing {r : Record} {before after : List (Member Form)} {s : Member Form} {start stop : Pos}
      {entries : List (Key × Node)} (hrequired : s.required = true)
      (h : s.name ∉ filled (before ++ s :: after) entries)
      (hbefore : ∀ g ∈ before, g.required = true → g.name ∈ filled (before ++ s :: after) entries) :
      Flaw (.record r (before ++ s :: after)) (.map start entries (.closed stop)) (.missing s.name) stop

namespace Node

/-- A structure lacks a field where it ends. -/
def flawsOfEnding (members : List (Member Form)) (filled : List String) : Ending → List (Misfit × Pos)
  | .closed pos => (Form.lacking? members filled).toList.map fun s => (.missing s.name, pos)
  | .faulty _ _ _ => []

mutual

/-- The flaws of a value in the order in which they stand. -/
def flaws : Node → Form → List (Misfit × Pos)
  | scalar _ stop (.ok s), fm => if takes fm s then [] else [(.mistyped s.found fm.expected, stop)]
  | scalar _ _ (.error _), _ | broken _ _ _, _ => []
  | list start items _, fm =>
    match fm with
    | .list element => flawsOfItems items element
    | _ => [(.mistyped .list fm.expected, start)]
  | map start entries ending, fm =>
    match fm with
    | .record _ members =>
      flawsOfEntries entries members [] ++ flawsOfEnding members (filled members entries) ending
    | _ => [(.mistyped .map fm.expected, start)]

def flawsOfItems : List Node → Form → List (Misfit × Pos)
  | [], _ => []
  | n :: ns, fm => flaws n fm ++ flawsOfItems ns fm

/-- The flaws of the entries after those that fill some members. -/
def flawsOfEntries : List (Key × Node) → List (Member Form) → List String → List (Misfit × Pos)
  | [], _, _ => []
  | (k, n) :: es, members, seen =>
    match Form.member? members k.text.toOption with
    | none => flawsOfEntries es members seen
    | some s => (if s.name ∈ seen then [(.repeated s.name, k.stop)] else []) ++
        (flaws n s.form ++ flawsOfEntries es members (s.name :: seen))

end

theorem flawsOfItems_eq (ns : List Node) (fm : Form) :
    flawsOfItems ns fm = ns.flatMap (·.flaws fm) := by
  induction ns with
  | nil => rfl
  | cons n ns ih => rw [flawsOfItems, ih, List.flatMap_cons]

end Node

theorem filled_nil (members : List (Member Form)) : filled members [] = [] := rfl

theorem filled_cons (members : List (Member Form)) (k : Key) (n : Node) (es : List (Key × Node)) :
    filled members ((k, n) :: es) =
      ((Form.member? members k.text.toOption).map (·.name)).toList ++ filled members es :=
  Form.filled_cons members k.text.toOption _

/-! ## The list of flaws -/

theorem exists_eq_append_cons_iff {α : Type} {a : α} {as : List α} {q : List α → α → Prop} :
    (∃ before b after, a :: as = before ++ b :: after ∧ q before b) ↔
      q [] a ∨ ∃ before b after, as = before ++ b :: after ∧ q (a :: before) b := by
  constructor
  · rintro ⟨before, b, after, h, hq⟩
    cases before with
    | nil =>
      obtain ⟨rfl, rfl⟩ := List.cons.inj h
      exact .inl hq
    | cons c before =>
      obtain ⟨rfl, rfl⟩ := List.cons.inj h
      exact .inr ⟨before, b, after, rfl, hq⟩
  · rintro (hq | ⟨before, b, after, rfl, hq⟩)
    · exact ⟨[], a, as, rfl, hq⟩
    · exact ⟨a :: before, b, after, rfl, hq⟩

section Membership
variable {members : List (Member Form)} {f : Misfit × Pos}

theorem mem_flawsOfEntries_iff (es : List (Key × Node)) (seen : List String) :
    f ∈ Node.flawsOfEntries es members seen ↔
      (∃ e ∈ es, ∃ s, Form.member? members e.1.text.toOption = some s ∧ f ∈ e.2.flaws s.form) ∨
      ∃ before e after, es = before ++ e :: after ∧
        ∃ s, Form.member? members e.1.text.toOption = some s ∧
          (s.name ∈ seen ∨ s.name ∈ filled members before) ∧ f = (.repeated s.name, e.1.stop) := by
  induction es generalizing seen with
  | nil => simp [Node.flawsOfEntries]
  | cons e es ih =>
    obtain ⟨k, n⟩ := e
    rw [exists_eq_append_cons_iff, List.exists_mem_cons_iff, Node.flawsOfEntries]
    simp only [filled_cons]
    cases hs : Form.member? members k.text.toOption with
    | none => simp [ih]
    | some s =>
      have hseen : ∀ (u : Member Form) before,
          (u.name ∈ seen ∨ u.name ∈ [s.name] ∨ u.name ∈ filled members before) ↔
            (u.name ∈ s.name :: seen ∨ u.name ∈ filled members before) := by
        intro u before
        rw [List.mem_singleton, List.mem_cons, or_left_comm, or_assoc]
      have hrepeated : f ∈ (if s.name ∈ seen then [(Misfit.repeated s.name, k.stop)] else []) ↔
          s.name ∈ seen ∧ f = (.repeated s.name, k.stop) := by
        split <;> simp [*]
      simp only [List.mem_append, hrepeated, ih, Option.some.injEq, exists_eq_left', filled_nil,
        List.not_mem_nil, or_false, Option.map_some, Option.toList_some, hseen]
      -- The repetition of the first entry comes before its own flaws in the list.
      exact or_left_comm.trans ((or_congr_right or_left_comm).trans or_assoc.symm)

theorem mem_flawsOfEnding_iff {names : List String} {ending : Ending} :
    f ∈ Node.flawsOfEnding members names ending ↔ ∃ stop s, ending = .closed stop ∧
      Form.lacking? members names = some s ∧ f = (.missing s.name, stop) := by
  cases ending with
  | faulty _ _ _ => simp [Node.flawsOfEnding]
  | closed stop =>
    cases h : Form.lacking? members names <;> simp [Node.flawsOfEnding, h]

theorem flaw_of_mem (n : Node) {fm : Form} (h : f ∈ n.flaws fm) : Flaw fm n f.1 f.2 := by
  induction n using Node.inductOn generalizing fm f with
  | scalar start stop value =>
    cases value with
    | error e => cases h
    | ok s =>
      rw [Node.flaws] at h
      split at h
      · cases h
      · obtain rfl := List.mem_singleton.1 h
        exact .scalar (by simpa using ‹¬takes fm s = true›)
  | list start items ending ih =>
    cases fm with
    | list element =>
      rw [Node.flaws, Node.flawsOfItems_eq] at h
      obtain ⟨n, hn, hf⟩ := List.mem_flatMap.1 h
      exact .element hn (ih n hn hf)
    | text | flag | record r members =>
      obtain rfl := List.mem_singleton.1 h
      exact .list (by simp)
  | map start entries ending ih =>
    cases fm with
    | record r members =>
      rw [Node.flaws, List.mem_append, mem_flawsOfEntries_iff, mem_flawsOfEnding_iff] at h
      rcases h with (⟨e, he, s, hs, hf⟩ | ⟨before, e, after, rfl, s, hs, hrepeated, rfl⟩) | hmissing
      · exact .field he hs (ih e he hf)
      · exact .repeated hs (hrepeated.resolve_left List.not_mem_nil)
      · obtain ⟨stop, s, rfl, hlacking, rfl⟩ := hmissing
        obtain ⟨before, after, rfl, hrequired, hname, hbefore⟩ := Form.lacking?_eq_some_iff.1 hlacking
        exact .missing hrequired hname hbefore
    | text | flag | list element =>
      obtain rfl := List.mem_singleton.1 h
      exact .map (by simp)
  | broken start wanted skipped => cases h

/-- The list holds the flaws of a value and nothing else. -/
theorem mem_flaws_iff {n : Node} {fm : Form} {m : Misfit} {pos : Pos} :
    (m, pos) ∈ n.flaws fm ↔ Flaw fm n m pos := by
  refine ⟨flaw_of_mem n, fun h => ?_⟩
  induction h with
  | @scalar fm _ _ s h => simp [Node.flaws, h]
  | @list fm _ _ _ h =>
    cases fm with
    | list element => exact absurd rfl (h element)
    | text | flag | record r members => exact List.mem_singleton_self _
  | @map fm _ _ _ h =>
    cases fm with
    | record r members => exact absurd rfl (h r members)
    | text | flag | list element => exact List.mem_singleton_self _
  | element hn _ ih =>
    rw [Node.flaws, Node.flawsOfItems_eq]
    exact List.mem_flatMap.2 ⟨_, hn, ih⟩
  | field hn hs _ ih =>
    rw [Node.flaws, List.mem_append, mem_flawsOfEntries_iff]
    exact .inl (.inl ⟨_, hn, _, hs, ih⟩)
  | repeated hs h =>
    rw [Node.flaws, List.mem_append, mem_flawsOfEntries_iff]
    exact .inl (.inr ⟨_, _, _, rfl, _, hs, .inr h, rfl⟩)
  | missing hrequired h hbefore =>
    rw [Node.flaws, List.mem_append, mem_flawsOfEnding_iff]
    exact .inr ⟨_, _, rfl, Form.lacking?_eq_some_iff.2 ⟨_, _, rfl, hrequired, h, hbefore⟩, rfl⟩

end Membership

/-! ## Flaws without places -/

/-- Induction over the values of a tree, with those of lists and maps at hand. -/
@[elab_as_elim]
theorem Tree.inductOn {P : Tree → Prop} (scalar : ∀ value, P (.scalar value))
    (list : ∀ items : List Tree, (∀ t ∈ items, P t) → P (.list items))
    (map : ∀ entries : List (Option String × Tree), (∀ e ∈ entries, P e.2) → P (.map entries))
    (t : Tree) : P t :=
  @Document.Tree.rec _ _ P (fun ts => ∀ t ∈ ts, P t) (fun es => ∀ e ∈ es, P e.2) (fun e => P e.2)
    scalar (fun items ih => list items ih) (fun entries ih => map entries ih)
    (fun _ h => absurd h List.not_mem_nil) (fun _ _ ht hts => List.forall_mem_cons.2 ⟨ht, hts⟩)
    (fun _ h => absurd h List.not_mem_nil) (fun _ _ he hes => List.forall_mem_cons.2 ⟨he, hes⟩)
    (fun _ _ ht => ht) t

mutual

/-- The flaws of a document that is a tree, without their places. -/
def misfits : Tree → Form → List Misfit
  | .scalar (some s), fm => if takes fm s then [] else [.mistyped s.found fm.expected]
  | .scalar none, _ => []
  | .list ts, fm =>
    match fm with
    | .list element => misfitsOfItems ts element
    | _ => [.mistyped .list fm.expected]
  | .map es, fm =>
    match fm with
    | .record _ members => misfitsOfEntries es members [] ++
        (Form.lacking? members (Form.filled members (es.map (·.1)))).toList.map (.missing ·.name)
    | _ => [.mistyped .map fm.expected]

def misfitsOfItems : List Tree → Form → List Misfit
  | [], _ => []
  | t :: ts, fm => misfits t fm ++ misfitsOfItems ts fm

def misfitsOfEntries : List (Option String × Tree) → List (Member Form) → List String → List Misfit
  | [], _, _ => []
  | (k, t) :: es, members, seen =>
    match Form.member? members k with
    | none => misfitsOfEntries es members seen
    | some s => (if s.name ∈ seen then [.repeated s.name] else []) ++
        (misfits t s.form ++ misfitsOfEntries es members (s.name :: seen))

end

section Places
variable {members : List (Member Form)}

theorem filled_of_forall₂ {entries : List (Key × Node)} {es : List (Option String × Tree)}
    (h : List.Forall₂ (fun n e => n.1.text.toOption = e.1 ∧ n.2.tree? = some e.2) entries es) :
    filled members entries = Form.filled members (es.map (·.1)) := by
  have hkeys : entries.map (·.1.text.toOption) = es.map (·.1) := by
    induction h with
    | nil => rfl
    | cons he _ ih => rw [List.map_cons, List.map_cons, he.1, ih]
  rw [filled, hkeys]

theorem map_fst_flawsOfItems {items : List Node} {ts : List Tree} {fm : Form}
    (ih : ∀ n ∈ items, ∀ t, n.tree? = some t → (n.flaws fm).map (·.1) = misfits t fm)
    (h : List.Forall₂ (fun n t => n.tree? = some t) items ts) :
    (Node.flawsOfItems items fm).map (·.1) = misfitsOfItems ts fm := by
  induction h with
  | nil => rfl
  | cons hn _ ih' =>
    rw [List.forall_mem_cons] at ih
    rw [Node.flawsOfItems, misfitsOfItems, List.map_append, ih.1 _ hn, ih' ih.2]

theorem map_fst_flawsOfEntries {entries : List (Key × Node)} {es : List (Option String × Tree)}
    (ih : ∀ e ∈ entries, ∀ t fm, e.2.tree? = some t → (e.2.flaws fm).map (·.1) = misfits t fm)
    (h : List.Forall₂ (fun n e => n.1.text.toOption = e.1 ∧ n.2.tree? = some e.2) entries es)
    (seen : List String) :
    (Node.flawsOfEntries entries members seen).map (·.1) = misfitsOfEntries es members seen := by
  induction h generalizing seen with
  | nil => rfl
  | @cons e e' _ _ he _ ih' =>
    obtain ⟨k, n⟩ := e
    obtain ⟨k', t⟩ := e'
    obtain ⟨rfl, ht⟩ := he
    rw [List.forall_mem_cons] at ih
    rw [Node.flawsOfEntries, misfitsOfEntries]
    cases Form.member? members k.text.toOption with
    | none => exact ih' ih.2 seen
    | some s =>
      simp only [List.map_append, ih.1 t s.form ht, ih' ih.2]
      split <;> rfl

/-- The places of flaws are all that a tree leaves out. -/
theorem map_fst_flaws (n : Node) {t : Tree} {fm : Form} (h : n.tree? = some t) :
    (n.flaws fm).map (·.1) = misfits t fm := by
  induction n using Node.inductOn generalizing t fm with
  | scalar start stop value =>
    obtain rfl := Option.some.inj h
    cases value with
    | error e => rfl
    | ok s =>
      simp only [Except.toOption, Node.flaws, misfits]
      split <;> rfl
  | list start items ending ih =>
    obtain ⟨_, _, _, heq, -⟩ | ⟨_, _, stop, ts, heq, rfl, hts⟩ | ⟨_, _, _, _, heq, -⟩ :=
      Node.cases_of_tree? h
    · cases heq
    · cases heq
      cases fm with
      | list element => exact map_fst_flawsOfItems (fun n hn t ht => ih n hn ht) hts
      | text | flag | record r members => rfl
    · cases heq
  | map start entries ending ih =>
    obtain ⟨_, _, _, heq, -⟩ | ⟨_, _, _, _, heq, -⟩ | ⟨_, _, stop, es, heq, rfl, hes⟩ :=
      Node.cases_of_tree? h
    · cases heq
    · cases heq
    · cases heq
      cases fm with
      | record r members =>
        simp only [Node.flaws, misfits, Node.flawsOfEnding, List.map_append, List.map_map]
        rw [map_fst_flawsOfEntries (fun e he t fm ht => ih e he ht) hes, filled_of_forall₂ hes]
        rfl
      | text | flag | list element => rfl
  | broken start wanted skipped => cases h

end Places

/-! ## Entries that nobody asks for -/

section Strays

theorem field?_shapes (members : List (Member Form)) (k : Option String) :
    meaning.field? (Form.shapes members) k = (Form.member? members k).map (·.form.shape) := by
  rw [Meaning.field?, Form.member?]
  cases k with
  | none => rfl
  | some name => exact Form.named?_shapes members name

theorem misfitsOfItems_pruneItems {ts : List Tree} {fm : Form}
    (ih : ∀ t ∈ ts, misfits (meaning.prune fm.shape t) fm = misfits t fm) (i : Nat) :
    misfitsOfItems (meaning.pruneItems (fun _ => some fm.shape) i ts) fm = misfitsOfItems ts fm := by
  induction ts generalizing i with
  | nil => rfl
  | cons t ts ih' =>
    rw [List.forall_mem_cons] at ih
    rw [Meaning.pruneItems, misfitsOfItems, misfitsOfItems, ih.1, ih' ih.2]

theorem misfitsOfEntries_pruneEntries {members : List (Member Form)} {es : List (Option String × Tree)}
    (ih : ∀ e ∈ es, ∀ fm, misfits (meaning.prune fm.shape e.2) fm = misfits e.2 fm)
    (seen : List String) :
    misfitsOfEntries (meaning.pruneEntries (Form.shapes members) es) members seen =
      misfitsOfEntries es members seen := by
  induction es generalizing seen with
  | nil => rfl
  | cons e es ih' =>
    obtain ⟨k, t⟩ := e
    rw [List.forall_mem_cons] at ih
    rw [Meaning.pruneEntries, field?_shapes, misfitsOfEntries]
    cases hs : Form.member? members k with
    | none => exact ih' ih.2 seen
    | some s => simp only [Option.map_some, misfitsOfEntries, hs, ih.1, ih' ih.2]

theorem filled_pruneEntries (members : List (Member Form)) (es : List (Option String × Tree)) :
    Form.filled members ((meaning.pruneEntries (Form.shapes members) es).map (·.1)) =
      Form.filled members (es.map (·.1)) := by
  induction es with
  | nil => rfl
  | cons e es ih =>
    obtain ⟨k, t⟩ := e
    rw [Meaning.pruneEntries, field?_shapes, List.map_cons, Form.filled_cons]
    cases hs : Form.member? members k with
    | none => exact ih
    | some s =>
      rw [Option.map_some, List.map_cons, Form.filled_cons, hs, ih]

/-- What nobody asks for is no flaw and hides none. -/
theorem misfits_prune (t : Tree) (fm : Form) : misfits (meaning.prune fm.shape t) fm = misfits t fm := by
  induction t using Tree.inductOn generalizing fm with
  | scalar value => cases fm <;> rfl
  | list items ih =>
    cases fm with
    | text | flag | record r members => rfl
    | list element => exact misfitsOfItems_pruneItems (fun t ht => ih t ht element) 0
  | map entries ih =>
    cases fm with
    | text | flag | list element => rfl
    | record r members =>
      rw [Form.shape, Meaning.prune, misfits, misfits, misfitsOfEntries_pruneEntries ih,
        filled_pruneEntries]

end Strays

end SiteNav.Json
