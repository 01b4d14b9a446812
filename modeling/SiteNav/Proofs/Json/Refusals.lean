import SiteNav.Json.Dialect
import SiteNav.Proofs.Document.Blame

/-!
# What JSON documents are refused for

A document that is read without a fault is refused for fields that its structures lack or repeat, or for
a value that is not of the form that is asked of it. Main statement: there is nothing else to refuse it
for.
-/
namespace SiteNav.Json
open Document

/-- Lists and maps are seen as they stand, whether or not they have a proper end. -/
def sight : Sight Node Key where
  view n := some <|
    match n with
    | .list _ items _ => (n, .list items)
    | .map _ entries _ => (n, .map entries)
    | _ => (n, .scalar)
  step k := k.text.toOption.map .key
  isText
    | .scalar _ _ (.ok (.text _)) => true
    | _ => false
  isFlag
    | .scalar _ _ (.ok .null) | .scalar _ _ (.ok (.bool _)) => true
    | _ => false
  positional := true

inductive Refusal (root : Node) : Error → Prop
  | fault (f : Fault) : Refusal root (.fault f)
  | fields {m : Misfit} (pos : Option Pos) (h : sight.Amiss root m) : Refusal root (.misfit m pos)
  /-- All that is said of a value is what it is, what is asked for, and where it stands. -/
  | mistyped {fm : Form} {o : Option Step} {p : Path} {n : Node} {found : Found} {pos : Pos}
      (h : sight.Asks root fm o p n) (hn : ¬sight.Fits fm n)
      (hrefuse : n.refuse (.mistyped · fm.expected) = .misfit (.mistyped found fm.expected) (some pos)) :
      Refusal root (.misfit (.mistyped found fm.expected) (some pos))

variable {root n : Node} {fm : Form} {o : Option Step} {p : Path}

theorem refusal_refuse (h : sight.Asks root fm o p n) (hn : ¬sight.Fits fm n) :
    Refusal root (n.refuse (.mistyped · fm.expected)) := by
  cases n with
  | scalar start stop value =>
    cases value with
    | ok s => exact .mistyped h hn rfl
    | error f => exact .fault f
  | list start items ending => exact .mistyped h hn rfl
  | map start entries ending => exact .mistyped h hn rfl
  | broken start wanted skipped => exact .fault wanted

theorem refusal_of_skipEnd (ending : Ending) :
    (Guarantee.failing (Refusal root)).holds (fun _ => True) (Node.skipEnd ending) := by
  cases ending with
  | closed pos => trivial
  | faulty elements fields skipped => exact .fault skipped

mutual

/-- A value that is skipped can only have a fault. -/
theorem refusal_of_skip : ∀ n : Node,
    (Guarantee.failing (Refusal root)).holds (fun _ => True) n.skip
  | .scalar _ _ _ => trivial
  | .list _ items ending =>
    Guarantee.bind _ (refusal_of_skipItems items) fun _ _ => refusal_of_skipEnd ending
  | .map _ entries ending =>
    Guarantee.bind _ (refusal_of_skipEntries entries) fun _ _ => refusal_of_skipEnd ending
  | .broken _ _ skipped => .fault skipped

theorem refusal_of_skipItems : ∀ ns : List Node,
    (Guarantee.failing (Refusal root)).holds (fun _ => True) (Node.skipItems ns)
  | [] => trivial
  | n :: ns => Guarantee.bind _ (refusal_of_skip n) fun _ _ => refusal_of_skipItems ns

theorem refusal_of_skipEntries : ∀ es : List (Key × Node),
    (Guarantee.failing (Refusal root)).holds (fun _ => True) (Node.skipEntries es)
  | [] => trivial
  | (_, n) :: es => Guarantee.bind _ (refusal_of_skip n) fun _ _ => refusal_of_skipEntries es

end

theorem dialect_blames (root : Node) : dialect.Blames (.failing (Refusal root)) sight root where
  view {_ _ _ n} _ := by cases n <;> rfl
  text {_ _ n} h := by
    cases n with
    | scalar start stop value =>
      rcases value with f | s
      · exact .fault f
      · cases s with
        | text t => trivial
        | null | bool _ | number _ => exact .mistyped h Bool.false_ne_true rfl
    | list _ _ _ | map _ _ _ => exact .mistyped h Bool.false_ne_true rfl
    | broken _ wanted _ => exact .fault wanted
  flag {_ _ n} holder h := by
    cases n with
    | scalar start stop value =>
      rcases value with f | s
      · exact .fault f
      · cases s with
        | null | bool _ => trivial
        | text _ | number _ => exact .mistyped h Bool.false_ne_true rfl
    | list _ _ _ | map _ _ _ => exact .mistyped h Bool.false_ne_true rfl
    | broken _ wanted _ => exact .fault wanted
  key p n k := by
    obtain ⟨text, stop⟩ := k
    cases text with
    | ok name => rfl
    | error f => exact .fault f
  mistyped _ _ _ _ n _ _ h hview hn := by
    cases n <;> cases hview <;> exact refusal_refuse h hn
  missing _ _ _ _ h := .fields _ (.missing h)
  repeated _ _ _ _ name := .fields _ (.repeated name)
  twoSidebars _ := .fields _ .twoSidebars
  noSidebar _ h := .fields _ (.noSidebar h)
  close n := by
    rcases n with _ | ⟨_, _, _ | _⟩ | ⟨_, _, _ | _⟩ | _
    all_goals first | trivial | exact .fault _
  skip n := refusal_of_skip n
  note _ := trivial
  positional := rfl

/-- A document whose structures are maps is refused for a fault, for the fields of a structure, or for
a value of another form than is asked of it. -/
theorem refusal_of_readWith {text : String} {e : Error}
    (hmaps : ¬sight.Listed (read text.toList).root)
    (h : readWith dialect.readTracked text = .error e) : Refusal (read text.toList).root e := by
  have hread := (dialect_blames (read text.toList).root).readTracked hmaps
  rw [readWith] at h
  cases hr : dialect.readTracked (read text.toList).root with
  | error e' =>
    rw [hr] at h hread
    cases h
    exact hread
  | ok r =>
    rw [hr] at h
    cases htrailing : (read text.toList).trailing with
    | some pos =>
      simp only [htrailing] at h
      cases h
      exact .fault _
    | none =>
      simp only [htrailing] at h
      cases h

end SiteNav.Json
