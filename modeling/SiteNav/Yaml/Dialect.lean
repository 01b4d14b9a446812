import SiteNav.Decimal.Shortest
import SiteNav.Document.SiteReader
import SiteNav.Yaml.Core
import SiteNav.Yaml.Tree

/-!
# Sites in YAML

Any scalar serves as a text. A misfit names its path and its place: that of the value, or of the map
that lacks or repeats something. Aliases are followed where something is read, and not in values
nobody asked for; a document may not be read through too many of them.
-/
namespace SiteNav.Yaml
open Document

inductive Error where
  | malformed
  | misfit (m : Misfit) (place : Option (Path × Mark))
  /-- Too many aliases were followed. -/
  | endless

/-- A message at a path and place; the root and the start of the text go without saying. -/
def placed (message : String) (p : Path) (m : Mark) : String :=
  (if p.isEmpty then "" else p.bracketed ++ ": ") ++ message ++
    (if m = .start then "" else
      " at line " ++ toString (m.line + 1) ++ " column " ++ toString (m.column + 1))

def Error.message : Error → String
  | malformed => "malformed document"
  | misfit m (some (p, mark)) => placed m.message p mark
  | misfit m none => m.message
  | endless => "repetition limit exceeded"

namespace Scalar

def coreTag (name : String) : String :=
  "tag:yaml.org,2002:" ++ name

def isPlain (s : Scalar) : Bool :=
  s.style == .plain

def foundInteger (n : Int) : Found :=
  let digits := toString n
  if Decimal.fitsSigned 64 n ∨ Decimal.fitsUnsigned 64 n then .integer digits
  else .wideInteger digits (if 0 ≤ n then "u128" else "i128")

def foundFloat (x : Decimal.Binary64) : Found :=
  .floating (Decimal.Notation.plain.write x)

def foundPlain (text : String) : Found :=
  match Core.resolve text with
  | .null => .nothing "unit value"
  | .bool b => .bool b
  | .integer n => foundInteger n
  | .floating x => foundFloat x
  | .text => .text text

def misfit (s : Scalar) (expected : Found → Misfit) : Misfit :=
  let declared (r : Option Found) (kind : String) : Misfit :=
    match r with
    | some f => expected f
    | none => .misspelled s.text kind
  match s.tag with
  | none => expected (if s.isPlain then foundPlain s.text else .text s.text)
  | some t =>
    if t = coreTag "bool" then declared ((Core.bool? s.text).map .bool) "a boolean"
    else if t = coreTag "int" then
      declared ((Core.integer? s.text.toList).map foundInteger) "an integer"
    else if t = coreTag "float" then declared ((Core.floating? s.text).map foundFloat) "a float"
    else if t = coreTag "null" then
      declared (if Core.isNull s.text then some (.nothing "unit value") else none) "null"
    else expected (if t.toList.head? = some '!' ∧ s.isPlain then foundPlain s.text else .text s.text)

/-- The scalar stands for no value, unless its tag says null and its text does not. -/
def isAbsent (s : Scalar) : Except Misfit Bool :=
  if !s.isPlain then .ok false
  else match s.tag with
    | none => .ok (s.text.isEmpty || Core.isNull s.text)
    | some t =>
      if t ≠ coreTag "null" then .ok false
      else if Core.isNull s.text then .ok true
      else .error (.misspelled s.text "null")

def flag? (s : Scalar) : Option Bool :=
  if s.isPlain ∨ (s.style = .literal ∧ s.tag = some (coreTag "bool")) then Core.bool? s.text
  else none

end Scalar

/-- Reading counts the aliases that it follows. -/
abbrev Reading := StateT Nat (Except Error)

namespace Tree
variable (t : Tree)

def follow (n : Node) : Reading Node :=
  match n with
  | .reference _ number => do
    let count := (← get) + 1
    if 100 * t.root.size < count then throw .endless
    set count
    match t.target? number with
    | some n => return n
    | none => throw .malformed
  | _ => return n

def refuse {α : Type} (p : Path) (n : Node) (m : Found → Misfit) : Reading α :=
  throw <| .misfit (match n with
    | .scalar _ _ s => s.misfit m
    | .list _ _ _ => m .list
    | .map _ _ _ => m .map
    | .reference _ _ | .nothing _ => m (.nothing "unit value")) (some (p, n.mark))

def dialect : Dialect Reading Node Node where
  view n := do
    let n ← t.follow n
    match n with
    | .list _ _ items => return (n, .list items)
    | .map _ _ entries => return (n, .map entries)
    | .scalar _ _ s => return (n, if s.isVoid then .void else .scalar)
    | .nothing _ => return (n, .void)
    | .reference _ _ => return (n, .scalar)
  text p n := do
    let n ← t.follow n
    match n with
    | .scalar _ _ s => return s.text
    | _ => refuse p n (.mistyped · .text)
  flag p holder n := do
    let n ← t.follow n
    match n with
    | .scalar _ _ s =>
      match s.isAbsent with
      | .ok true => return none
      | .ok false =>
        match s.flag? with
        | some b => return some b
        | none => refuse p n (.mistyped · .flag)
      | .error e => throw (.misfit e (some (p.tail, holder.mark)))
    | .nothing _ => return none
    | _ => refuse p n (.mistyped · .flag)
  key p _ k := do
    let n ← t.follow k
    match n, k with
    | .scalar _ _ s, .reference _ _ => return .reference s.text
    | .scalar _ _ s, _ => return .key s.text
    | _, _ => refuse p n (.mistyped · .name)
  mistyped p n e := refuse p n (.mistyped · e)
  reject p place e :=
    match place with
    | .value n | .closing n | .entry n _ => throw (.misfit e (some (p, n.mark)))
    | .document => throw (.misfit e none)
  close _ := return ()
  surplus _ _ := return ()
  skip _ := return ()
  note _ := return ()
  positional := false

end Tree

def readWith {α : Type} (reader : Tree → Reading α) (text : String) : Except Error α :=
  match tree? text.toList with
  | some t => ((reader t).run 0).map (·.1)
  | none => .error .malformed

end SiteNav.Yaml
