import SiteNav.Document.SiteReader
import SiteNav.Json.Reader

/-!
# Sites in JSON

A misfit is placed after a scalar, before a list or map, after the bracket of a structure that lacks
something, and after a repeated key. A value nobody asked for only has to be well formed.
-/
namespace SiteNav.Json
open Document

inductive Error where
  | fault (f : Fault)
  | misfit (m : Misfit) (pos : Option Pos)

def placed (message : String) (pos : Pos) : String :=
  message ++ " at line " ++ toString pos.line ++ " column " ++ toString pos.column

def Error.message : Error → String
  | fault f => placed f.cause.message f.pos
  | misfit m (some pos) => placed m.message pos
  | misfit m none => m.message

def Number.found : Number → Found
  | integer negative n => .integer ((if negative then "-" else "") ++ toString n)
  | floating x => .floating (Decimal.Notation.signedExponent.write x)

def Scalar.found : Scalar → Found
  | null => .nothing "null"
  | bool b => .bool b
  | number n => n.found
  | text s => .text s

namespace Node

def refuse (n : Node) (m : Found → Misfit) : Error :=
  match n with
  | scalar _ stop (.ok s) => .misfit (m s.found) (some stop)
  | scalar _ _ (.error f) => .fault f
  | list start _ _ => .misfit (m .list) (some start)
  | map start _ _ => .misfit (m .map) (some start)
  | broken _ wanted _ => .fault wanted

def ending : Node → Option Ending
  | list _ _ e | map _ _ e => some e
  | _ => none

def stop : Node → Option Pos
  | scalar _ stop _ => some stop
  | list _ _ (.closed pos) | map _ _ (.closed pos) => some pos
  | _ => none

def skipEnd : Ending → Except Error Unit
  | .closed _ => .ok ()
  | .faulty _ _ skipped => .error (.fault skipped)

mutual

/-- A value nobody asked for has no fault up to its end. -/
def skip : Node → Except Error Unit
  | scalar _ _ _ => .ok ()
  | list _ items ending => do
    skipItems items
    skipEnd ending
  | map _ entries ending => do
    skipEntries entries
    skipEnd ending
  | broken _ _ skipped => .error (.fault skipped)

def skipItems : List Node → Except Error Unit
  | [] => .ok ()
  | n :: rest => do
    skip n
    skipItems rest

def skipEntries : List (Key × Node) → Except Error Unit
  | [] => .ok ()
  | (_, n) :: rest => do
    skip n
    skipEntries rest

end

end Node

def dialect : Dialect (Except Error) Node Key where
  view n :=
    match n with
    | .list _ items _ => .ok (n, .list items)
    | .map _ entries _ => .ok (n, .map entries)
    | _ => .ok (n, .scalar)
  text _ n :=
    match n with
    | .scalar _ _ (.ok (.text s)) => .ok s
    | _ => .error (n.refuse (.mistyped · .text))
  flag _ _ n :=
    match n with
    | .scalar _ _ (.ok .null) => .ok none
    | .scalar _ _ (.ok (.bool b)) => .ok (some b)
    | _ => .error (n.refuse (.mistyped · .flag))
  key _ _ k := (k.text.map .key).mapError .fault
  mistyped _ n e := .error (n.refuse (.mistyped · e))
  reject _ place e :=
    match place with
    | .value n => .error (n.refuse fun _ => e)
    | .closing n => .error (.misfit e n.stop)
    | .entry _ k => .error (.misfit e (some k.stop))
    | .document => .error (.misfit e none)
  close n :=
    match n.ending with
    | some (.faulty elements _ _) => .error (.fault elements)
    | _ => .ok ()
  surplus n rest :=
    match rest, n.ending with
    | x :: _, _ => .error (.fault ⟨.trailingCharacters, ⟨x.start.line, x.start.column + 1⟩⟩)
    | [], some (.faulty _ fields _) => .error (.fault fields)
    | [], _ => .ok ()
  skip := Node.skip
  note _ := .ok ()
  positional := true

def readWith {α : Type} (reader : Node → Except Error α) (text : String) : Except Error α := do
  let contents := read text.toList
  let a ← reader contents.root
  match contents.trailing with
  | some pos => .error (.fault ⟨.trailingCharacters, pos⟩)
  | none => .ok a

end SiteNav.Json
