import SiteNav.Decimal.Width
import SiteNav.Document.SiteReader
import SiteNav.Toml.Reader

/-!
# Sites in TOML

A misfit shows the line it is on and underlines the value, or the header, braces or brackets of the
structure that lacks or repeats something. Tables are read in the order of their keys. A date counts
as a map.
-/
namespace SiteNav.Toml
open Decimal Document

inductive Error where
  | malformed
  | misfit (m : Misfit) (span : Option Span)
  /-- A number too large for its type. -/
  | overflow (what : String) (span : Span)

/-- The line that some place of a text is on: its number, what it says, and the place on it. -/
structure Excerpt where
  line : Nat
  column : Nat
  content : List Char

def currentLine : List Char → List Char
  | [] => []
  | c :: cs => if c = '\n' then [] else c :: currentLine cs

def excerptFrom (line column : Nat) (content : List Char) : Nat → List Char → Excerpt
  | 0, cs => ⟨line, column, content ++ currentLine cs⟩
  | _ + 1, [] => ⟨line, column, content⟩
  | n + 1, c :: cs =>
    if c = '\n' then excerptFrom (line + 1) 0 [] n cs
    else excerptFrom line (column + 1) (content ++ [c]) n cs

/-- A message under the marked line. Marks count the bytes of the span, end with the line and are at
least one. -/
def marked (text : List Char) (span : Span) (message : String) : String :=
  let before := text.length - span.start
  let e := excerptFrom 1 0 [] before text
  let width := Text.byteCount ((text.drop before).take (span.start - span.stop))
  let marks := max 1 (min width (Text.byteCount e.content - e.column))
  let number := toString e.line
  let gutter := String.ofList (List.replicate (number.length + 1) ' ') ++ "|"
  "TOML parse error at line " ++ number ++ ", column " ++ toString (e.column + 1) ++ "\n" ++
    gutter ++ "\n" ++ number ++ " | " ++ String.ofList e.content ++ "\n" ++
    gutter ++ String.ofList (List.replicate (e.column + 1) ' ' ++ List.replicate marks '^') ++ "\n" ++
    message ++ "\n"

def Error.message (text : List Char) : Error → String
  | malformed => "malformed document\n"
  | misfit m (some span) => marked text span m.message
  | misfit m none => m.message ++ "\n"
  | overflow what span => marked text span (what ++ " number overflowed")

namespace Node

def wide (n : Int) (type : String) : Found := .wideInteger (toString n) type

def found : Node → Except Error Found
  | scalar span value =>
    match value with
    | .text s => .ok (.text s)
    | .bool b => .ok (.bool b)
    | .date => .ok .map
    | .floating (some x) => .ok (.floating (Notation.plain.write x))
    | .floating none => .error (.overflow "floating-point" span)
    | .integer n =>
      if fitsSigned 64 n ∨ fitsUnsigned 64 n then .ok (.integer (toString n))
      else if fitsSigned 128 n then .ok (wide n "i128")
      else if fitsUnsigned 128 n then .ok (wide n "u128")
      else .error (.overflow "integer" span)
  | array _ _ _ => .ok .list
  | table _ _ _ => .ok .map

def refuse (n : Node) (m : Found → Misfit) : Error :=
  match n.found with
  | .ok f => .misfit (m f) (some n.span)
  | .error e => e

mutual

/-- A value nobody asked for holds no number that is too large. -/
def skip : Node → Except Error Unit
  | scalar span value => do
    let _ ← (scalar span value).found
  | array _ _ items => skipItems items
  | table _ _ entries => skipEntries entries

def skipItems : List Node → Except Error Unit
  | [] => .ok ()
  | n :: rest => do
    skip n
    skipItems rest

def skipEntries : List (String × Node) → Except Error Unit
  | [] => .ok ()
  | (_, n) :: rest => do
    skip n
    skipEntries rest

end

end Node

def dialect : Dialect (Except Error) Node String where
  view n :=
    match n with
    | .array _ _ items => .ok (n, .list items)
    | .table _ _ entries => .ok (n, .map entries)
    | .scalar _ .date => .ok (n, .map [("$__toml_private_datetime", n)])
    | _ => .ok (n, .scalar)
  text _ n :=
    match n with
    | .scalar _ (.text s) => .ok s
    | _ => .error (n.refuse (.mistyped · .text))
  flag _ _ n :=
    match n with
    | .scalar _ (.bool b) => .ok (some b)
    | _ => .error (n.refuse (.mistyped · .flag))
  key _ _ k := .ok (.key k)
  mistyped _ n e := .error (n.refuse (.mistyped · e))
  reject _ place e :=
    match place with
    | .value n | .closing n | .entry n _ => .error (.misfit e (some n.span))
    | .document => .error (.misfit e none)
  close _ := .ok ()
  surplus _ _ := .ok ()
  skip := Node.skip
  note _ := .ok ()
  positional := true

def readWith {α : Type} (reader : Node → Except Error α) (text : String) : Except Error α :=
  match read text.toList with
  | some n => reader n
  | none => .error .malformed

end SiteNav.Toml
