import SiteNav.Text.Digit

/-!
# TOML strings

Basic strings stand between double quotes and have escapes; literal strings stand between single
quotes and have none. With three quotes on either side they may span lines, and a line feed right
after the opening quotes does not count. A reader takes the text after the opening quotes and gives
the string with what is left after the closing ones.
-/
namespace SiteNav.Toml

def isBlank (c : Char) : Bool :=
  c == ' ' || c == '\t'

def isVisible (c : Char) : Bool :=
  c == '\t' || (' ' ≤ c && c != '\x7f')

namespace Literal

/-- The character that an escape stands for; its backslash is behind. -/
def escape? : List Char → Option (Char × List Char)
  | 'b' :: r => some ('\x08', r)
  | 't' :: r => some ('\t', r)
  | 'n' :: r => some ('\n', r)
  | 'f' :: r => some ('\x0c', r)
  | 'r' :: r => some ('\r', r)
  | 'e' :: r => some ('\x1b', r)
  | '"' :: r => some ('"', r)
  | '\\' :: r => some ('\\', r)
  | 'x' :: r => Text.codePoint? 2 r
  | 'u' :: r => Text.codePoint? 4 r
  | 'U' :: r => Text.codePoint? 8 r
  | _ => none

def newline? : List Char → Option (List Char)
  | '\n' :: r => some r
  | '\r' :: '\n' :: r => some r
  | _ => none

def dropBlanks : List Char → List Char
  | [] => []
  | c :: cs => if isBlank c then dropBlanks cs else c :: cs

def dropLines : List Char → List Char
  | '\r' :: '\n' :: cs => dropLines cs
  | c :: cs => if isBlank c || c == '\n' then dropLines cs else c :: cs
  | [] => []

/-- What is left after the blanks up to the end of the line and all lines that are blank after it. -/
def lineContinuation? (cs : List Char) : Option (List Char) :=
  (newline? (dropBlanks cs)).map dropLines

/-- The closing quotes of a multi-line string, with up to two quotes of its text before them: how many
those are, and what follows. -/
def closing? (q : Char) : List Char → Option (Nat × List Char)
  | a :: b :: c :: r =>
    if a = q ∧ b = q ∧ c = q then
      match r with
      | d :: e :: r' =>
        if d = q then if e = q then some (2, r') else some (1, e :: r') else some (0, r)
      | [d] => if d = q then some (1, []) else some (0, r)
      | [] => some (0, [])
    else none
  | _ => none

def afterFirstNewline (cs : List Char) : List Char :=
  (newline? cs).getD cs

abbrev Scanned := Option (List Char × List Char)

def Scanned.push (c : Char) (s : Scanned) : Scanned :=
  s.map fun (text, rest) => (c :: text, rest)

/-- Every step takes a character of the text, so as many steps as characters suffice. -/
def basic : Nat → List Char → Scanned
  | 0, _ => none
  | fuel + 1, cs =>
    match cs with
    | [] => none
    | '"' :: r => some ([], r)
    | '\\' :: r => (escape? r).bind fun (c, r) => (basic fuel r).push c
    | c :: r => if isVisible c then (basic fuel r).push c else none

def literal : List Char → Scanned
  | [] => none
  | c :: r => if c = '\'' then some ([], r) else if isVisible c then (literal r).push c else none

def multiBasic : Nat → List Char → Scanned
  | 0, _ => none
  | fuel + 1, cs =>
    match closing? '"' cs with
    | some (n, r) => some (List.replicate n '"', r)
    | none =>
      match cs with
      | [] => none
      | '\\' :: r =>
        match lineContinuation? r with
        | some r => multiBasic fuel r
        | none => (escape? r).bind fun (c, r) => (multiBasic fuel r).push c
      | '\n' :: r => (multiBasic fuel r).push '\n'
      | '\r' :: '\n' :: r => ((multiBasic fuel r).push '\n').push '\r'
      | c :: r => if isVisible c then (multiBasic fuel r).push c else none

def multiLiteral : Nat → List Char → Scanned
  | 0, _ => none
  | fuel + 1, cs =>
    match closing? '\'' cs with
    | some (n, r) => some (List.replicate n '\'', r)
    | none =>
      match cs with
      | [] => none
      | '\n' :: r => (multiLiteral fuel r).push '\n'
      | '\r' :: '\n' :: r => ((multiLiteral fuel r).push '\n').push '\r'
      | c :: r => if isVisible c then (multiLiteral fuel r).push c else none

def scan (cs : List Char) : Scanned :=
  match cs with
  | '"' :: '"' :: '"' :: r => multiBasic (r.length + 1) (afterFirstNewline r)
  | '\'' :: '\'' :: '\'' :: r => multiLiteral (r.length + 1) (afterFirstNewline r)
  | '"' :: r => basic (r.length + 1) r
  | '\'' :: r => literal r
  | _ => none

end Literal

end SiteNav.Toml
