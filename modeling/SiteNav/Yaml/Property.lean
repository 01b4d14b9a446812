import SiteNav.Text.Digit
import SiteNav.Yaml.Token

/-!
# Anchors, tags and directives

These are words with a sign in front. A tag is written out between angle brackets or as a handle with
a suffix; its characters stand for octets, some of them escaped by two digits after a percent sign. A
directive takes a line of its own.
-/
namespace SiteNav.Yaml

def isWordChar (c : Char) : Bool :=
  Text.isDigit c || ('a' ≤ c && c ≤ 'z') || ('A' ≤ c && c ≤ 'Z') || c == '_' || c == '-'

def anchorName? (t : Tail) : Option (String × Tail) :=
  let (name, t) := t.takeWhile isWordChar
  let closed := t.atGap || (t.chars.head?.map fun c => c == '?' || c == ':' || c == ',' || c == ']' ||
    c == '}' || c == '%' || c == '@' || c == '\x60').getD false
  if !name.isEmpty && closed then some (String.ofList name, t) else none

namespace Tag

/-- The characters of tags; brackets and commas only where a tag is written out. -/
def isTagChar (whole : Bool) (c : Char) : Bool :=
  isWordChar c || c == ';' || c == '/' || c == '?' || c == ':' || c == '@' || c == '&' || c == '=' ||
    c == '+' || c == '$' || c == '.' || c == '!' || c == '~' || c == '*' || c == '\'' || c == '(' ||
    c == ')' || (whole && (c == ',' || c == '[' || c == ']'))

def continuations? (octet : Nat) : Option Nat :=
  if octet < 0x80 then some 0
  else if octet < 0xC0 then none
  else if octet < 0xE0 then some 1
  else if octet < 0xF0 then some 2
  else if octet < 0xF8 then some 3
  else none

/-- Reads the characters of a tag, latest first; `pending` escaped octets of a character are missing. -/
def scanFrom (whole : Bool) (acc : List Char) (pending : Nat) :
    Mark → List Char → Option (List Char × Tail)
  | m, '%' :: a :: b :: cs =>
    match Text.digit? 16 a, Text.digit? 16 b with
    | some a', some b' =>
      let octet := a' * 16 + b'
      let m := ⟨m.line, m.column + 3⟩
      match pending with
      | 0 =>
        match continuations? octet with
        | some n => scanFrom whole (Char.ofNat octet :: acc) n m cs
        | none => none
      | n + 1 =>
        if 0x80 ≤ octet ∧ octet < 0xC0 then scanFrom whole (Char.ofNat octet :: acc) n m cs else none
    | _, _ => none
  | m, c :: cs =>
    if pending ≠ 0 ∨ c = '%' then none
    else if isTagChar whole c then scanFrom whole (c :: acc) 0 (m.past c) cs
    else some (acc, ⟨m, c :: cs⟩)
  | m, [] => if pending = 0 then some (acc, ⟨m, []⟩) else none

/-- Reads the characters of a tag up to the first that is none. A NUL ends what they spell. -/
def scan (whole : Bool) (t : Tail) : Option (List Char × Tail) :=
  (scanFrom whole [] 0 t.mark t.chars).map fun (acc, t) => (acc.reverse.takeWhile (· ≠ '\x00'), t)

def handle? (t : Tail) : Option (List Char × Tail) := do
  let t ← t.expect '!'
  let (word, t) := t.takeWhile isWordChar
  match t.expect '!' with
  | some t => some ('!' :: (word ++ ['!']), t)
  | none => some ('!' :: word, t)

def isHandle (h : List Char) : Bool :=
  h == ['!'] || (h.length ≥ 2 && h.getLast? == some '!')

def ofChars (handle suffix : List Char) : Lexeme :=
  .tag (String.ofList handle) (String.ofList suffix)

/-- A tag in one of its forms. The tag `!` alone has no handle. -/
def form? (t : Tail) : Option (Lexeme × Tail) :=
  match t.chars with
  | '!' :: '<' :: cs => do
    let inside : Tail := ⟨⟨t.mark.line, t.mark.column + 2⟩, cs⟩
    let (suffix, t) ← scan true inside
    if t.chars.length = cs.length then none
    else return (ofChars [] suffix, ← t.expect '>')
  | _ => do
    let (handle, t) ← handle? t
    let (suffix, u) ← scan false t
    if handle ≠ ['!'] ∧ isHandle handle then
      if u.chars.length = t.chars.length then none else some (ofChars handle suffix, u)
    else
      let suffix := handle.drop 1 ++ suffix
      some (if suffix.isEmpty then ofChars [] ['!'] else ofChars ['!'] suffix, u)

def read? (flow : Bool) (t : Tail) : Option (Lexeme × Tail) := do
  let (tag, t) ← form? t
  if t.atGap || (flow && t.chars.head? == some ',') then some (tag, t) else none

end Tag

namespace Directive

def number? (t : Tail) : Option (Nat × Tail) :=
  let (ds, t) := t.takeWhile Text.isDigit
  if ds.length ≤ 9 then (Text.numeral? 10 ds).map fun n => (n, t) else none

def version? (t : Tail) : Option (Lexeme × Tail) := do
  let (major, t) ← number? (t.dropWhile isBlank)
  let (minor, t) ← number? (← t.expect '.')
  return (.version major minor, t)

def tagHandle? (t : Tail) : Option (Lexeme × Tail) := do
  let (handle, t) ← Tag.handle? (t.dropWhile isBlank)
  if !Tag.isHandle handle || !(t.chars.head?.map isBlank).getD false then none
  else
    let t := t.dropWhile isBlank
    let (expansion, u) ← Tag.scan true t
    if u.chars.length = t.chars.length || !u.atGap then none
    else return (.tagHandle (String.ofList handle) (String.ofList expansion), u)

def read? (t : Tail) : Option (Lexeme × Tail) :=
  let (name, t) := t.takeWhile isWordChar
  if !t.atGap then none
  else if name == ['Y', 'A', 'M', 'L'] then version? t
  else if name == ['T', 'A', 'G'] then tagHandle? t
  else none

end Directive

end SiteNav.Yaml
