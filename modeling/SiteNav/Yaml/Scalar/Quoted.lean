import SiteNav.Text.Digit
import SiteNav.Yaml.Scalar.Gap

/-!
# Quoted scalars

Between single quotes a quote is written twice; between double quotes there are escapes, among them
of line breaks. No line inside may look like the beginning or end of a document.
-/
namespace SiteNav.Yaml.Quoted

def simpleEscape? : Char → Option Char
  | '0' => some '\x00'
  | 'a' => some '\x07'
  | 'b' => some '\x08'
  | 't' => some '\t'
  | '\t' => some '\t'
  | 'n' => some '\n'
  | 'v' => some '\x0b'
  | 'f' => some '\x0c'
  | 'r' => some '\r'
  | 'e' => some '\x1b'
  | ' ' => some ' '
  | '"' => some '"'
  | '/' => some '/'
  | '\\' => some '\\'
  | 'N' => some '\x85'
  | '_' => some '\xa0'
  | 'L' => some '\u2028'
  | 'P' => some '\u2029'
  | _ => none

def codeLength? : Char → Option Nat
  | 'x' => some 2
  | 'u' => some 4
  | 'U' => some 8
  | _ => none

/-- What the next character of a double-quoted scalar belongs to. -/
inductive Phase where
  | text
  | escape
  | code (more value : Nat)

/-- Reads on between double quotes; `acc` is the scalar so far, latest character first, and `gap` what
was read since. -/
def scanDouble (acc : List Char) (gap : Gap) : Phase → Mark → List Char → Option (List Char × Tail)
  | _, _, [] => none
  | .text, m, c :: cs =>
    if isBlank c || isBreak c then scanDouble acc (gap.push c) .text (m.past c) cs
    else if (boundary? m (c :: cs)).isSome then none
    else if c = '"' then some (gap.after acc, ⟨m.past c, cs⟩)
    else if c = '\\' then scanDouble (gap.after acc) .nil .escape (m.past c) cs
    else scanDouble (c :: gap.after acc) .nil .text (m.past c) cs
  | .escape, m, c :: cs =>
    if isBreak c then scanDouble acc (.lines [] []) .text (m.past c) cs
    else match codeLength? c, simpleEscape? c with
      | some n, _ => scanDouble acc .nil (.code (n - 1) 0) (m.past c) cs
      | none, some x => scanDouble (x :: acc) .nil .text (m.past c) cs
      | none, none => none
  | .code more v, m, c :: cs =>
    match Text.digit? 16 c, more with
    | none, _ => none
    | some d, 0 =>
      match Text.scalar? (v * 16 + d) with
      | some x => scanDouble (x :: acc) .nil .text (m.past c) cs
      | none => none
    | some d, more + 1 => scanDouble acc .nil (.code more (v * 16 + d)) (m.past c) cs

def scanSingle (acc : List Char) (gap : Gap) : Mark → List Char → Option (List Char × Tail)
  | _, [] => none
  | m, '\'' :: '\'' :: cs =>
    scanSingle ('\'' :: gap.after acc) .nil ((m.past '\'').past '\'') cs
  | m, c :: cs =>
    if isBlank c || isBreak c then scanSingle acc (gap.push c) (m.past c) cs
    else if (boundary? m (c :: cs)).isSome then none
    else if c = '\'' then some (gap.after acc, ⟨m.past c, cs⟩)
    else scanSingle (c :: gap.after acc) .nil (m.past c) cs

def ofAcc (r : List Char × Tail) : String × Tail :=
  (String.ofList r.1.reverse, r.2)

/-- Reads a double-quoted scalar whose opening quote is behind. -/
def double (t : Tail) : Option (String × Tail) :=
  (scanDouble [] .nil .text t.mark t.chars).map ofAcc

/-- Reads a single-quoted scalar whose opening quote is behind. -/
def single (t : Tail) : Option (String × Tail) :=
  (scanSingle [] .nil t.mark t.chars).map ofAcc

end SiteNav.Yaml.Quoted
