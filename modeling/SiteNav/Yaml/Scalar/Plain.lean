import SiteNav.Yaml.Scalar.Gap

/-!
# Plain scalars

A scalar without quotes ends before a colon or a comment that is set off by a gap, and on a line that
is indented too little or that begins or ends a document. Between brackets it also ends before a
bracket or a comma.
-/
namespace SiteNav.Yaml.Plain

def isFlowSign (c : Char) : Bool :=
  c == ',' || c == '[' || c == ']' || c == '{' || c == '}'

def isSign (c : Char) : Bool :=
  isFlowSign c || c == '-' || c == '?' || c == ':' || c == '#' || c == '&' || c == '*' || c == '!' ||
    c == '|' || c == '>' || c == '\'' || c == '"' || c == '%' || c == '@' || c == '\x60'

def begins (flow : Bool) (c : Char) (cs : List Char) : Bool :=
  if c == '-' then !(cs.head?.map isBlank).getD false
  else if c == '?' || c == ':' then !flow && !atGap cs
  else !isSign c && !isBlank c && !isBreak c

/-- A colon that may not stand inside a plain scalar between brackets. -/
def strayColon (flow : Bool) (c : Char) (cs : List Char) : Bool :=
  flow && c == ':' && (cs.head?.map fun d => isFlowSign d || d == '?').getD false

def ends (flow : Bool) (c : Char) (cs : List Char) : Bool :=
  (c == ':' && atGap cs) || (flow && isFlowSign c)

/-- Reads on; `acc` is the scalar so far, latest character first, and `gap` what was read since. The
result tells whether line breaks follow the scalar. -/
def scanFrom (flow : Bool) (indent : Nat) (acc : List Char) (gap : Gap) :
    Mark → List Char → Option (List Char × Bool × Tail)
  | m, [] => some (acc, gap.hasLines, ⟨m, []⟩)
  | m, c :: cs =>
    if isBreak c then scanFrom flow indent acc (gap.push c) (m.past c) cs
    else if isBlank c then
      if c = '\t' ∧ gap.hasLines ∧ m.column < indent then none
      else scanFrom flow indent acc (gap.push c) (m.past c) cs
    else if !gap.isNil &&
        ((!flow && m.column < indent) || (boundary? m (c :: cs)).isSome || c == '#') then
      some (acc, gap.hasLines, ⟨m, c :: cs⟩)
    else if strayColon flow c cs then none
    else if ends flow c cs then some (acc, gap.hasLines, ⟨m, c :: cs⟩)
    else scanFrom flow indent (c :: gap.after acc) .nil (m.past c) cs

def scan (flow : Bool) (indent : Nat) (t : Tail) : Option (String × Bool × Tail) :=
  (scanFrom flow indent [] .nil t.mark t.chars).map fun (acc, lines, t) =>
    (String.ofList acc.reverse, lines, t)

end SiteNav.Yaml.Plain
