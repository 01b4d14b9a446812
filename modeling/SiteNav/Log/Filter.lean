import SiteNav.Log.Event
import SiteNav.Text.Digit
import SiteNav.Text.White

/-!
# Log filters

A filter is a list of directives, each of which sets the least urgent level that is shown for the
events of some targets, or of all. The most specific directive that concerns an event decides about
it, and an event that none concerns is not shown. In text, directives stand between commas; a target
concerns every target that begins with it. A directive for a span concerns no event here, as there
are no spans, but a list of field names in its place asks for events with all these fields.
-/
namespace SiteNav.Log

structure Directive where
  target : Option (List Char)
  fields : List String
  /-- The rank of the least urgent level shown; zero shows nothing. -/
  rank : Nat
  deriving DecidableEq

namespace Directive

def concerns (d : Directive) (e : Event) : Bool :=
  (d.target.all fun t => t.isPrefixOf e.target.toList) &&
    d.fields.all fun f => f == "message" || (e.fields.map (·.1)).contains f

def weight (d : Directive) : Nat × Nat × List String :=
  (d.target.elim 0 (·.length + 1), d.fields.length, d.fields)

def yieldsTo (a b : Directive) : Bool :=
  let (ta, na, fa) := a.weight
  let (tb, nb, fb) := b.weight
  ta < tb || (ta == tb && (na < nb || (na == nb && (fa < fb || fa == fb))))

def rank? (cs : List Char) : Option Nat :=
  let name := String.ofList (cs.map Char.toLower)
  if name == "off" then some 0
  else if name == "error" then some 1
  else if name == "warn" then some 2
  else if name == "info" then some 3
  else if name == "debug" then some 4
  else if name == "trace" then some 5
  else
    let digits := match cs with
      | '+' :: r => r
      | r => r
    (Text.numeral? 10 digits).filter (· ≤ 5)

/-- The level after an equals sign; nothing there asks for all levels. -/
def rankAfter? (cs : List Char) : Option Nat :=
  if cs.isEmpty then some 5 else rank? cs

def afterSpan? : List Char → Option Nat
  | [] => some 5
  | '=' :: cs => rankAfter? cs
  | _ => none

def splitAt (p : Char → Bool) (cs : List Char) : List Char × List Char :=
  let before := cs.takeWhile fun c => !p c
  (before, cs.drop before.length)

/-- The directive for a span that is left of its opening bracket: it concerns events, if at all, by
the names of fields alone. -/
def span? (target : Option (List Char)) (cs : List Char) : Option (Option Directive) :=
  let (name, rest) := splitAt (fun c => c == ']' || c == '\x7b') cs
  match rest with
  | ']' :: rest => (afterSpan? rest).map fun _ => none
  | '\x7b' :: rest =>
    let (field, rest) := splitAt (· == '\x7d') rest
    match rest with
    | '\x7d' :: ']' :: rest =>
      if field.isEmpty then none
      else (afterSpan? rest).map fun rank =>
        if name.isEmpty && !field.contains '=' then some ⟨target, [String.ofList field], rank⟩
        else none
    | _ => none
  | _ => none

def mayBegin (c : Char) : Bool :=
  Text.isDigit c || ('a' ≤ c && c ≤ 'z') || ('A' ≤ c && c ≤ 'Z') || c == '-' || c == ':' ||
    c == '_' || '\x7f' < c

/-- A directive, or `some none` for one that concerns no event. -/
def ofText? (cs : List Char) : Option (Option Directive) :=
  match cs with
  | [] => none
  | '[' :: cs => span? none cs
  | c :: _ =>
    if !mayBegin c then none
    else
      let (word, rest) := splitAt (fun c => c == '=' || c == '[') cs
      match rest with
      | '=' :: rest => (rankAfter? rest).map fun rank => some ⟨some word, [], rank⟩
      | '[' :: rest => span? (some word) rest
      | _ =>
        match rank? word with
        | some rank => some (some ⟨none, [], rank⟩)
        | none => some (some ⟨some word, [], 5⟩)

end Directive

structure Filter where
  directives : List Directive

namespace Filter

/-- Of equally specific directives the later one decides. -/
def decisive? (f : Filter) (e : Event) : Option Directive :=
  (f.directives.filter (·.concerns e)).foldl (fun best d =>
    match best with
    | none => some d
    | some b => if b.yieldsTo d then some d else some b) none

def shows (f : Filter) (e : Event) : Bool :=
  match f.decisive? e with
  | some d => e.level.rank ≤ d.rank
  | none => false

def parts : List Char → List (List Char)
  | [] => [[]]
  | c :: cs =>
    if c = ',' then [] :: parts cs
    else match parts cs with
      | [] => [[c]]
      | p :: ps => (c :: p) :: ps

def trim (cs : List Char) : List Char :=
  ((cs.dropWhile Text.isWhite).reverse.dropWhile Text.isWhite).reverse

def ofText? (s : String) : Option Filter :=
  (((parts s.toList).filter (!·.isEmpty)).mapM fun p => Directive.ofText? (trim p)).map
    fun ds => ⟨ds.filterMap id⟩

def standard : Filter :=
  ⟨[⟨none, [], Level.warn.rank⟩]⟩

def verbose : Filter :=
  ⟨[⟨some "docnav".toList, [], Level.debug.rank⟩,
    ⟨some "docnav_config".toList, [], Level.debug.rank⟩]⟩

/-- The filter of a run: a text that is no filter counts as none. -/
def choose (isVerbose : Bool) (text : Option String) : Filter :=
  if isVerbose then verbose else (text.bind ofText?).getD standard

end Filter

end SiteNav.Log
