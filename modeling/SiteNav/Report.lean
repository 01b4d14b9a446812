import SiteNav.Text.Quoted

/-!
# Findings about a site

A finding names the rule that an entry breaks and the place of the entry. A rule fixes how serious it
is. A report lists findings in the order they were made; errors always fail it, and warnings fail it
under the strict reading.
-/
namespace SiteNav
open Text (quoted)

inductive Severity where
  | warning
  | error
  deriving DecidableEq

def Severity.name : Severity → String
  | .warning => "warning"
  | .error => "error"

inductive Rule where
  | emptyBasePath
  | basePathNotAbsolute
  | basePathWithoutTrailingSlash
  | emptyTitle
  | emptySidebar
  | emptyGroup
  /-- The heading belongs to the group at `first` already. -/
  | duplicateGroupText (first : Nat)
  /-- The link belongs to the item at `first` of the same group already. -/
  | duplicateLink (first : Nat)
  | emptyLink
  | linkNotRelative
  deriving DecidableEq

namespace Rule

def severity : Rule → Severity
  | basePathWithoutTrailingSlash | emptyTitle | emptySidebar | emptyGroup => .warning
  | emptyBasePath | basePathNotAbsolute | duplicateGroupText _ | duplicateLink _ | emptyLink
  | linkNotRelative => .error

def message : Rule → String
  | emptyBasePath => "base path cannot be empty"
  | basePathNotAbsolute => "base path must start with '/'"
  | basePathWithoutTrailingSlash => "base path should end with '/'"
  | emptyTitle => "title is empty"
  | emptySidebar => "sidebar has no groups"
  | emptyGroup => "group has no items"
  | duplicateGroupText first =>
    "duplicate group text (first used by sidebar[" ++ toString first ++ "])"
  | duplicateLink first => "duplicate link (first used by items[" ++ toString first ++ "])"
  | emptyLink => "link cannot be empty"
  | linkNotRelative => "link must be site-relative and start with '/'"

end Rule

inductive Location where
  | title
  | basePath
  | sidebar
  | group (index : Nat) (text : String)
  | item (groupIndex : Nat) (groupText : String) (index : Nat) (link : String)
  deriving DecidableEq

def Location.describe : Location → String
  | title => "title"
  | basePath => "basePath"
  | sidebar => "sidebar"
  | group i text => "sidebar[" ++ toString i ++ "] " ++ quoted text
  | item gi text i link =>
    "sidebar[" ++ toString gi ++ "] " ++ quoted text ++ " items[" ++ toString i ++ "] link " ++
      quoted link

structure Issue where
  location : Location
  rule : Rule
  deriving DecidableEq

namespace Issue
variable (i : Issue)

def severity : Severity := i.rule.severity

def describe : String :=
  i.severity.name ++ ": " ++ i.location.describe ++ ": " ++ i.rule.message

def isError : Bool := i.severity = .error

end Issue

structure Report where
  issues : List Issue
  deriving DecidableEq

namespace Report
variable (r : Report)

def errors : List Issue := r.issues.filter (·.isError)

def warnings : List Issue := r.issues.filter (!·.isError)

def hasErrors : Bool := r.issues.any (·.isError)

/-- The strict reading accepts no issue at all, the lenient one no error. -/
def passes (strict : Bool) : Bool :=
  if strict then r.issues.isEmpty else !r.hasErrors

def worst : Option Severity :=
  if r.hasErrors then some .error else if r.issues.isEmpty then none else some .warning

def describe : String :=
  "\n".intercalate (r.issues.map (·.describe))

/-- One-line tally, such as `1 error, 2 warnings`. -/
def tally : String :=
  if r.issues.isEmpty then "No issues found"
  else count r.errors.length "error" ++ ", " ++ count r.warnings.length "warning"
where
  count (n : Nat) (word : String) : String :=
    toString n ++ " " ++ (if n = 1 then word else word ++ "s")

end Report

end SiteNav
