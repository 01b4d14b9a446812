import SiteNav.Report
import SiteNav.Site
import SiteNav.Text.White

/-!
# Rules a site must keep

The rules are checked in reading order: title, base path, sidebar, and inside the sidebar each group
followed by its items. Headings are compared over the whole sidebar and links inside one group only,
through a table of where each text was first used. Entries that break a rule are reported, never
dropped.
-/
namespace SiteNav

abbrev FirstUse := List (String × Nat)

def startsWithSlash (s : String) : Bool :=
  s.toList.head? == some '/'

def endsWithSlash (s : String) : Bool :=
  s.toList.getLast? == some '/'

def titleIssues (title : String) : List Issue :=
  if Text.isBlank title then [⟨.title, .emptyTitle⟩] else []

def basePathIssues (path : String) : List Issue :=
  if path.isEmpty then [⟨.basePath, .emptyBasePath⟩]
  else
    (if startsWithSlash path then [] else [⟨.basePath, .basePathNotAbsolute⟩]) ++
      (if endsWithSlash path then [] else [⟨.basePath, .basePathWithoutTrailingSlash⟩])

def linkIssues (loc : Location) (link : String) : List Issue :=
  if link.isEmpty then [⟨loc, .emptyLink⟩]
  else if startsWithSlash link then [] else [⟨loc, .linkNotRelative⟩]

def itemIssues (groupIndex : Nat) (groupText : String) (seen : FirstUse) (index : Nat) :
    List Item → List Issue
  | [] => []
  | it :: rest =>
    let loc := Location.item groupIndex groupText index it.link
    match seen.lookup it.link with
    | some first =>
      linkIssues loc it.link ++ ⟨loc, .duplicateLink first⟩ ::
        itemIssues groupIndex groupText seen (index + 1) rest
    | none =>
      linkIssues loc it.link ++
        itemIssues groupIndex groupText ((it.link, index) :: seen) (index + 1) rest

/-- What a group without regard to the others breaks: it is empty, or its items have issues. -/
def groupBodyIssues (index : Nat) (g : Group) : List Issue :=
  if g.items.isEmpty then [⟨.group index g.text, .emptyGroup⟩]
  else itemIssues index g.text [] 0 g.items

def groupIssues (seen : FirstUse) (index : Nat) : List Group → List Issue
  | [] => []
  | g :: rest =>
    match seen.lookup g.text with
    | some first =>
      ⟨.group index g.text, .duplicateGroupText first⟩ ::
        (groupBodyIssues index g ++ groupIssues seen (index + 1) rest)
    | none => groupBodyIssues index g ++ groupIssues ((g.text, index) :: seen) (index + 1) rest

def sidebarIssues (groups : List Group) : List Issue :=
  if groups.isEmpty then [⟨.sidebar, .emptySidebar⟩] else groupIssues [] 0 groups

def Site.validate (s : Site) : Report :=
  ⟨titleIssues s.title ++ basePathIssues s.basePath ++ sidebarIssues s.sidebar⟩

end SiteNav
