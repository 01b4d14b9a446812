import SiteNav.Site

/-!
# Sites as document content

Whatever the format, a document that is written for a site holds the same texts, flags, lists and maps,
each map with its entries in declared order. A preference that a group does not have is left out.
-/
namespace SiteNav.Document

inductive Content where
  | flag (b : Bool)
  | text (s : String)
  | list (items : List Content)
  | map (entries : List (String × Content))

namespace Content

def ofItem (it : Item) : Content :=
  map [("text", text it.text), ("link", text it.link)]

def ofGroup (g : Group) : Content :=
  map <| ("text", text g.text) ::
    ((g.collapsible.map fun b => ("collapsible", flag b)).toList ++
      [("items", list (g.items.map ofItem))])

def ofSite (s : Site) : Content :=
  map [("title", text s.title), ("description", text s.description), ("basePath", text s.basePath),
    ("sidebar", list (s.sidebar.map ofGroup))]

end Content

end SiteNav.Document
