import SiteNav.FileSystem

/-!
# Directory trees

In a tree without links every path leads to one place. Each piece of the path is a step from a
directory: to what it holds under that name, to the directory itself for an idle piece, or to the
directory above for `..`, where the root is above itself.
-/
namespace SiteNav

/-- What is at each place, given by the names on the way to it, innermost first. The root is a
directory whatever is said about it. -/
structure DirectoryTree where
  entry : List (List Char) → Status

namespace DirectoryTree

abbrev Place := List (List Char)

def bare : DirectoryTree := ⟨fun _ => .missing⟩

variable (t : DirectoryTree)

def status (l : Place) : Status :=
  if l = [] then .directory else t.entry l

def put (l : Place) (s : Status) : DirectoryTree :=
  ⟨fun l' => if l' = l then s else t.entry l'⟩

/-- Makes the directories on the way to a place and at it. -/
def putDirectory : Place → DirectoryTree
  | [] => t
  | name :: l => (putDirectory l).put (name :: l) .directory

def putFile (l : Place) (content : ByteArray) : DirectoryTree :=
  (t.putDirectory l.tail).put l (.file content)

def step (l : Place) (piece : List Char) : Option Place :=
  match t.status l with
  | .directory =>
    if FilePath.isIdle piece then some l
    else if piece = ['.', '.'] then some l.tail
    else some (piece :: l)
  | _ => none

def locate? : List Char → Option Place
  | '/' :: body => (FilePath.pieces body).foldlM t.step []
  | _ => none

def fileSystem : FileSystem where
  status path :=
    match t.locate? path with
    | some l => t.status l
    | none => .missing

end DirectoryTree

end SiteNav
