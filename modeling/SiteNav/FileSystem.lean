import SiteNav.FilePath

/-!
# File systems

A file system says what an absolute path leads to. The site file of a directory is the one with the
standard name in it or else in the nearest directory above.
-/
namespace SiteNav

inductive Status where
  | missing
  | directory
  | file (content : ByteArray)
  /-- Something that cannot be read, for a reason that the operating system gives. -/
  | unreadable (reason : String)

structure FileSystem where
  status : List Char → Status

namespace FileSystem
variable (fs : FileSystem)

/-- Something, a directory perhaps, is there. -/
def holds (path : List Char) : Bool :=
  match fs.status path with
  | .missing => false
  | _ => true

def standardName : List Char :=
  "docnav.toml".toList

def candidates (start : List Char) : List (List Char) :=
  (FilePath.ancestors start).map (FilePath.join · standardName)

def discover (start : List Char) : Option (List Char) :=
  (candidates start).find? fs.holds

end FileSystem

end SiteNav
