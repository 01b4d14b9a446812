import SiteNav.Codec
import SiteNav.FileSystem
import SiteNav.Log.Event
import SiteNav.Validation

/-!
# Site files

A site is loaded from a given file or from the one that is discovered, with an override of its base
path applied before it is validated. The first stage that fails decides: finding the file, its being
there, its format, reading it, decoding it, validating the site. What is logged on the way is kept
whether loading fails or not.
-/
namespace SiteNav

inductive ReadError where
  | isDirectory
  | notUnicode
  | refused (reason : String)
  deriving DecidableEq

def ReadError.message : ReadError → String
  | isDirectory => "Is a directory (os error 21)"
  | notUnicode => "stream did not contain valid UTF-8"
  | refused reason => reason

inductive LoadError where
  /-- There is no site file in a directory or above. -/
  | notDiscovered (directory : String)
  | notFound (path : String)
  | unsupportedFormat (path : String)
  | unreadable (e : ReadError)
  | undecodable (e : DecodeError)
  | invalid (r : Report)

def LoadError.message : LoadError → String
  | notDiscovered dir =>
    "No " ++ String.ofList FileSystem.standardName ++ " found in " ++ dir ++ " or its parents"
  | notFound path => "Configuration file not found: " ++ path
  | unsupportedFormat path => "Unsupported configuration format: " ++ path
  | unreadable e => "I/O error: " ++ e.message
  | undecodable e => e.message
  | invalid r => "Invalid navigation configuration:\n" ++ r.describe

/-- A computation that logs and may fail. -/
abbrev Loading := ExceptT LoadError (StateM (List Log.Event))

namespace Loading

def log (e : Log.Event) : Loading Unit :=
  modifyThe (List Log.Event) (· ++ [e])

def logAll (es : List Log.Event) : Loading Unit :=
  modifyThe (List Log.Event) (· ++ es)

def outcome {α : Type} (l : Loading α) : Except LoadError α :=
  (l.run.run []).1

def events {α : Type} (l : Loading α) : List Log.Event :=
  (l.run.run []).2

end Loading

def decodeLogged (format : Format) (text : String) : Loading Site := do
  match decode format text with
  | .ok d =>
    Loading.logAll (d.ignored.map (.unknownKey · format))
    return d.site
  | .error e => throw (.undecodable e)

/-- A file system as seen from a directory, to which other paths are relative. -/
structure Workspace where
  files : FileSystem
  directory : String

namespace Workspace
variable (w : Workspace)

/-- An empty path leads nowhere, not to the directory that it is relative to. -/
def status (path : String) : Status :=
  if path = "" then .missing
  else w.files.status (FilePath.join w.directory.toList path.toList)

def resolve (path : Option String) : Loading String := do
  match path with
  | some p => return p
  | none =>
    match w.files.discover w.directory.toList with
    | some p =>
      Loading.log (.discovered (String.ofList p))
      return String.ofList p
    | none => throw (.notDiscovered w.directory)

def readText : Status → Except ReadError String
  | .file content =>
    match String.fromUTF8? content with
    | some text => .ok text
    | none => .error .notUnicode
  | .unreadable reason => .error (.refused reason)
  | _ => .error .isDirectory

def readSite (path : String) : Loading Site := do
  match w.status path with
  | .missing => throw (.notFound path)
  | status =>
    match Format.ofPath? path with
    | none => throw (.unsupportedFormat path)
    | some format =>
      Loading.log (.loading path format)
      match readText status with
      | .ok text => decodeLogged format text
      | .error e => throw (.unreadable e)

def loadReported (path basePath : Option String) : Loading (Site × Report) := do
  let path ← w.resolve path
  let site := (← w.readSite path).withBasePath basePath
  let report := site.validate
  if report.hasErrors then throw (.invalid report)
  Loading.logAll (report.warnings.map (.warned · path))
  return (site, report)

def load (path basePath : Option String) : Loading Site := do
  return (← w.loadReported path basePath).1

end Workspace

end SiteNav
