import SiteNav.Command.Help
import SiteNav.Log.Filter
import SiteNav.SiteFile

/-!
# Running a command

A run tells the user some lines and logs events on the way, in one order; the filter decides which
events are seen, and about nothing else. Documents and help go to the standard output, all other lines
to the error output. The exit code is 0 for success, 1 for failure and 2 for misuse.
-/
namespace SiteNav.Command

inductive Entry where
  | line (text : String)
  | event (e : Log.Event)

structure Outcome where
  exitCode : Nat
  output : String := ""
  entries : List Entry := []

namespace Outcome
variable (o : Outcome)

def lines : List String :=
  o.entries.filterMap fun
    | .line text => some text
    | .event _ => none

def events : List Log.Event :=
  o.entries.filterMap fun
    | .line _ => none
    | .event e => some e

def errorOutput (f : Log.Filter) : String :=
  String.join <| o.entries.filterMap fun
    | .line text => some (text ++ "\n")
    | .event e => if f.shows e then some (e.line ++ "\n") else none

end Outcome

/-- What a program is run with: files, current directory, arguments, and the variables for the base
path and the log filter. -/
structure Invocation where
  workspace : Workspace
  arguments : List String
  basePath : Option String := none
  filter : Option String := none

def logged (es : List Log.Event) : List Entry :=
  es.map .event

def failed (before : List Entry) (message : String) : Outcome :=
  ⟨1, "", before ++ [.line ("Error: " ++ message)]⟩

def size (s : Site) : String :=
  toString s.sidebar.length ++ " groups, " ++ toString s.linkCount ++ " links"

/-- The findings of a report in their order, the size of the site, and the tally, which is a failure if
the report does not pass. -/
def reported (before : List Entry) (strict : Bool) (s : Site) : Outcome :=
  let report := s.validate
  let before := before ++ report.issues.map (fun i => .line i.describe) ++ [.line (size s)]
  if report.passes strict then ⟨0, "", before ++ [.line report.tally]⟩
  else failed before report.tally

def check (w : Workspace) (config basePath : Option String) (strict : Bool) : Outcome :=
  let found := w.resolve config
  match found.outcome with
  | .error e => failed (logged found.events) e.message
  | .ok path =>
    let before := logged found.events ++ [.line ("Checking " ++ path)]
    let read := w.readSite path
    match read.outcome with
    | .error e => failed (before ++ logged read.events) e.message
    | .ok site => reported (before ++ logged read.events) strict (site.withBasePath basePath)

def endLine (text : String) : String :=
  if text.toList.getLast? = some '\n' then text else text ++ "\n"

def print (w : Workspace) (config basePath : Option String) (format : Format) : Outcome :=
  let loaded := w.load config basePath
  match loaded.outcome with
  | .error e => failed (logged loaded.events) e.message
  | .ok site =>
    ⟨0, endLine (encode format site),
      logged (loaded.events ++ [.exporting site.sidebar.length format])⟩

/-- Runs a command; an option for the base path counts before the variable. -/
def execute (i : Invocation) (v : Verb) (o : Options) : Outcome :=
  let basePath := o.basePath <|> i.basePath
  match v with
  | .check => check i.workspace o.config basePath o.strict
  | .print => print i.workspace o.config basePath (o.format.getD .json)

/-- How arguments are refused is left to the parser of arguments. Its words may depend on all of them:
it says which one is at fault and which options it has seen. -/
def run (i : Invocation) (refusal : List String → String := plainRefusal) : Outcome :=
  match readArguments i.arguments with
  | .ok (v, o) => execute i v o
  | .error (.help t) => { exitCode := 0, output := help i.basePath t }
  | .error .version => { exitCode := 0, output := versionText }
  | .error .misuse => { exitCode := 2, entries := [.line (refusal i.arguments)] }

def filter (i : Invocation) : Log.Filter :=
  match readArguments i.arguments with
  | .ok (_, o) => .choose o.verbose i.filter
  | .error _ => .standard

def neededPaths (i : Invocation) : List (List Char) :=
  match readArguments i.arguments with
  | .ok (_, o) =>
    let directory := i.workspace.directory.toList
    match o.config with
    | some path => [FilePath.join directory path.toList]
    | none => FileSystem.candidates directory
  | .error _ => []

end SiteNav.Command
