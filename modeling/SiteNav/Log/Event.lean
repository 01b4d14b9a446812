import SiteNav.Format
import SiteNav.Report

/-!
# Log events

What is worth a log line: a site file was found, is about to be read, holds a key that is not
understood, has findings that do not stop it from being used, or is about to be exported. An event has
a level, the name of the part it comes from, a message and named values.
-/
namespace SiteNav.Log

inductive Level where
  | error
  | warn
  | info
  | debug
  | trace
  deriving DecidableEq

namespace Level

/-- The more detailed levels have the higher ranks. -/
def rank : Level → Nat
  | error => 1
  | warn => 2
  | info => 3
  | debug => 4
  | trace => 5

def label : Level → String
  | error => "ERROR"
  | warn => " WARN"
  | info => " INFO"
  | debug => "DEBUG"
  | trace => "TRACE"

end Level

inductive Event where
  | discovered (path : String)
  | loading (path : String) (format : Format)
  | unknownKey (key : String) (format : Format)
  | warned (issue : Issue) (path : String)
  | exporting (groups : Nat) (format : Format)
  deriving DecidableEq

namespace Event

def level : Event → Level
  | discovered _ | loading _ _ | exporting _ _ => .debug
  | unknownKey _ _ | warned _ _ => .warn

def target : Event → String
  | discovered _ | loading _ _ | warned _ _ => "docnav_config"
  | unknownKey _ _ => "docnav_config::format"
  | exporting _ _ => "docnav::commands::export"

def message : Event → String
  | discovered _ => "Discovered navigation config"
  | loading _ _ => "Loading navigation config"
  | unknownKey _ _ => "Ignoring unknown configuration key"
  | warned issue _ => issue.describe
  | exporting _ _ => "Exporting navigation config"

def fields : Event → List (String × String)
  | discovered path => [("path", path)]
  | loading path format => [("path", path), ("format", format.name)]
  | unknownKey key format => [("key", key), ("format", format.name)]
  | warned _ path => [("path", path)]
  | exporting groups format => [("groups", toString groups), ("format", format.title)]

def line (e : Event) : String :=
  e.level.label ++ " " ++ e.target ++ ": " ++ e.message ++
    String.join (e.fields.map fun (name, value) => " " ++ name ++ "=" ++ value)

end Event

end SiteNav.Log
