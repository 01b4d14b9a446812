import SiteNav.Command.Arguments

/-!
# Help texts

A help text says what a command is for, how it is called and which options it has. The variable that
stands in for the base path is shown with its value.
-/
namespace SiteNav.Command

def versionText : String :=
  "docnav 0.1.0\n"

def row (width : Nat) (label meaning : String) : String :=
  "  " ++ label ++ String.ofList (List.replicate (width - label.length) ' ') ++ "  " ++ meaning ++ "\n"

def programHelp : String :=
  "Documentation navigation config - CLI\n\nUsage: docnav <COMMAND>\n\nCommands:\n" ++
  row 6 "check" "Validate a navigation config" ++
  row 6 "export" "Print a validated navigation config" ++
  row 6 "help" "Print this message or the help of the given subcommand(s)" ++
  "\nOptions:\n" ++
  row 13 "-h, --help" "Print help" ++
  row 13 "-V, --version" "Print version"

def helpHelp : String :=
  "Print this message or the help of the given subcommand(s)\n\n" ++
  "Usage: docnav help [COMMAND]...\n\nArguments:\n" ++
  row 12 "[COMMAND]..." "Print help for the subcommand(s)"

def verbHelp (shownValue : Option String) (v : Verb) : String :=
  let about := match v with
    | .check => "Validate a navigation config"
    | .print => "Print a validated navigation config"
  let shown := " [env: DOCNAV_BASE_PATH=" ++ shownValue.getD "" ++ "]"
  let config := row 27 "-c, --config <CONFIG>"
    "Path to configuration file (default: auto-discover docnav.toml)"
  let middle := match v with
    | .check =>
      row 27 "    --base-path <BASE_PATH>"
        ("Site base path (overrides config, same as for export)" ++ shown) ++
      row 27 "    --strict" "Treat warnings as failures"
    | .print =>
      row 27 "-f, --format <FORMAT>"
        "Output encoding [default: json] [possible values: json, toml, yaml]" ++
      row 27 "    --base-path <BASE_PATH>" ("Site base path (overrides config)" ++ shown)
  about ++ "\n\nUsage: docnav " ++ v.name ++ " [OPTIONS]\n\nOptions:\n" ++ config ++ middle ++
    row 27 "-v, --verbose" "Enable verbose output (show loading and discovery logs)" ++
    row 27 "-h, --help" "Print help"

/-- The help on a topic; `shownValue` is that of the variable for the base path. -/
def help (shownValue : Option String) : Topic → String
  | .program => programHelp
  | .help => helpHelp
  | .verb v => verbHelp shownValue v

/-- A wording for arguments that are refused, which repeats them. -/
def plainRefusal (arguments : List String) : String :=
  "error: invalid arguments: " ++ " ".intercalate arguments ++
    "\n\nFor more information, try '--help'."

end SiteNav.Command
