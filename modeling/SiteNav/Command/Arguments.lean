import SiteNav.Format

/-!
# Command-line arguments

A command has options, in any order, after its name. An option with a value takes the next argument,
which may not look like an option itself, or the text attached to it; switches take none, and
one-letter options can be written together. No option may be given twice, and there are no other
arguments. A request for help is granted where it is met.
-/
namespace SiteNav.Command

inductive Verb where
  | check
  | print
  deriving DecidableEq

namespace Verb

def name : Verb → String
  | check => "check"
  | print => "export"

def ofName? (s : String) : Option Verb :=
  if s == "check" then some check else if s == "export" then some print else none

end Verb

inductive Switch where
  | strict
  | verbose
  | help
  deriving DecidableEq

inductive Setting where
  | config
  | basePath
  | format
  deriving DecidableEq

inductive Choice where
  | switch (s : Switch)
  | setting (s : Setting)
  deriving DecidableEq

inductive Topic where
  | program
  | verb (v : Verb)
  | help
  deriving DecidableEq

/-- Why the arguments ask for no command to be run. -/
inductive Stop where
  | help (t : Topic)
  | version
  | misuse
  deriving DecidableEq

structure Options where
  config : Option String := none
  basePath : Option String := none
  format : Option Format := none
  strict : Bool := false
  verbose : Bool := false

def Verb.long? (v : Verb) (name : String) : Option Choice :=
  if name == "config" then some (.setting .config)
  else if name == "base-path" then some (.setting .basePath)
  else if name == "verbose" then some (.switch .verbose)
  else if name == "help" then some (.switch .help)
  else match v with
    | .check => if name == "strict" then some (.switch .strict) else none
    | .print => if name == "format" then some (.setting .format) else none

def Verb.short? (v : Verb) (c : Char) : Option Choice :=
  if c == 'c' then some (.setting .config)
  else if c == 'v' then some (.switch .verbose)
  else if c == 'h' then some (.switch .help)
  else match v with
    | .check => none
    | .print => if c == 'f' then some (.setting .format) else none

def formatOfName? (s : String) : Option Format :=
  if s == "json" then some .json
  else if s == "toml" then some .toml
  else if s == "yaml" then some .yaml
  else none

namespace Options
variable (o : Options)

def turnOn (v : Verb) : Switch → Except Stop Options
  | .strict => if o.strict then .error .misuse else .ok { o with strict := true }
  | .verbose => if o.verbose then .error .misuse else .ok { o with verbose := true }
  | .help => .error (.help (.verb v))

/-- A path may not be empty, a base path may. -/
def set (value : String) : Setting → Except Stop Options
  | .config =>
    if o.config.isSome || value.isEmpty then .error .misuse
    else .ok { o with config := some value }
  | .basePath =>
    if o.basePath.isSome then .error .misuse else .ok { o with basePath := some value }
  | .format =>
    match o.format, formatOfName? value with
    | none, some f => .ok { o with format := some f }
    | _, _ => .error .misuse

/-- One-letter options written together; the last of them may wait for its value. -/
def readLetters (v : Verb) (o : Options) : List Char → Except Stop (Options × Option Setting)
  | [] => .ok (o, none)
  | c :: cs =>
    match v.short? c with
    | none => .error .misuse
    | some (.switch s) => do readLetters v (← o.turnOn v s) cs
    | some (.setting s) =>
      match cs with
      | [] => .ok (o, some s)
      | '=' :: value => do return (← o.set (String.ofList value) s, none)
      | value => do return (← o.set (String.ofList value) s, none)

def readName (v : Verb) (o : Options) (body : List Char) : Except Stop (Options × Option Setting) :=
  let name := body.takeWhile (· ≠ '=')
  let attached := body.drop name.length
  match v.long? (String.ofList name), attached with
  | some (.switch s), [] => do return (← o.turnOn v s, none)
  | some (.setting s), [] => .ok (o, some s)
  | some (.setting s), _ :: value => do return (← o.set (String.ofList value) s, none)
  | _, _ => .error .misuse

def looksLikeOption (arg : String) : Bool :=
  match arg.toList with
  | '-' :: _ :: _ => true
  | _ => false

/-- Reads the arguments of a command; `waiting` is the option that still needs its value. -/
def readAll (v : Verb) (waiting : Option Setting) (o : Options) : List String → Except Stop Options
  | [] => if waiting.isSome then .error .misuse else .ok o
  | arg :: rest =>
    match waiting, arg.toList with
    | some s, _ =>
      if looksLikeOption arg then .error .misuse
      else do readAll v none (← o.set arg s) rest
    | none, ['-', '-'] => if rest.isEmpty then .ok o else .error .misuse
    | none, '-' :: '-' :: body => do
      let (o, waiting) ← readName v o body
      readAll v waiting o rest
    | none, '-' :: c :: cs => do
      let (o, waiting) ← readLetters v o (c :: cs)
      readAll v waiting o rest
    | none, _ => .error .misuse

end Options

def topic? : List String → Option Topic
  | [] => some .program
  | [word] => if word == "help" then some .help else (Verb.ofName? word).map .verb
  | _ => none

/-- Before a command only help and the version can be asked for. -/
def stopAt (arg : String) (rest : List String) : Stop :=
  if arg == "help" then ((topic? rest).map .help).getD .misuse
  else if arg == "--help" then .help .program
  else if arg == "--version" then .version
  else match arg.toList with
    | '-' :: 'h' :: _ => .help .program
    | '-' :: 'V' :: _ => .version
    | _ => .misuse

def readArguments : List String → Except Stop (Verb × Options)
  | [] => .error .misuse
  | arg :: rest =>
    match Verb.ofName? arg with
    | some v => (Options.readAll v none {} rest).map fun o => (v, o)
    | none => .error (stopAt arg rest)

end SiteNav.Command
