import SiteNav.Command.Run

/-!
# The command line

Asks the operating system for what a run may need, runs it and writes what it says.
-/
namespace SiteNav

def reason : IO.Error → String
  | .alreadyExists _ code details | .interrupted _ code details | .invalidArgument _ code details
  | .noFileOrDirectory _ code details | .noSuchThing _ code details
  | .permissionDenied _ code details | .inappropriateType _ code details
  | .resourceExhausted _ code details | .hardwareFault code details | .illegalOperation code details
  | .otherError code details | .protocolError code details | .resourceBusy code details
  | .resourceVanished code details | .timeExpired code details
  | .unsatisfiedConstraints code details | .unsupportedOperation code details =>
    details ++ " (os error " ++ toString code ++ ")"
  | .unexpectedEof => "unexpected end of file"
  | .userError details => details

/-- What the operating system says about a path. It is missing if it cannot be resolved; what is there
may still not be read. -/
def inspect (path : List Char) : IO Status := do
  let name := String.ofList path
  try
    discard (IO.FS.realPath name)
  catch _ => return .missing
  try
    return .file (← IO.FS.readBinFile name)
  catch
    | .inappropriateType _ _ _ => return .directory
    | e => return .unreadable (reason e)

def observe (paths : List (List Char)) : IO FileSystem := do
  let statuses ← paths.mapM fun p => return (p, ← inspect p)
  return ⟨fun p => (statuses.lookup p).getD .missing⟩

end SiteNav

open SiteNav Command in
def main (arguments : List String) : IO UInt32 := do
  let directory := toString (← IO.currentDir)
  let basePath ← IO.getEnv "DOCNAV_BASE_PATH"
  let filterText ← IO.getEnv "RUST_LOG"
  let blind : Invocation := ⟨⟨⟨fun _ => .missing⟩, directory⟩, arguments, basePath, filterText⟩
  let files ← observe (neededPaths blind)
  let invocation := { blind with workspace := ⟨files, directory⟩ }
  let outcome := run invocation
  (← IO.getStdout).putStr outcome.output
  (← IO.getStderr).putStr (outcome.errorOutput (filter invocation))
  return UInt32.ofNat outcome.exitCode
