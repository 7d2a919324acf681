import MonkeyFrontend.Session.File
import MonkeyFrontend.Session.Request

namespace MonkeyFrontend.Session

def versionText : String := "monkey-repl 0.1.0\n"

def usage : String := "Usage: monkey-repl [OPTIONS] [FILE]\n"

def helpText : String :=
  "Parses monkey source and prints the tree it was parsed into\n\n" ++ usage ++
    "\nArguments:\n" ++
    "  [FILE]  Parse this file instead of starting the interactive prompt\n" ++
    "\nOptions:\n" ++
    "  -v, --verbose...  Increase log verbosity (-v debug, -vv trace). Overrides RUST_LOG\n" ++
    "  -h, --help        Print help\n" ++
    "  -V, --version     Print version\n"

def misuseText (argument : String) : String :=
  "error: unexpected argument '" ++ argument ++ "' found\n\n" ++ usage ++
    "\nFor more information, try '--help'.\n"

/-- The filter that a verbosity asks for; without one the named level counts, or warnings if there
is none. -/
def filterFor (verbosity : Nat) (level : Option String) : Filter :=
  match verbosity with
  | 0 => (level.bind Filter.ofName?).getD (.atLeast .warn)
  | 1 => .atLeast .debug
  | _ => .atLeast .trace

structure Surroundings where
  level : Option String
  input : List UInt8
  file : String → Except ReadFailure (List UInt8)

def run (arguments : List String) (surroundings : Surroundings) : Ending :=
  match Request.ofArguments arguments with
  | .help => ⟨[.out helpText], 0⟩
  | .version => ⟨[.out versionText], 0⟩
  | .misuse argument => ⟨[.err (misuseText argument)], 2⟩
  | .run verbosity none => converse (filterFor verbosity surroundings.level) surroundings.input
  | .run verbosity (some path) =>
    parseFile (filterFor verbosity surroundings.level) path (surroundings.file path)

end MonkeyFrontend.Session
