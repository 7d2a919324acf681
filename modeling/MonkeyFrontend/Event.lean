import MonkeyFrontend.Diagnostic
import MonkeyFrontend.Precedence

namespace MonkeyFrontend

inductive Level where
  | trace
  | debug
  | info
  | warn
  | error
deriving DecidableEq, Repr

namespace Level

def rank : Level → Nat
  | trace => 0
  | debug => 1
  | info => 2
  | warn => 3
  | error => 4

def name : Level → String
  | trace => "TRACE"
  | debug => "DEBUG"
  | info => "INFO"
  | warn => "WARN"
  | error => "ERROR"

end Level

inductive Event where
  | tokenized (bytes tokens : Nat)
  | statement (kind : TokenKind)
  | expression (kind : TokenKind) (precedence : Precedence) (depth : Nat)
  | diagnostic (diagnostic : Diagnostic)
  | discarding (diagnostics : Nat)
  | parsingFile (path : String) (bytes : Nat)
  | endOfInput
deriving DecidableEq, Repr

namespace Event

def level : Event → Level
  | tokenized _ _ => .trace
  | statement _ => .trace
  | expression _ _ _ => .trace
  | diagnostic _ => .debug
  | discarding _ => .debug
  | parsingFile _ _ => .info
  | endOfInput => .debug

def message : Event → String
  | tokenized bytes tokens =>
    "tokenized program bytes=" ++ toString bytes ++ " tokens=" ++ toString tokens
  | statement kind => "statement token=" ++ kind.name
  | expression kind precedence depth =>
    "expression token=" ++ kind.name ++ " precedence=" ++ precedence.name ++
      " depth=" ++ toString depth
  | diagnostic found => "syntax error err=" ++ found.render
  | discarding diagnostics => "discarding statement errors=" ++ toString diagnostics
  | parsingFile path bytes => "parsing file path=" ++ path ++ " bytes=" ++ toString bytes
  | endOfInput => "end of input"

def render (event : Event) : String :=
  event.level.name ++ " " ++ event.message

def diagnostic? : Event → Option Diagnostic
  | diagnostic found => some found
  | _ => none

def diagnostics (events : List Event) : List Diagnostic :=
  events.filterMap diagnostic?

@[simp]
theorem diagnostics_nil : diagnostics [] = [] := rfl

@[simp]
theorem diagnostics_append (xs ys : List Event) :
    diagnostics (xs ++ ys) = diagnostics xs ++ diagnostics ys := by
  simp [diagnostics]

end Event

inductive Filter where
  | atLeast (level : Level)
  | off
deriving DecidableEq, Repr

namespace Filter

def shows : Filter → Event → Bool
  | atLeast level, event => level.rank ≤ event.level.rank
  | off, _ => false

def ofName? (name : String) : Option Filter :=
  if name = "trace" then some (.atLeast .trace)
  else if name = "debug" then some (.atLeast .debug)
  else if name = "info" then some (.atLeast .info)
  else if name = "warn" then some (.atLeast .warn)
  else if name = "error" then some (.atLeast .error)
  else if name = "off" then some .off
  else none

end Filter

end MonkeyFrontend
