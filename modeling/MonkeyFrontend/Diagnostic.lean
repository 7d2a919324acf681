import MonkeyFrontend.Location
import MonkeyFrontend.Token

namespace MonkeyFrontend

/-- Why a text is not a program. What was found is kept as a diagnostic describes it. -/
inductive Reason where
  | strayCharacter (character : Char)
  | expected (kind : TokenKind) (found : String)
  | unexpectedToken (found : String)
  | unreadableInteger (found : String)
  | tooDeep
deriving DecidableEq, Repr

def Reason.message : Reason → String
  | strayCharacter character => "unexpected character: " ++ character.toString
  | expected kind found => "expected " ++ kind.description ++ ", found " ++ found
  | unexpectedToken found => "unexpected token: " ++ found
  | unreadableInteger found => "could not parse " ++ found ++ " as integer"
  | tooDeep => "expression nested too deeply"

structure Diagnostic where
  location : Location
  reason : Reason
deriving DecidableEq, Repr

structure Report where
  line : Nat
  column : Nat
  reason : String
deriving DecidableEq, Repr

namespace Report

def render (report : Report) : String :=
  toString report.line ++ ":" ++ toString report.column ++ ": " ++ report.reason

def renderAll (reports : List Report) : String :=
  "\n".intercalate (reports.map render)

end Report

def Diagnostic.report (diagnostic : Diagnostic) : Report :=
  ⟨diagnostic.location.line, diagnostic.location.column, diagnostic.reason.message⟩

def Diagnostic.render (diagnostic : Diagnostic) : String :=
  diagnostic.report.render

end MonkeyFrontend
