import MonkeyFrontend.Location
import MonkeyFrontend.Token

namespace MonkeyFrontend

structure Lexeme where
  location : Location
  token : Token
deriving DecidableEq, Repr

namespace Lexeme

def kind (lexeme : Lexeme) : TokenKind :=
  lexeme.token.kind

def isEof (lexeme : Lexeme) : Bool :=
  lexeme.kind = .eof

def finish (location : Location) : Lexeme := ⟨location, .eof⟩

@[simp]
theorem kind_finish (location : Location) : (finish location).kind = .eof := rfl

end Lexeme

end MonkeyFrontend
