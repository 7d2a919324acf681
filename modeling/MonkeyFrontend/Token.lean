import MonkeyFrontend.Numeral

namespace MonkeyFrontend

inductive TokenKind where
  | letKeyword
  | returnKeyword
  | trueKeyword
  | falseKeyword
  | identifier
  | integer
  | assign
  | plus
  | minus
  | bang
  | asterisk
  | slash
  | lt
  | gt
  | eq
  | notEq
  | semicolon
  | lparen
  | rparen
  | eof
deriving DecidableEq, Repr

namespace TokenKind

def all : List TokenKind :=
  [letKeyword, returnKeyword, trueKeyword, falseKeyword, identifier, integer, assign, plus, minus,
    bang, asterisk, slash, lt, gt, eq, notEq, semicolon, lparen, rparen, eof]

theorem mem_all (kind : TokenKind) : kind ∈ all := by
  cases kind <;> decide

def name : TokenKind → String
  | letKeyword => "Let"
  | returnKeyword => "Return"
  | trueKeyword => "True"
  | falseKeyword => "False"
  | identifier => "Identifier"
  | integer => "Integer"
  | assign => "Assign"
  | plus => "Plus"
  | minus => "Minus"
  | bang => "Bang"
  | asterisk => "Asterisk"
  | slash => "Slash"
  | lt => "Lt"
  | gt => "Gt"
  | eq => "Eq"
  | notEq => "NotEq"
  | semicolon => "Semicolon"
  | lparen => "LParen"
  | rparen => "RParen"
  | eof => "Eof"

def ofName? (text : String) : Option TokenKind :=
  all.find? fun kind => kind.name = text

theorem ofName?_name (kind : TokenKind) : ofName? kind.name = some kind := by
  cases kind <;> decide

def description : TokenKind → String
  | letKeyword => "'let'"
  | returnKeyword => "'return'"
  | trueKeyword => "'true'"
  | falseKeyword => "'false'"
  | identifier => "identifier"
  | integer => "integer"
  | assign => "'='"
  | plus => "'+'"
  | minus => "'-'"
  | bang => "'!'"
  | asterisk => "'*'"
  | slash => "'/'"
  | lt => "'<'"
  | gt => "'>'"
  | eq => "'=='"
  | notEq => "'!='"
  | semicolon => "';'"
  | lparen => "'('"
  | rparen => "')'"
  | eof => "end of input"

end TokenKind

/-- What a token carries: the text it was cut from, or a number. -/
inductive Literal where
  | text (content : String)
  | number (value : Int64)
deriving DecidableEq, Repr

def Literal.render : Literal → String
  | .text content => content
  | .number value => Numeral.write value

def Literal.integer? : Literal → Option Int64
  | .text content => Numeral.read? content
  | .number value => some value

structure Token where
  kind : TokenKind
  literal : Literal
deriving DecidableEq, Repr

namespace Token

def eof : Token := ⟨.eof, .text ""⟩

/-- How a diagnostic speaks of a token that it found. Every end of input reads the same. -/
def describe (token : Token) : String :=
  if token.kind = .eof then token.kind.description else "'" ++ token.literal.render ++ "'"

theorem describe_of_eof {token : Token} (h : token.kind = .eof) :
    token.describe = "end of input" := by
  simp [describe, h, TokenKind.description]

end Token

end MonkeyFrontend
