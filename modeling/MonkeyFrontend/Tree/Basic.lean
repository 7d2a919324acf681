import MonkeyFrontend.Token

namespace MonkeyFrontend

inductive NodeKind where
  | identifier
  | integerLiteral
  | booleanLiteral
  | unaryExpression
  | binaryExpression
  | letStatement
  | returnStatement
  | expressionStatement
deriving DecidableEq, Repr

namespace NodeKind

def all : List NodeKind :=
  [identifier, integerLiteral, booleanLiteral, unaryExpression, binaryExpression, letStatement,
    returnStatement, expressionStatement]

def name : NodeKind → String
  | identifier => "Identifier"
  | integerLiteral => "IntegerLiteral"
  | booleanLiteral => "BooleanLiteral"
  | unaryExpression => "PrefixExpression"
  | binaryExpression => "InfixExpression"
  | letStatement => "LetStatement"
  | returnStatement => "ReturnStatement"
  | expressionStatement => "ExpressionStatement"

def ofName? (text : String) : Option NodeKind :=
  all.find? fun kind => kind.name = text

theorem ofName?_name (kind : NodeKind) : ofName? kind.name = some kind := by
  cases kind <;> decide

end NodeKind

inductive Gap where
  | missing (node : NodeKind) (field : String)
  | incomplete (node : NodeKind) (field : String)
deriving DecidableEq, Repr

namespace Gap

def node : Gap → NodeKind
  | missing node _ => node
  | incomplete node _ => node

def field : Gap → String
  | missing _ field => field
  | incomplete _ field => field

def message : Gap → String
  | missing node field => node.name ++ " is missing its " ++ field
  | incomplete node field => "incomplete " ++ node.name ++ ": " ++ field ++ " was never set"

end Gap

structure Identifier where
  token : Token
  value : Literal
deriving DecidableEq, Repr

/-- An expression. An operator whose right operand was never filled in is open. -/
inductive Expression where
  | identifier (name : Identifier)
  | integer (token : Token) (value : Option Int64)
  | boolean (token : Token) (value : Bool)
  | unary (token : Token) (operator : String) (right : Expression)
  | unaryOpen (token : Token) (operator : String)
  | binary (token : Token) (operator : String) (left right : Expression)
  | binaryOpen (token : Token) (operator : String) (left : Expression)
deriving DecidableEq, Repr

namespace Expression

def kind : Expression → NodeKind
  | identifier _ => .identifier
  | integer _ _ => .integerLiteral
  | boolean _ _ => .booleanLiteral
  | unary _ _ _ => .unaryExpression
  | unaryOpen _ _ => .unaryExpression
  | binary _ _ _ _ => .binaryExpression
  | binaryOpen _ _ _ => .binaryExpression

def token : Expression → Token
  | identifier name => name.token
  | integer token _ => token
  | boolean token _ => token
  | unary token _ _ => token
  | unaryOpen token _ => token
  | binary token _ _ _ => token
  | binaryOpen token _ _ => token

def gap? : Expression → Option Gap
  | integer _ none => some (.missing .integerLiteral "value")
  | unaryOpen _ _ => some (.missing .unaryExpression "right")
  | binaryOpen _ _ _ => some (.missing .binaryExpression "right")
  | _ => none

/-- Fills in the value of an integer; other nodes have none and stay as they are. -/
def withValue (e : Expression) (value : Int64) : Expression :=
  match e with
  | integer token _ => integer token (some value)
  | other => other

def withRight (e right : Expression) : Expression :=
  match e with
  | unary token operator _ => unary token operator right
  | unaryOpen token operator => unary token operator right
  | binary token operator left _ => binary token operator left right
  | binaryOpen token operator left => binary token operator left right
  | other => other

end Expression

/-- A statement. The value of a return and the expression of an expression statement may be left
out for good; the value of a let may not. -/
inductive Statement where
  | letBinding (token : Token) (name : Identifier) (value : Option Expression)
  | returnValue (token : Token) (value : Option Expression)
  | expression (token : Token) (value : Option Expression)
deriving DecidableEq, Repr

namespace Statement

def kind : Statement → NodeKind
  | letBinding _ _ _ => .letStatement
  | returnValue _ _ => .returnStatement
  | expression _ _ => .expressionStatement

def token : Statement → Token
  | letBinding token _ _ => token
  | returnValue token _ => token
  | expression token _ => token

def value? : Statement → Option Expression
  | letBinding _ _ value => value
  | returnValue _ value => value
  | expression _ value => value

def gap? : Statement → Option Gap
  | letBinding _ _ none => some (.incomplete .letStatement "value")
  | _ => none

def withValue (s : Statement) (value : Expression) : Statement :=
  match s with
  | letBinding token name _ => letBinding token name (some value)
  | returnValue token _ => returnValue token (some value)
  | expression token _ => expression token (some value)

end Statement

structure Program where
  statements : List Statement
deriving DecidableEq, Repr

namespace Program

def empty : Program := ⟨[]⟩

def push (program : Program) (statement : Statement) : Program :=
  ⟨program.statements ++ [statement]⟩

def token? (program : Program) : Option Token :=
  program.statements.head?.map Statement.token

end Program

end MonkeyFrontend
