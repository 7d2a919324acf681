import MonkeyFrontend.Parsing.Outcome
import MonkeyFrontend.Tree.Basic

namespace MonkeyFrontend.Cursor

/-- The most levels that an expression may take. Each expression inside another takes one, and so
does each operator that an operand is followed by. -/
def levelLimit : Nat := 256

def tooDeep (c : Cursor) : Outcome Expression :=
  .fail ⟨c.current.location, .tooDeep⟩ c

/-- Reads an integer. One that is not readable draws a diagnostic and is kept without a value. -/
def integer (c : Cursor) : Outcome Expression :=
  let token := c.current.token
  let literal := Expression.integer token token.literal.integer?
  match token.literal.integer? with
  | some _ => .done literal c
  | none =>
    .after (.diagnostic ⟨c.current.location, .unreadableInteger token.describe⟩) (.done literal c)

/-- Reads what can stand before an operator, with a way to read the expressions inside it. It ends
on its last lexeme. -/
def operand (inner : Precedence → Cursor → Outcome Expression) (c : Cursor) :
    Outcome Expression :=
  let token := c.current.token
  match token.kind with
  | .identifier => .done (.identifier ⟨token, token.literal⟩) c
  | .integer => c.integer
  | .trueKeyword => .done (.boolean token true) c
  | .falseKeyword => .done (.boolean token false) c
  | .bang | .minus =>
    (inner .unary c.advance).andThen fun right d =>
      .done (.unary token token.literal.render right) d
  | .lparen =>
    (inner .lowest c.advance).andThen fun e d =>
      (d.expect .rparen).andThen fun _ d => .done e d
  | _ => .fail ⟨c.current.location, .unexpectedToken token.describe⟩ c

mutual

/-- Reads an expression with so many levels left, up to an operator that binds no tighter than the
bound. -/
def expression (bound : Precedence) : Nat → Cursor → Outcome Expression
  | 0, c => .after (.expression c.current.kind bound levelLimit) c.tooDeep
  | n + 1, c =>
    .after (.expression c.current.kind bound (levelLimit - (n + 1))) <|
      (operand (fun bound => expression bound n) c).andThen (climb bound n)

def climb (bound : Precedence) : Nat → Expression → Cursor → Outcome Expression
  | 0, left, c => if bound < c.peek.kind.precedence then c.advance.tooDeep else .done left c
  | n + 1, left, c =>
    if bound < c.peek.kind.precedence then
      let token := c.peek.token
      (expression token.kind.precedence n c.advance.advance).andThen fun right d =>
        climb bound n (.binary token token.literal.render left right) d
    else .done left c

end

theorem reaches_integer (c : Cursor) : c.Reaches c.integer.cursor := by
  unfold integer
  dsimp only
  split <;> exact .refl c

theorem reaches_operand {inner : Precedence → Cursor → Outcome Expression}
    (h : ∀ (bound : Precedence) (c : Cursor), c.Reaches (inner bound c).cursor) (c : Cursor) :
    c.Reaches (operand inner c).cursor := by
  have ht (bound : Precedence) : c.Reaches (inner bound c.advance).cursor :=
    (Reaches.advance c).trans (h bound c.advance)
  unfold operand
  dsimp only
  split
  · exact .refl c
  · exact reaches_integer c
  · exact .refl c
  · exact .refl c
  · exact Outcome.reaches_andThen (ht _) fun _ d => .refl d
  · exact Outcome.reaches_andThen (ht _) fun _ d => .refl d
  · refine Outcome.reaches_andThen (ht _) fun _ d => ?_
    exact Outcome.reaches_andThen (reaches_expect _ d) fun _ d => .refl d
  · exact .refl c

theorem reaches_expression_climb (n : Nat) :
    (∀ (bound : Precedence) (c : Cursor), c.Reaches (expression bound n c).cursor) ∧
      ∀ (bound : Precedence) (left : Expression) (c : Cursor),
        c.Reaches (climb bound n left c).cursor := by
  induction n with
  | zero =>
      refine ⟨fun bound c => ?_, fun bound left c => ?_⟩
      · exact .refl c
      · rw [climb]
        split
        · exact .advance c
        · exact .refl c
  | succ n ih =>
      obtain ⟨hexpression, hclimb⟩ := ih
      refine ⟨fun bound c => ?_, fun bound left c => ?_⟩
      · rw [expression]
        exact Outcome.reaches_andThen (reaches_operand hexpression c) (hclimb bound)
      · rw [climb]
        split
        · refine Outcome.reaches_andThen ?_ fun right d => hclimb bound _ d
          exact ((Reaches.advance c).trans (.advance _)).trans (hexpression _ _)
        · exact .refl c

theorem reaches_expression (bound : Precedence) (n : Nat) (c : Cursor) :
    c.Reaches (expression bound n c).cursor :=
  (reaches_expression_climb n).1 bound c

end MonkeyFrontend.Cursor
