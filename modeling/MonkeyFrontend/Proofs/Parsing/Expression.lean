import MonkeyFrontend.Parsing.Expression
import MonkeyFrontend.Proofs.Parsing.Outcome

namespace MonkeyFrontend.Cursor

section

variable {inner : Precedence → Cursor → Outcome Expression} {lexeme : Lexeme} {rest : List Lexeme}
  {finish : Location}

theorem operand_of_identifier (h : lexeme.kind = .identifier) :
    operand inner ⟨lexeme :: rest, finish⟩ =
      .done (.identifier ⟨lexeme.token, lexeme.token.literal⟩) ⟨lexeme :: rest, finish⟩ := by
  simp only [Lexeme.kind] at h
  simp only [operand, current_cons, h]

theorem operand_of_integer (h : lexeme.kind = .integer) :
    operand inner ⟨lexeme :: rest, finish⟩ = integer ⟨lexeme :: rest, finish⟩ := by
  simp only [Lexeme.kind] at h
  simp only [operand, current_cons, h]

theorem operand_of_boolean (value : Bool)
    (h : lexeme.kind = if value then .trueKeyword else .falseKeyword) :
    operand inner ⟨lexeme :: rest, finish⟩ =
      .done (.boolean lexeme.token value) ⟨lexeme :: rest, finish⟩ := by
  simp only [Lexeme.kind] at h
  cases value <;> simp [operand, h]

theorem operand_of_unary (h : lexeme.kind = .bang ∨ lexeme.kind = .minus) :
    operand inner ⟨lexeme :: rest, finish⟩ =
      (inner .unary ⟨rest, finish⟩).andThen fun right d =>
        .done (.unary lexeme.token lexeme.token.literal.render right) d := by
  simp only [Lexeme.kind] at h
  obtain h | h := h
  · simp only [operand, current_cons, advance_cons, h]
  · simp only [operand, current_cons, advance_cons, h]

theorem operand_of_group (h : lexeme.kind = .lparen) :
    operand inner ⟨lexeme :: rest, finish⟩ =
      (inner .lowest ⟨rest, finish⟩).andThen fun e d =>
        (d.expect .rparen).andThen fun _ d => .done e d := by
  simp only [Lexeme.kind] at h
  simp only [operand, current_cons, advance_cons, h]

theorem expect_of_kind {kind : TokenKind} {next : Lexeme} (h : next.kind = kind) :
    (Cursor.mk (lexeme :: next :: rest) finish).expect kind =
      .done next.token ⟨next :: rest, finish⟩ :=
  if_pos h

end

variable {c : Cursor}

theorem integer_of_readable {value : Int64}
    (h : c.current.token.literal.integer? = some value) :
    c.integer = .done (.integer c.current.token (some value)) c := by
  simp only [integer, h]

theorem expression_zero_overflows (bound : Precedence) (c : Cursor) :
    (expression bound 0 c).Overflows := by
  rw [expression]
  exact ⟨rfl, c.current.location, rfl⟩

theorem agrees_expression_succ (bound : Precedence) (n : Nat) (c : Cursor) :
    (expression bound (n + 1) c).Agrees
      ((operand (fun bound => expression bound n) c).andThen (climb bound n)) := by
  rw [expression]
  exact Outcome.agrees_after rfl _

theorem climb_of_not_lt {bound : Precedence} (h : ¬ bound < c.peek.kind.precedence) (n : Nat)
    (left : Expression) : climb bound n left c = .done left c := by
  cases n with
  | zero => rw [climb, if_neg h]
  | succ n => rw [climb, if_neg h]

theorem climb_zero_overflows {bound : Precedence} (h : bound < c.peek.kind.precedence)
    (left : Expression) : (climb bound 0 left c).Overflows := by
  rw [climb, if_pos h]
  exact ⟨rfl, c.advance.current.location, rfl⟩

theorem climb_succ_of_lt {bound : Precedence} (h : bound < c.peek.kind.precedence) (n : Nat)
    (left : Expression) :
    climb bound (n + 1) left c =
      (expression c.peek.kind.precedence n c.advance.advance).andThen fun right d =>
        climb bound n (.binary c.peek.token c.peek.token.literal.render left right) d := by
  rw [climb, if_pos h]
  rfl

end MonkeyFrontend.Cursor
