import MonkeyFrontend.Parsing.Expression

namespace MonkeyFrontend.Cursor

def wholeExpression (c : Cursor) : Outcome Expression :=
  expression .lowest levelLimit c

def letBinding (c : Cursor) : Outcome Statement :=
  (c.expect .identifier).andThen fun name d =>
    (d.expect .assign).andThen fun _ d =>
      d.advance.wholeExpression.andThen fun value d =>
        .done (.letBinding c.current.token ⟨name, name.literal⟩ (some value)) d.overSemicolon

def returnValue (c : Cursor) : Outcome Statement :=
  if endsStatement c.peek then .done (.returnValue c.current.token none) c.overSemicolon
  else
    c.advance.wholeExpression.andThen fun value d =>
      .done (.returnValue c.current.token (some value)) d.overSemicolon

def expressionStatement (c : Cursor) : Outcome Statement :=
  c.wholeExpression.andThen fun value d =>
    .done (.expression c.current.token (some value)) d.overSemicolon

/-- Reads a statement. It ends on its last lexeme, the semicolon if there is one; a semicolon alone
is an expression statement without an expression. -/
def statement (c : Cursor) : Outcome Statement :=
  .after (.statement c.current.kind) <|
    match c.current.kind with
    | .letKeyword => c.letBinding
    | .returnKeyword => c.returnValue
    | .semicolon => .done (.expression c.current.token none) c
    | _ => c.expressionStatement

theorem reaches_letBinding (c : Cursor) : c.Reaches c.letBinding.cursor := by
  refine Outcome.reaches_andThen (reaches_expect _ c) fun name d => ?_
  refine Outcome.reaches_andThen (reaches_expect _ d) fun _ d => ?_
  refine Outcome.reaches_andThen ((Reaches.advance d).trans (reaches_expression _ _ _)) ?_
  exact fun value d => .overSemicolon d

theorem reaches_returnValue (c : Cursor) : c.Reaches c.returnValue.cursor := by
  unfold returnValue
  split
  · exact .overSemicolon c
  · refine Outcome.reaches_andThen ((Reaches.advance c).trans (reaches_expression _ _ _)) ?_
    exact fun value d => .overSemicolon d

theorem reaches_expressionStatement (c : Cursor) : c.Reaches c.expressionStatement.cursor :=
  Outcome.reaches_andThen (reaches_expression _ _ c) fun _ d => .overSemicolon d

theorem reaches_statement (c : Cursor) : c.Reaches c.statement.cursor := by
  simp only [statement, Outcome.after]
  split
  · exact reaches_letBinding c
  · exact reaches_returnValue c
  · exact .refl c
  · exact reaches_expressionStatement c

end MonkeyFrontend.Cursor
