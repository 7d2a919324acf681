import MonkeyFrontend.Parsing.Program

namespace MonkeyFrontend

variable (f : Location → Location)

namespace Lexeme

def relocate (lexeme : Lexeme) : Lexeme := { lexeme with location := f lexeme.location }

@[simp]
theorem token_relocate (lexeme : Lexeme) : (lexeme.relocate f).token = lexeme.token := rfl

@[simp]
theorem kind_relocate (lexeme : Lexeme) : (lexeme.relocate f).kind = lexeme.kind := rfl

@[simp]
theorem isEof_relocate (lexeme : Lexeme) : (lexeme.relocate f).isEof = lexeme.isEof := rfl

end Lexeme

def Diagnostic.relocate (diagnostic : Diagnostic) : Diagnostic :=
  { diagnostic with location := f diagnostic.location }

def Event.relocate : Event → Event
  | .diagnostic found => .diagnostic (found.relocate f)
  | event => event

theorem Event.diagnostics_relocate (events : List Event) :
    diagnostics (events.map (relocate f)) = (diagnostics events).map (Diagnostic.relocate f) := by
  rw [diagnostics, diagnostics, List.filterMap_map, List.map_filterMap]
  congr 1
  funext event
  cases event <;> rfl

namespace Cursor

def relocate (c : Cursor) : Cursor := ⟨c.rest.map (Lexeme.relocate f), f c.finish⟩

theorem current_relocate (c : Cursor) : (c.relocate f).current = c.current.relocate f := by
  obtain ⟨rest, finish⟩ := c
  cases rest <;> rfl

theorem advance_relocate (c : Cursor) : (c.relocate f).advance = c.advance.relocate f := by
  obtain ⟨rest, finish⟩ := c
  cases rest <;> rfl

theorem peek_relocate (c : Cursor) : (c.relocate f).peek = c.peek.relocate f := by
  rw [peek, advance_relocate, current_relocate, peek]

theorem overSemicolon_relocate (c : Cursor) :
    (c.relocate f).overSemicolon = c.overSemicolon.relocate f := by
  rw [overSemicolon, overSemicolon, peek_relocate, Lexeme.kind_relocate, advance_relocate]
  split <;> rfl

theorem recover_relocate (c : Cursor) : (c.relocate f).recover = c.recover.relocate f := by
  simp only [recover, relocate, List.dropWhile_map]
  rfl

end Cursor

namespace Outcome

variable {α β : Type}

def relocate (o : Outcome α) : Outcome α :=
  ⟨o.value, o.cursor.relocate f, o.events.map (Event.relocate f)⟩

theorem diagnostics_relocate (o : Outcome α) :
    (o.relocate f).diagnostics = o.diagnostics.map (Diagnostic.relocate f) :=
  Event.diagnostics_relocate f o.events

theorem andThen_relocate (o : Outcome α) {next : α → Cursor → Outcome β}
    (hn : ∀ (a : α) (d : Cursor), next a (d.relocate f) = (next a d).relocate f) :
    (o.relocate f).andThen next = (o.andThen next).relocate f := by
  cases hv : o.value with
  | none =>
    rw [andThen_of_none hv, andThen_of_none (o := o.relocate f) hv]
    rfl
  | some a =>
    rw [andThen_of_some hv, andThen_of_some (o := o.relocate f) hv]
    simp only [relocate] at hn ⊢
    rw [hn, List.map_append]

end Outcome

namespace Cursor

open Outcome

variable {f}

def Placeless {α : Type} (f : Location → Location) (read : Cursor → Outcome α) : Prop :=
  ∀ c : Cursor, read (c.relocate f) = (read c).relocate f

theorem placeless_expect (kind : TokenKind) : Placeless f (expect kind) := by
  intro c
  rw [expect, expect, peek_relocate, Lexeme.kind_relocate, advance_relocate]
  split <;> rfl

theorem placeless_integer : Placeless f integer := by
  intro c
  simp only [integer, current_relocate, Lexeme.token_relocate]
  split <;> rfl

theorem placeless_operand {inner : Precedence → Cursor → Outcome Expression}
    (h : ∀ bound : Precedence, Placeless f (inner bound)) : Placeless f (operand inner) := by
  intro c
  have hinner (bound : Precedence) : inner bound (c.relocate f).advance =
      (inner bound c.advance).relocate f := by
    rw [advance_relocate]
    exact h bound c.advance
  simp only [operand, current_relocate, Lexeme.token_relocate, hinner]
  split
  · rfl
  · exact placeless_integer c
  · rfl
  · rfl
  · exact andThen_relocate f _ fun _ _ => rfl
  · exact andThen_relocate f _ fun _ _ => rfl
  · refine andThen_relocate f _ fun e d => ?_
    rw [placeless_expect]
    exact andThen_relocate f _ fun _ _ => rfl
  · rfl

theorem placeless_expression_climb (n : Nat) :
    (∀ bound : Precedence, Placeless f (expression bound n)) ∧
      ∀ (bound : Precedence) (left : Expression), Placeless f (climb bound n left) := by
  induction n with
  | zero =>
    refine ⟨fun bound c => ?_, fun bound left c => ?_⟩
    · rw [expression, expression, tooDeep, current_relocate]
      rfl
    · rw [climb, climb, peek_relocate, Lexeme.kind_relocate, advance_relocate]
      split
      · rw [tooDeep, current_relocate]
        rfl
      · rfl
  | succ n ih =>
    obtain ⟨hexpression, hclimb⟩ := ih
    refine ⟨fun bound c => ?_, fun bound left c => ?_⟩
    · rw [expression, expression, placeless_operand hexpression c,
        andThen_relocate f _ (hclimb bound), current_relocate]
      rfl
    · simp only [climb, peek_relocate, Lexeme.kind_relocate, Lexeme.token_relocate,
        advance_relocate, hexpression _ _]
      split
      · exact andThen_relocate f _ fun right d => hclimb bound _ d
      · rfl

theorem placeless_wholeExpression : Placeless f wholeExpression :=
  (placeless_expression_climb levelLimit).1 .lowest

theorem placeless_letBinding : Placeless f letBinding := by
  intro c
  rw [letBinding, letBinding, placeless_expect, current_relocate, Lexeme.token_relocate]
  refine andThen_relocate f _ fun name d => ?_
  rw [placeless_expect]
  refine andThen_relocate f _ fun _ d => ?_
  rw [advance_relocate, placeless_wholeExpression]
  refine andThen_relocate f _ fun value d => ?_
  rw [overSemicolon_relocate]
  rfl

theorem placeless_returnValue : Placeless f returnValue := by
  intro c
  have hends : endsStatement (c.relocate f).peek = endsStatement c.peek := by
    rw [peek_relocate]
    rfl
  rw [returnValue, returnValue, hends, current_relocate, Lexeme.token_relocate]
  split
  · rw [overSemicolon_relocate]
    rfl
  · rw [advance_relocate, placeless_wholeExpression]
    refine andThen_relocate f _ fun value d => ?_
    rw [overSemicolon_relocate]
    rfl

theorem placeless_expressionStatement : Placeless f expressionStatement := by
  intro c
  rw [expressionStatement, expressionStatement, placeless_wholeExpression, current_relocate,
    Lexeme.token_relocate]
  refine andThen_relocate f _ fun value d => ?_
  rw [overSemicolon_relocate]
  rfl

theorem placeless_statement : Placeless f statement := by
  intro c
  rw [statement, statement, current_relocate, Lexeme.kind_relocate, Lexeme.token_relocate,
    placeless_letBinding, placeless_returnValue, placeless_expressionStatement]
  split <;> rfl

end Cursor

def Segment.relocate (segment : Segment) : Segment :=
  ⟨segment.statement, segment.events.map (Event.relocate f), segment.next.relocate f⟩

theorem Segment.diagnostics_relocate (segment : Segment) :
    (segment.relocate f).diagnostics = segment.diagnostics.map (Diagnostic.relocate f) :=
  Event.diagnostics_relocate f segment.events

namespace Cursor

theorem segment_relocate (c : Cursor) : (c.relocate f).segment = c.segment.relocate f := by
  obtain ⟨s, hs, hd⟩ | h := c.kept_or_dropped
  · have hd' : (c.relocate f).statement.diagnostics = [] := by
      rw [placeless_statement, Outcome.diagnostics_relocate, hd]
      rfl
    have hs' : (c.relocate f).statement.value = some s := by
      rw [placeless_statement]
      exact hs
    rw [segment_of_kept hs hd, segment_of_kept hs' hd', placeless_statement]
    simp [Segment.relocate, Outcome.relocate, advance_relocate]
  · have h' : (c.relocate f).statement.value = none ∨
        (c.relocate f).statement.diagnostics ≠ [] := by
      rw [placeless_statement, Outcome.diagnostics_relocate, ne_eq, List.map_eq_nil_iff]
      exact h
    rw [segment_of_dropped h, segment_of_dropped h', placeless_statement,
      Outcome.diagnostics_relocate, List.length_map]
    simp [Segment.relocate, Outcome.relocate, Event.relocate, recover_relocate, advance_relocate]

/-- Lexemes at other places make for the same segments, but for the places told in them. -/
theorem segments_relocate (c : Cursor) :
    (c.relocate f).segments = c.segments.map (Segment.relocate f) := by
  induction hn : c.rest.length using Nat.strongRecOn generalizing c with
  | ind n ih =>
    have heof : (c.relocate f).current.isEof = c.current.isEof := by
      rw [current_relocate, Lexeme.isEof_relocate]
    cases hc : c.current.isEof with
    | true =>
      rw [segments_of_eof hc, segments_of_eof (heof.trans hc)]
      rfl
    | false =>
      have hlt : c.segment.next.rest.length < n := hn ▸ segment_length_lt hc
      rw [segments_of_not_eof hc, segments_of_not_eof (heof.trans hc), segment_relocate,
        List.map_cons, ← ih _ hlt _ rfl]
      rfl

end Cursor

end MonkeyFrontend
