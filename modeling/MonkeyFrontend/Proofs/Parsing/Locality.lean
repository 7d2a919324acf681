import MonkeyFrontend.Parsing.Program
import MonkeyFrontend.Proofs.Parsing.Confinement

namespace MonkeyFrontend

namespace Cursor

def extend (c : Cursor) (tail : List Lexeme) (finish : Location) : Cursor :=
  ⟨c.rest ++ tail, finish⟩

/-- The end of a statement is still to come. -/
def Fenced (c : Cursor) : Prop := ∃ lexeme ∈ c.rest, endsStatement lexeme = true

theorem Fenced.rest_ne_nil {c : Cursor} (h : c.Fenced) : c.rest ≠ [] := by
  obtain ⟨lexeme, hm, -⟩ := h
  exact List.ne_nil_of_mem hm

theorem Within.fenced {c d : Cursor} (hw : c.Within d) (h : c.Fenced) : d.Fenced := by
  obtain ⟨front, hrest, hnot⟩ := hw.rest
  obtain ⟨lexeme, hm, he⟩ := h
  rw [hrest] at hm
  obtain hm | hm := List.mem_append.mp hm
  · rw [hnot lexeme hm] at he
    cases he
  · exact ⟨lexeme, hm, he⟩

theorem Fenced.advance {c : Cursor} (h : c.Fenced) (hc : endsStatement c.current = false) :
    c.advance.Fenced :=
  (Within.advance hc).fenced h

theorem current_extend {c : Cursor} (h : c.rest ≠ []) (tail : List Lexeme) (finish : Location) :
    (c.extend tail finish).current = c.current := by
  obtain ⟨rest, end'⟩ := c
  cases rest with
  | nil => exact absurd rfl h
  | cons lexeme rest => rfl

theorem advance_extend {c : Cursor} (h : c.rest ≠ []) (tail : List Lexeme) (finish : Location) :
    (c.extend tail finish).advance = c.advance.extend tail finish := by
  obtain ⟨rest, end'⟩ := c
  cases rest with
  | nil => exact absurd rfl h
  | cons lexeme rest => rfl

theorem peek_extend {c : Cursor} (h : c.Fenced) (hc : endsStatement c.current = false)
    (tail : List Lexeme) (finish : Location) : (c.extend tail finish).peek = c.peek := by
  rw [peek, advance_extend h.rest_ne_nil, current_extend (h.advance hc).rest_ne_nil]
  rfl

theorem overSemicolon_extend {c : Cursor} (h : c.Fenced) (hc : endsStatement c.current = false)
    (tail : List Lexeme) (finish : Location) :
    (c.extend tail finish).overSemicolon = c.overSemicolon.extend tail finish := by
  rw [overSemicolon, overSemicolon, peek_extend h hc]
  split
  · exact advance_extend h.rest_ne_nil tail finish
  · rfl

theorem recover_extend {c : Cursor} (h : c.Fenced) (tail : List Lexeme) (finish : Location) :
    (c.extend tail finish).recover = c.recover.extend tail finish := by
  have hne : c.recover.rest ≠ [] := ((Within.recover c).fenced h).rest_ne_nil
  have he : (c.rest.dropWhile fun lexeme => !endsStatement lexeme).isEmpty = false := by
    simpa [recover] using hne
  simp [recover, extend, List.dropWhile_append, he]

end Cursor

namespace Outcome

variable {α β : Type}

def extend (o : Outcome α) (tail : List Lexeme) (finish : Location) : Outcome α :=
  { o with cursor := o.cursor.extend tail finish }

theorem andThen_extend {c : Cursor} {o : Outcome α} {next : α → Cursor → Outcome β}
    {tail : List Lexeme} {finish : Location} (ho : Orderly c o) (hc : c.Fenced)
    (hn : ∀ (a : α) (d : Cursor), d.Fenced → Cursor.endsStatement d.current = false →
      next a (d.extend tail finish) = (next a d).extend tail finish) :
    (o.extend tail finish).andThen next = (o.andThen next).extend tail finish := by
  cases hv : o.value with
  | none =>
    have hv' : (o.extend tail finish).value = none := hv
    rw [andThen_of_none hv, andThen_of_none hv']
    rfl
  | some a =>
    have hv' : (o.extend tail finish).value = some a := hv
    have h := hn a o.cursor (ho.within.fenced hc) (ho.inside (by simp [hv]))
    rw [andThen_of_some hv, andThen_of_some hv']
    simp only [extend] at h ⊢
    rw [h]

end Outcome

namespace Cursor

open Outcome

variable {tail : List Lexeme} {finish : Location}

/-- What follows a fence makes no difference to a way of reading, which leaves it alone. -/
def Local (tail : List Lexeme) (finish : Location) (read : Cursor → Outcome Expression) : Prop :=
  ∀ c : Cursor, c.Fenced → read (c.extend tail finish) = (read c).extend tail finish

theorem expect_extend {c : Cursor} (h : c.Fenced) (hc : endsStatement c.current = false)
    (kind : TokenKind) :
    (c.extend tail finish).expect kind = (c.expect kind).extend tail finish := by
  rw [expect, expect, peek_extend h hc]
  split
  · rw [advance_extend h.rest_ne_nil]
    rfl
  · rfl

theorem integer_extend {c : Cursor} (h : c.Fenced) :
    (c.extend tail finish).integer = c.integer.extend tail finish := by
  simp only [integer, current_extend h.rest_ne_nil]
  split <;> rfl

theorem operand_extend {inner : Precedence → Cursor → Outcome Expression}
    (ho : ∀ (bound : Precedence) (c : Cursor), Orderly c (inner bound c))
    (hl : ∀ bound : Precedence, Local tail finish (inner bound)) :
    Local tail finish (operand inner) := by
  intro c h
  have hcurrent := current_extend h.rest_ne_nil tail finish
  have hinner (bound : Precedence) (hc : endsStatement c.current = false) :
      inner bound (c.extend tail finish).advance =
        (inner bound c.advance).extend tail finish := by
    rw [advance_extend h.rest_ne_nil]
    exact hl bound c.advance (h.advance hc)
  simp only [operand, hcurrent]
  split
  · rfl
  · exact integer_extend h
  · rfl
  · rfl
  · rename_i hk
    have hc : endsStatement c.current = false := not_ends_of_kind hk (by decide)
    rw [hinner .unary hc]
    exact andThen_extend (ho .unary c.advance) (h.advance hc) fun _ _ _ _ => rfl
  · rename_i hk
    have hc : endsStatement c.current = false := not_ends_of_kind hk (by decide)
    rw [hinner .unary hc]
    exact andThen_extend (ho .unary c.advance) (h.advance hc) fun _ _ _ _ => rfl
  · rename_i hk
    have hc : endsStatement c.current = false := not_ends_of_kind hk (by decide)
    rw [hinner .lowest hc]
    apply andThen_extend (ho .lowest c.advance) (h.advance hc)
    intro e d hd hdc
    rw [expect_extend hd hdc]
    exact andThen_extend (orderly_expect hdc (by decide)) hd fun _ _ _ _ => rfl
  · rfl

theorem expression_climb_extend (n : Nat) :
    (∀ bound : Precedence, Local tail finish (expression bound n)) ∧
      ∀ (bound : Precedence) (left : Expression) (c : Cursor), c.Fenced →
        endsStatement c.current = false →
        climb bound n left (c.extend tail finish) = (climb bound n left c).extend tail finish := by
  induction n with
  | zero =>
    constructor
    · intro bound c h
      rw [expression, expression, tooDeep, current_extend h.rest_ne_nil]
      rfl
    · intro bound left c h hc
      rw [climb, climb, peek_extend h hc, advance_extend h.rest_ne_nil]
      split
      · rw [tooDeep, current_extend (h.advance hc).rest_ne_nil]
        rfl
      · rfl
  | succ n ih =>
    obtain ⟨hexpression, hclimb⟩ := ih
    have horderly := (orderly_expression_climb n).1
    constructor
    · intro bound c h
      rw [expression, expression, current_extend h.rest_ne_nil,
        operand_extend horderly hexpression c h,
        andThen_extend (orderly_operand horderly c) h (hclimb bound)]
      rfl
    · intro bound left c h hc
      by_cases hlt : bound < c.peek.kind.precedence
      · have hp : c.advance.advance.Fenced := (h.advance hc).advance (not_ends_of_lt hlt)
        rw [climb_succ_of_lt hlt, climb_succ_of_lt (by rwa [peek_extend h hc]),
          peek_extend h hc, advance_extend h.rest_ne_nil,
          advance_extend (h.advance hc).rest_ne_nil, hexpression _ _ hp]
        exact andThen_extend (horderly _ _) hp fun right d hd hdc => hclimb bound _ d hd hdc
      · rw [climb_of_not_lt hlt, climb_of_not_lt (by rwa [peek_extend h hc])]
        rfl

theorem wholeExpression_extend : Local tail finish wholeExpression :=
  (expression_climb_extend levelLimit).1 .lowest

theorem letBinding_extend {c : Cursor} (h : c.Fenced) (hc : endsStatement c.current = false) :
    (c.extend tail finish).letBinding = c.letBinding.extend tail finish := by
  rw [letBinding, letBinding, expect_extend h hc, current_extend h.rest_ne_nil]
  have hname : Orderly c (c.expect .identifier) := orderly_expect hc (by decide)
  apply andThen_extend hname h
  intro name d hd hdc
  have hsign : Orderly d (d.expect .assign) := orderly_expect hdc (by decide)
  rw [expect_extend hd hdc]
  apply andThen_extend hsign hd
  intro _ e he hec
  rw [advance_extend he.rest_ne_nil, wholeExpression_extend _ (he.advance hec)]
  apply andThen_extend (orderly_wholeExpression _) (he.advance hec)
  intro value f hf hfc
  rw [overSemicolon_extend hf hfc]
  rfl

theorem returnValue_extend {c : Cursor} (h : c.Fenced) (hc : endsStatement c.current = false) :
    (c.extend tail finish).returnValue = c.returnValue.extend tail finish := by
  rw [returnValue, returnValue, peek_extend h hc, current_extend h.rest_ne_nil]
  split
  · rw [overSemicolon_extend h hc]
    rfl
  · rw [advance_extend h.rest_ne_nil, wholeExpression_extend _ (h.advance hc)]
    apply andThen_extend (orderly_wholeExpression _) (h.advance hc)
    intro value d hd hdc
    rw [overSemicolon_extend hd hdc]
    rfl

theorem expressionStatement_extend {c : Cursor} (h : c.Fenced) :
    (c.extend tail finish).expressionStatement = c.expressionStatement.extend tail finish := by
  rw [expressionStatement, expressionStatement, wholeExpression_extend c h,
    current_extend h.rest_ne_nil]
  apply andThen_extend (orderly_wholeExpression c) h
  intro value d hd hdc
  rw [overSemicolon_extend hd hdc]
  rfl

/-- A statement is read without a look past the next end of a statement. -/
theorem statement_extend {c : Cursor} (h : c.Fenced) :
    (c.extend tail finish).statement = c.statement.extend tail finish := by
  simp only [statement, current_extend h.rest_ne_nil]
  split
  · rename_i hk
    rw [letBinding_extend h (not_ends_of_kind hk (by decide))]
    rfl
  · rename_i hk
    rw [returnValue_extend h (not_ends_of_kind hk (by decide))]
    rfl
  · rfl
  · rw [expressionStatement_extend h]
    rfl

end Cursor

def Segment.extend (segment : Segment) (tail : List Lexeme) (finish : Location) : Segment :=
  { segment with next := segment.next.extend tail finish }

namespace Cursor

variable {tail : List Lexeme} {finish : Location}

theorem segment_extend {c : Cursor} (h : c.Fenced) :
    (c.extend tail finish).segment = c.segment.extend tail finish := by
  have hf : c.statement.cursor.Fenced := (confined_statement c).within.fenced h
  have hadvance := advance_extend hf.rest_ne_nil tail finish
  have hrecover : (c.statement.cursor.extend tail finish).recover.advance =
      c.statement.cursor.recover.advance.extend tail finish := by
    rw [recover_extend hf, advance_extend ((Within.recover _).fenced hf).rest_ne_nil]
  simp only [segment, statement_extend h, Outcome.extend, Outcome.diagnostics]
  split
  · exact congrArg (Segment.mk _ _) hadvance
  · exact congrArg (Segment.mk _ _) hrecover

structure Closed (lexemes : List Lexeme) : Prop where
  endless : ∀ lexeme ∈ lexemes, lexeme.isEof = false
  last : ∀ lexeme, lexemes.getLast? = some lexeme → lexeme.kind = .semicolon

theorem Closed.of_suffix {lexemes rest : List Lexeme} (h : Closed lexemes) (hs : rest <:+ lexemes) :
    Closed rest := by
  obtain ⟨front, rfl⟩ := hs
  refine ⟨fun lexeme hm => h.endless lexeme (List.mem_append_right front hm), ?_⟩
  intro lexeme hl
  apply h.last
  rw [List.getLast?_append, hl]
  rfl

theorem Closed.fenced {c : Cursor} (h : Closed c.rest) (hne : c.rest ≠ []) : c.Fenced := by
  refine ⟨c.rest.getLast hne, List.getLast_mem hne, ?_⟩
  have hk := h.last _ (List.getLast?_eq_some_getLast hne)
  simp [endsStatement, hk]

theorem Closed.current {c : Cursor} (h : Closed c.rest) (hne : c.rest ≠ []) :
    c.current.isEof = false := by
  obtain ⟨rest, finish⟩ := c
  cases rest with
  | nil => exact absurd rfl hne
  | cons lexeme rest => exact h.endless lexeme (List.mem_cons_self)

theorem segments_extend (c : Cursor) (h : Closed c.rest) (tail : List Lexeme)
    (finish : Location) :
    (c.extend tail finish).segments =
      c.segments.map (fun segment => segment.extend tail finish) ++
        (Cursor.mk tail finish).segments := by
  induction hn : c.rest.length using Nat.strongRecOn generalizing c with
  | ind n ih =>
    by_cases hne : c.rest = []
    · have hc : c.current.isEof = true := by simp [current, hne, Lexeme.isEof]
      rw [segments_of_eof hc, extend, hne]
      rfl
    · have hc := h.current hne
      have hc' : (c.extend tail finish).current.isEof = false := by rwa [current_extend hne]
      obtain ⟨d, hd, hnext⟩ := reaches_segment c
      have hs : c.segment.next.rest <:+ c.rest := by
        rw [hnext]
        exact (hd.trans (.advance d)).rest
      have hlt : c.segment.next.rest.length < n := hn ▸ segment_length_lt hc
      rw [segments_of_not_eof hc', segment_extend (h.fenced hne), segments_of_not_eof hc,
        List.map_cons, List.cons_append]
      exact congrArg _ (ih _ hlt _ (h.of_suffix hs) rfl)

end Cursor

theorem Segment.filterMap_statement_extend (segments : List Segment) (tail : List Lexeme)
    (finish : Location) :
    (segments.map fun segment => segment.extend tail finish).filterMap Segment.statement =
      segments.filterMap Segment.statement := by
  rw [List.filterMap_map]
  rfl

theorem Segment.flatMap_diagnostics_extend (segments : List Segment) (tail : List Lexeme)
    (finish : Location) :
    (segments.map fun segment => segment.extend tail finish).flatMap Segment.diagnostics =
      segments.flatMap Segment.diagnostics := by
  rw [List.flatMap_map]
  rfl

theorem Cursor.segments_ofLexemes_append (front back : List Lexeme) :
    (Cursor.mk back (ofLexemes (front ++ back)).finish).segments = (ofLexemes back).segments := by
  cases back with
  | nil => rw [segments_of_eof rfl, segments_of_eof rfl]
  | cons lexeme back =>
    have hfinish : (ofLexemes (front ++ lexeme :: back)).finish =
        (ofLexemes (lexeme :: back)).finish := by
      simp [ofLexemes, List.getLast?_append, List.getLast?_cons]
    rw [hfinish]
    rfl

/-- A semicolon parts a run: what stands on one side of it changes neither the statements nor the
diagnostics of the other side. -/
theorem Parser.read_append_semicolon (front : List Lexeme) (semicolon : Lexeme)
    (back : List Lexeme) (hf : ∀ lexeme ∈ front, lexeme.isEof = false)
    (hs : semicolon.kind = .semicolon) :
    let whole := (Parser.ofLexemes (front ++ [semicolon] ++ back)).read
    let left := (Parser.ofLexemes (front ++ [semicolon])).read
    let right := (Parser.ofLexemes back).read
    whole.1.statements = left.1.statements ++ right.1.statements ∧
      whole.2.diagnostics = left.2.diagnostics ++ right.2.diagnostics := by
  have hclosed : Cursor.Closed (front ++ [semicolon]) := by
    constructor
    · intro lexeme hm
      obtain hm | hm := List.mem_append.mp hm
      · exact hf lexeme hm
      · rw [List.mem_singleton.mp hm, Lexeme.isEof, hs]
        rfl
    · intro lexeme hl
      rw [List.getLast?_concat, Option.some.injEq] at hl
      rwa [← hl]
  have hwhole : (Cursor.ofLexemes (front ++ [semicolon] ++ back)).segments = _ :=
    Cursor.segments_extend (Cursor.ofLexemes (front ++ [semicolon])) hclosed back
      (Cursor.ofLexemes (front ++ [semicolon] ++ back)).finish
  rw [Cursor.segments_ofLexemes_append] at hwhole
  constructor
  · simp only [read, ofLexemes, hwhole, List.filterMap_append,
      Segment.filterMap_statement_extend]
  · simp only [diagnostics_read, hwhole, List.flatMap_append,
      Segment.flatMap_diagnostics_extend]

theorem Parser.read_append_semicolon_stray_sign :
    let front : List Lexeme := [⟨⟨1, 1⟩, ⟨.letKeyword, .text "let"⟩⟩,
      ⟨⟨1, 5⟩, ⟨.assign, .text "="⟩⟩]
    let semicolon : Lexeme := ⟨⟨1, 6⟩, ⟨.semicolon, .text ";"⟩⟩
    let back : List Lexeme := [⟨⟨1, 8⟩, ⟨.identifier, .text "x"⟩⟩, ⟨⟨1, 9⟩, .eof⟩,
      ⟨⟨1, 9⟩, ⟨.rparen, .text ")"⟩⟩]
    (∀ lexeme ∈ front, lexeme.isEof = false) ∧ semicolon.kind = .semicolon ∧
      (Parser.ofLexemes (front ++ [semicolon] ++ back)).read.1.statements =
        (Parser.ofLexemes (front ++ [semicolon])).read.1.statements ++
          (Parser.ofLexemes back).read.1.statements :=
  ⟨by decide, rfl, (Parser.read_append_semicolon _ _ _ (by decide) rfl).1⟩

end MonkeyFrontend
