import Mathlib.Logic.Function.Iterate
import MonkeyFrontend.Proofs.Parsing.Locality

namespace MonkeyFrontend

/-- No reading can tell two such lexemes apart. Ends of input at one place may carry what they
will. -/
structure Lexeme.Alike (first second : Lexeme) : Prop where
  kind : first.kind = second.kind
  location : first.location = second.location
  token : first.isEof = false → first.token = second.token

namespace Lexeme.Alike

variable {first second : Lexeme}

theorem refl (lexeme : Lexeme) : lexeme.Alike lexeme := ⟨rfl, rfl, fun _ => rfl⟩

theorem isEof_eq (h : first.Alike second) : first.isEof = second.isEof := by
  rw [isEof, isEof, h.kind]

theorem ends_eq (h : first.Alike second) :
    Cursor.endsStatement first = Cursor.endsStatement second := by
  rw [Cursor.endsStatement, Cursor.endsStatement, h.kind]

theorem describe_eq (h : first.Alike second) : first.token.describe = second.token.describe := by
  cases he : first.isEof with
  | false => rw [h.token he]
  | true =>
    have hfirst : first.token.kind = .eof := of_decide_eq_true he
    have hsecond : second.token.kind = .eof := h.kind.symm.trans hfirst
    rw [Token.describe_of_eof hfirst, Token.describe_of_eof hsecond]

end Lexeme.Alike

/-- The lexemes at related cursors are alike, and a step over one that ends no statement leads to
related cursors again. -/
structure Cursor.Simulation (R : Cursor → Cursor → Prop) : Prop where
  current : ∀ {c d : Cursor}, R c d → c.current.Alike d.current
  advance : ∀ {c d : Cursor}, R c d → endsStatement c.current = false → R c.advance d.advance

namespace Outcome

variable {α β : Type}

structure Matches (R : Cursor → Cursor → Prop) (o p : Outcome α) : Prop where
  value : o.value = p.value
  events : o.events = p.events
  cursor : R o.cursor p.cursor

namespace Matches

variable {R : Cursor → Cursor → Prop} {o p : Outcome α} {c d : Cursor}

theorem done (a : α) (h : R c d) : Matches R (done a c) (done a d) := ⟨rfl, rfl, h⟩

theorem fail (diagnostic : Diagnostic) (h : R c d) :
    Matches R (fail diagnostic c : Outcome α) (fail diagnostic d) :=
  ⟨rfl, rfl, h⟩

theorem after (event : Event) (h : Matches R o p) : Matches R (after event o) (after event p) :=
  ⟨h.value, congrArg (event :: ·) h.events, h.cursor⟩

theorem diagnostics (h : Matches R o p) : o.diagnostics = p.diagnostics :=
  congrArg Event.diagnostics h.events

theorem andThen {next next' : α → Cursor → Outcome β} (ho : Orderly c o) (h : Matches R o p)
    (hn : ∀ (a : α) (e f : Cursor), R e f → Cursor.endsStatement e.current = false →
      Matches R (next a e) (next' a f)) : Matches R (o.andThen next) (p.andThen next') := by
  cases hv : o.value with
  | none =>
    rw [andThen_of_none hv, andThen_of_none (h.value ▸ hv)]
    exact ⟨rfl, h.events, h.cursor⟩
  | some a =>
    have hnext := hn a o.cursor p.cursor h.cursor (ho.inside (by simp [hv]))
    rw [andThen_of_some hv, andThen_of_some (h.value ▸ hv)]
    refine ⟨hnext.value, ?_, hnext.cursor⟩
    simp only [h.events, hnext.events]

end Matches

end Outcome

namespace Cursor

open Outcome

namespace Simulation

variable {R : Cursor → Cursor → Prop} {c d : Cursor}

theorem peek (hR : Simulation R) (h : R c d) (hc : endsStatement c.current = false) :
    c.peek.Alike d.peek :=
  hR.current (hR.advance h hc)

theorem token (hR : Simulation R) (h : R c d) (hc : c.current.isEof = false) :
    c.current.token = d.current.token :=
  (hR.current h).token hc

theorem overSemicolon (hR : Simulation R) (h : R c d) (hc : endsStatement c.current = false) :
    R c.overSemicolon d.overSemicolon := by
  rw [Cursor.overSemicolon, Cursor.overSemicolon, (hR.peek h hc).kind]
  split
  · exact hR.advance h hc
  · exact h

theorem expect (hR : Simulation R) (h : R c d) (hc : endsStatement c.current = false)
    {kind : TokenKind} (hk : kind ≠ .eof) : Matches R (c.expect kind) (d.expect kind) := by
  have hpeek := hR.peek h hc
  rw [Cursor.expect, Cursor.expect, ← hpeek.kind, ← hpeek.location, ← hpeek.describe_eq]
  split
  · rename_i hwanted
    rw [hpeek.token (decide_eq_false (hwanted ▸ hk))]
    exact .done _ (hR.advance h hc)
  · exact .fail _ h

theorem integer (hR : Simulation R) (h : R c d) (hc : c.current.isEof = false) :
    Matches R c.integer d.integer := by
  simp only [Cursor.integer, ← hR.token h hc, ← (hR.current h).location]
  split
  · exact .done _ h
  · exact .after _ (.done _ h)

theorem operand (hR : Simulation R) {inner : Precedence → Cursor → Outcome Expression}
    (ho : ∀ (bound : Precedence) (c : Cursor), Orderly c (inner bound c))
    (hi : ∀ (bound : Precedence) (c d : Cursor), R c d → Matches R (inner bound c) (inner bound d))
    (h : R c d) : Matches R (operand inner c) (operand inner d) := by
  have hcurrent := hR.current h
  have hinner (bound : Precedence) (hc : endsStatement c.current = false) :
      Matches R (inner bound c.advance) (inner bound d.advance) :=
    hi bound c.advance d.advance (hR.advance h hc)
  cases he : c.current.isEof with
  | true =>
    have hk : c.current.token.kind = .eof := of_decide_eq_true he
    have hk' : d.current.token.kind = .eof := hcurrent.kind.symm.trans hk
    simp only [Cursor.operand, hk, hk', hcurrent.location, hcurrent.describe_eq]
    exact .fail _ h
  | false =>
    simp only [Cursor.operand, ← hR.token h he, ← hcurrent.location]
    split
    · exact .done _ h
    · exact hR.integer h he
    · exact .done _ h
    · exact .done _ h
    · rename_i hk
      apply (hinner .unary (not_ends_of_kind hk (by decide))).andThen (ho .unary c.advance)
      exact fun right e f hef _ => .done _ hef
    · rename_i hk
      apply (hinner .unary (not_ends_of_kind hk (by decide))).andThen (ho .unary c.advance)
      exact fun right e f hef _ => .done _ hef
    · rename_i hk
      apply (hinner .lowest (not_ends_of_kind hk (by decide))).andThen (ho .lowest c.advance)
      intro e f g hfg hf
      apply (hR.expect hfg hf (by decide)).andThen (orderly_expect hf (by decide))
      exact fun _ f g hfg _ => .done e hfg
    · exact .fail _ h

theorem expression_climb (hR : Simulation R) (n : Nat) :
    (∀ (bound : Precedence) (c d : Cursor), R c d →
      Matches R (expression bound n c) (expression bound n d)) ∧
    ∀ (bound : Precedence) (left : Expression) (c d : Cursor), R c d →
      endsStatement c.current = false →
      Matches R (climb bound n left c) (climb bound n left d) := by
  induction n with
  | zero =>
    constructor
    · intro bound c d h
      have hcurrent := hR.current h
      rw [expression, expression, tooDeep, tooDeep, hcurrent.kind, hcurrent.location]
      exact .after _ (.fail _ h)
    · intro bound left c d h hc
      have hadvance := hR.advance h hc
      rw [climb, climb, ← (hR.peek h hc).kind]
      split
      · rw [tooDeep, tooDeep, (hR.current hadvance).location]
        exact .fail _ hadvance
      · exact .done left h
  | succ n ih =>
    obtain ⟨hexpression, hclimb⟩ := ih
    have horderly := (orderly_expression_climb n).1
    constructor
    · intro bound c d h
      rw [expression, expression, (hR.current h).kind]
      apply Matches.after
      exact (hR.operand horderly hexpression h).andThen (orderly_operand horderly c)
        fun left e f hef he => hclimb bound left e f hef he
    · intro bound left c d h hc
      have hpeek := hR.peek h hc
      by_cases hlt : bound < c.peek.kind.precedence
      · have hoperator : endsStatement c.advance.current = false := not_ends_of_lt hlt
        have hadvance := hR.advance (hR.advance h hc) hoperator
        rw [climb_succ_of_lt hlt, climb_succ_of_lt (hpeek.kind ▸ hlt), ← hpeek.kind,
          ← hpeek.token (isEof_of_not_ends hoperator)]
        apply (hexpression c.peek.kind.precedence _ _ hadvance).andThen (horderly _ _)
        exact fun right e f hef he => hclimb bound _ e f hef he
      · rw [climb_of_not_lt hlt, climb_of_not_lt (hpeek.kind ▸ hlt)]
        exact .done left h

theorem wholeExpression (hR : Simulation R) (h : R c d) :
    Matches R c.wholeExpression d.wholeExpression :=
  (hR.expression_climb levelLimit).1 .lowest c d h

theorem value (hR : Simulation R) (make : Expression → Statement) (h : R c d) :
    Matches R (c.wholeExpression.andThen fun value e => .done (make value) e.overSemicolon)
      (d.wholeExpression.andThen fun value e => .done (make value) e.overSemicolon) := by
  apply (hR.wholeExpression h).andThen (orderly_wholeExpression c)
  exact fun value e f hef he => .done _ (hR.overSemicolon hef he)

theorem letBinding (hR : Simulation R) (h : R c d) (hc : endsStatement c.current = false) :
    Matches R c.letBinding d.letBinding := by
  rw [Cursor.letBinding, Cursor.letBinding, hR.token h (isEof_of_not_ends hc)]
  apply (hR.expect h hc (by decide)).andThen (orderly_expect hc (by decide))
  intro name e f hef he
  apply (hR.expect hef he (by decide)).andThen (orderly_expect he (by decide))
  exact fun _ e f hef he => hR.value _ (hR.advance hef he)

theorem returnValue (hR : Simulation R) (h : R c d) (hc : endsStatement c.current = false) :
    Matches R c.returnValue d.returnValue := by
  rw [Cursor.returnValue, Cursor.returnValue, hR.token h (isEof_of_not_ends hc),
    (hR.peek h hc).ends_eq]
  split
  · exact .done _ (hR.overSemicolon h hc)
  · exact hR.value _ (hR.advance h hc)

theorem statement (hR : Simulation R) (h : R c d) (hc : c.current.isEof = false) :
    Matches R c.statement d.statement := by
  rw [Cursor.statement, Cursor.statement, ← (hR.current h).kind]
  apply Matches.after
  split
  · rename_i hk
    exact hR.letBinding h (not_ends_of_kind hk (by decide))
  · rename_i hk
    exact hR.returnValue h (not_ends_of_kind hk (by decide))
  · rw [hR.token h hc]
    exact .done _ h
  · rw [expressionStatement, expressionStatement, hR.token h hc]
    exact hR.value _ h

end Simulation

/-- Where one cursor runs out of lexemes, the other comes to an end of input, at the place where the
first takes its own to be. More may follow there. -/
structure Sealed (eof : Lexeme) (more : List Lexeme) (c d : Cursor) : Prop where
  finish : c.finish = eof.location
  extended : ∃ finish, d = c.extend (eof :: more) finish

namespace Sealed

variable {eof : Lexeme} {more : List Lexeme} {c d : Cursor}

theorem current (heof : eof.isEof = true) (h : Sealed eof more c d) :
    c.current.Alike d.current := by
  obtain ⟨hfinish, finish, rfl⟩ := h
  have hk : eof.kind = .eof := of_decide_eq_true heof
  by_cases hne : c.rest = []
  · have hc : c.current = .finish eof.location := by simp [Cursor.current, hne, hfinish]
    have hd : (c.extend (eof :: more) finish).current = eof := by
      simp [Cursor.current, Cursor.extend, hne]
    rw [hc, hd]
    exact ⟨hk.symm, rfl, fun he => by cases he⟩
  · rw [current_extend hne]
    exact .refl _

theorem advance (h : Sealed eof more c d) (hne : c.rest ≠ []) :
    Sealed eof more c.advance d.advance := by
  obtain ⟨hfinish, finish, rfl⟩ := h
  exact ⟨hfinish, finish, advance_extend hne _ _⟩

theorem simulation (heof : eof.isEof = true) (more : List Lexeme) :
    Simulation (Sealed eof more) := by
  constructor
  · intro c d h
    exact h.current heof
  · intro c d h hc
    exact h.advance (rest_ne_nil_of_not_eof (isEof_of_not_ends hc))

theorem recover (heof : eof.isEof = true) (h : Sealed eof more c d) :
    Sealed eof more c.recover d.recover := by
  obtain ⟨hfinish, finish, rfl⟩ := h
  have hk : eof.kind = .eof := of_decide_eq_true heof
  have hstop : (eof :: more).dropWhile (fun lexeme => !endsStatement lexeme) = eof :: more := by
    simp [endsStatement, hk]
  refine ⟨hfinish, finish, ?_⟩
  simp only [Cursor.recover, Cursor.extend, List.dropWhile_append, hstop]
  split
  · rename_i hempty
    rw [List.isEmpty_iff.mp hempty]
    rfl
  · rfl

end Sealed

/-- Cursors from which the same statements are still to come: one is sealed, or both are at the end
of input. -/
def Abreast (eof : Lexeme) (more : List Lexeme) (c d : Cursor) : Prop :=
  Sealed eof more c d ∨ c.current.isEof = true ∧ d.current.isEof = true

end Cursor

def Segment.contents (segment : Segment) : Option Statement × List Event :=
  (segment.statement, segment.events)

namespace Cursor

variable {eof : Lexeme} {more : List Lexeme} {c d : Cursor}

theorem Abreast.isEof_eq (heof : eof.isEof = true) (h : Abreast eof more c d) :
    c.current.isEof = d.current.isEof := by
  obtain h | ⟨hc, hd⟩ := h
  · exact (h.current heof).isEof_eq
  · rw [hc, hd]

theorem isEof_of_rest_eq_nil (h : c.rest = []) : c.current.isEof = true := by
  simp [current, h, Lexeme.isEof]

/-- A step over the seal leads to the end of input again. -/
theorem Sealed.abreast_advance (hmore : ∀ lexeme ∈ more, lexeme.isEof = true)
    (h : Sealed eof more c d) : Abreast eof more c.advance d.advance := by
  by_cases hne : c.rest = []
  · obtain ⟨-, finish, rfl⟩ := h
    refine .inr ⟨isEof_of_rest_eq_nil (by simp [Cursor.advance, hne]), ?_⟩
    have hrest : (c.extend (eof :: more) finish).advance.rest = more := by
      simp [Cursor.advance, extend, hne]
    cases more with
    | nil => exact isEof_of_rest_eq_nil hrest
    | cons lexeme more =>
      rw [Cursor.current, hrest]
      exact hmore lexeme List.mem_cons_self
  · exact .inl (h.advance hne)

theorem Sealed.segment (heof : eof.isEof = true) (hmore : ∀ lexeme ∈ more, lexeme.isEof = true)
    (h : Sealed eof more c d) (hc : c.current.isEof = false) :
    c.segment.contents = d.segment.contents ∧ Abreast eof more c.segment.next d.segment.next := by
  have hstatement := (Sealed.simulation heof more).statement h hc
  obtain ⟨s, hs, hd⟩ | hdropped := c.kept_or_dropped
  · rw [segment_of_kept hs hd,
      segment_of_kept (hstatement.value ▸ hs) (hstatement.diagnostics ▸ hd)]
    exact ⟨congrArg (Prod.mk _) hstatement.events, hstatement.cursor.abreast_advance hmore⟩
  · have hdropped' := hdropped
    rw [hstatement.value, hstatement.diagnostics] at hdropped'
    rw [segment_of_dropped hdropped, segment_of_dropped hdropped']
    refine ⟨congrArg (Prod.mk _) ?_, (hstatement.cursor.recover heof).abreast_advance hmore⟩
    rw [hstatement.events, hstatement.diagnostics]

theorem Abreast.segments (heof : eof.isEof = true) (hmore : ∀ lexeme ∈ more, lexeme.isEof = true)
    (h : Abreast eof more c d) :
    c.segments.map Segment.contents = d.segments.map Segment.contents := by
  induction hn : c.rest.length using Nat.strongRecOn generalizing c d with
  | ind n ih =>
    have hisEof := h.isEof_eq heof
    cases hc : c.current.isEof with
    | true => rw [segments_of_eof hc, segments_of_eof (hisEof ▸ hc)]
    | false =>
      obtain h | ⟨hc', -⟩ := h
      · obtain ⟨hcontents, hnext⟩ := h.segment heof hmore hc
        have hd : d.current.isEof = false := hisEof ▸ hc
        rw [segments_of_not_eof hc, segments_of_not_eof hd, List.map_cons, List.map_cons,
          hcontents, ih _ (hn ▸ segment_length_lt hc) hnext rfl]
      · rw [hc] at hc'
        cases hc'

theorem isEof_last (c : Cursor) :
    ((c.segments.getLast?.map Segment.next).getD c).current.isEof = true := by
  induction hn : c.rest.length using Nat.strongRecOn generalizing c with
  | ind n ih =>
    cases hc : c.current.isEof with
    | true =>
      rw [segments_of_eof hc]
      exact hc
    | false =>
      have hlast := ih _ (hn ▸ segment_length_lt hc) c.segment.next rfl
      rw [segments_of_not_eof hc, List.getLast?_cons]
      cases hl : c.segment.next.segments.getLast? with
      | none =>
        rw [hl] at hlast
        exact hlast
      | some last =>
        rw [hl] at hlast
        exact hlast

end Cursor

namespace Parser

theorem read_eq_of_contents {p q : Parser} (hlog : p.log = q.log)
    (h : p.cursor.segments.map Segment.contents = q.cursor.segments.map Segment.contents) :
    p.read.1 = q.read.1 ∧ p.read.2.log = q.read.2.log := by
  have hstatements (segments : List Segment) : segments.filterMap Segment.statement =
      (segments.map Segment.contents).filterMap Prod.fst := by
    rw [List.filterMap_map]
    rfl
  have hevents (segments : List Segment) : segments.flatMap Segment.events =
      (segments.map Segment.contents).flatMap Prod.snd := by
    rw [List.flatMap_map]
    rfl
  simp only [read, hstatements, hevents, h, hlog, and_self]

theorem read_of_eof {parser : Parser} (h : parser.cursor.current.isEof = true) :
    parser.read = (.empty, parser) := by
  simp [read, Cursor.segments_of_eof h, Program.empty]

theorem isEof_read (parser : Parser) : parser.read.2.cursor.current.isEof = true :=
  Cursor.isEof_last parser.cursor

theorem iterate_read (parser : Parser) (n : Nat) :
    (fun parser : Parser => parser.read.2)^[n + 1] parser = parser.read.2 := by
  rw [Function.iterate_succ_apply]
  apply Function.iterate_fixed
  rw [read_of_eof (isEof_read parser)]

/-- If the lexemes do not come to an end of input, it makes no difference to put one behind them, at
the place of the last, and others behind that. This is so however often the reader is asked. -/
theorem read_sealed (lexemes : List Lexeme) (hne : lexemes ≠ []) (literal : Literal)
    (more : List Lexeme) (hmore : ∀ lexeme ∈ more, lexeme.isEof = true) (calls : Nat) :
    let eof : Lexeme := ⟨(lexemes.getLast hne).location, ⟨.eof, literal⟩⟩
    let asked := (fun parser : Parser => parser.read.2)^[calls]
    let p := asked (ofLexemes lexemes)
    let q := asked (ofLexemes (lexemes ++ [eof] ++ more))
    p.read.1 = q.read.1 ∧ p.read.2.diagnostics = q.read.2.diagnostics ∧
      p.read.2.log = q.read.2.log := by
  intro eof asked p q
  have hsealed : Cursor.Sealed eof more (.ofLexemes lexemes)
      (.ofLexemes (lexemes ++ [eof] ++ more)) := by
    constructor
    · simp [Cursor.ofLexemes, List.getLast?_eq_some_getLast hne, eof]
    · rw [List.append_assoc]
      exact ⟨_, rfl⟩
  obtain ⟨hprogram, hlog⟩ := read_eq_of_contents (p := ofLexemes lexemes)
    (q := ofLexemes (lexemes ++ [eof] ++ more)) rfl
    (Cursor.Abreast.segments rfl hmore (.inl hsealed))
  have hread : p.read.1 = q.read.1 ∧ p.read.2.log = q.read.2.log := by
    cases calls with
    | zero => exact ⟨hprogram, hlog⟩
    | succ calls =>
      -- a second reading has nothing left to read
      have hp : p = _ := iterate_read (ofLexemes lexemes) calls
      have hq : q = _ := iterate_read (ofLexemes (lexemes ++ [eof] ++ more)) calls
      rw [hp, hq, read_of_eof (isEof_read _), read_of_eof (isEof_read _)]
      exact ⟨rfl, hlog⟩
  exact ⟨hread.1, congrArg Event.diagnostics hread.2, hread.2⟩

theorem read_sealed_broken_sum :
    let lexemes : List Lexeme := [⟨⟨1, 1⟩, ⟨.identifier, .text "a"⟩⟩, ⟨⟨1, 3⟩, ⟨.plus, .text "+"⟩⟩]
    let ends : List Lexeme := [⟨⟨1, 3⟩, ⟨.eof, .text "x"⟩⟩, ⟨⟨7, 9⟩, ⟨.eof, .number 5⟩⟩]
    let p := ofLexemes lexemes
    let q := ofLexemes (lexemes ++ ends)
    p.read.2.diagnostics = [⟨⟨1, 3⟩, .unexpectedToken "end of input"⟩] ∧
      p.read.1 = q.read.1 ∧ p.read.2.diagnostics = q.read.2.diagnostics := by
  intro lexemes ends p q
  have hd : p.read.2.diagnostics = [⟨⟨1, 3⟩, .unexpectedToken "end of input"⟩] := by
    decide +kernel
  obtain ⟨hprogram, hdiagnostics, -⟩ := read_sealed lexemes (by decide) (.text "x")
    [⟨⟨7, 9⟩, ⟨.eof, .number 5⟩⟩] (by decide) 0
  exact ⟨hd, hprogram, hdiagnostics⟩

end Parser

end MonkeyFrontend
