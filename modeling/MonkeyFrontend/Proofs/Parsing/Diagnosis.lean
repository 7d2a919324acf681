import MonkeyFrontend.Parsing.Program
import MonkeyFrontend.Proofs.Parsing.Lookahead
import MonkeyFrontend.Proofs.Parsing.Mending

namespace MonkeyFrontend

def Lexeme.isInteger (lexeme : Lexeme) : Bool := lexeme.kind = .integer

def numerals (lexemes : List Lexeme) : List Token :=
  (lexemes.filter Lexeme.isInteger).map Lexeme.token

def Expression.numerals : Expression → List Token
  | identifier _ => []
  | integer token _ => [token]
  | boolean _ _ => []
  | unary _ _ right => right.numerals
  | unaryOpen _ _ => []
  | binary _ _ left right => left.numerals ++ right.numerals
  | binaryOpen _ _ left => left.numerals

def Statement.numerals (s : Statement) : List Token := s.value?.toList.flatMap Expression.numerals

theorem Statement.numerals_of_value {s : Statement} {e : Expression} (h : s.value? = some e) :
    s.numerals = e.numerals := by
  simp [numerals, h]

/-- Whether an event tells that an integer literal is made: one is made wherever an expression is
entered at an integer with a level left. -/
def Event.makesInteger : Event → Bool
  | expression kind _ depth => kind = .integer && depth < Cursor.levelLimit
  | _ => false

/-- Whether a diagnostic is about the lexeme after the one on which the reading gave up. -/
def Reason.isAhead : Reason → Bool
  | expected _ _ => true
  | _ => false

inductive Lexeme.Refused (lexeme : Lexeme) : Diagnostic → Prop where
  | expected (kind : TokenKind) :
      Refused lexeme ⟨lexeme.location, .expected kind lexeme.token.describe⟩
  | unexpectedToken : Refused lexeme ⟨lexeme.location, .unexpectedToken lexeme.token.describe⟩
  | tooDeep : Refused lexeme ⟨lexeme.location, .tooDeep⟩

/-- The place of the first lexeme that a reading has not taken up. It comes after the lexeme on
which the reading ended, unless the reading gave up at that one itself. -/
def Cursor.beyond (c : Cursor) : Option Diagnostic → Cursor
  | none => c.advance
  | some diagnostic => if diagnostic.reason.isAhead then c.advance else c

theorem numerals_append (front rest : List Lexeme) :
    numerals (front ++ rest) = numerals front ++ numerals rest := by
  simp [numerals]

theorem numerals_cons_of_not {lexeme : Lexeme} (h : lexeme.isInteger = false)
    (rest : List Lexeme) : numerals (lexeme :: rest) = numerals rest := by
  simp [numerals, h]

namespace Outcome

variable {α β : Type}

/-- A reading took up some of the lexemes ahead. It made a literal of each integer among them and
complained of each that cannot be read, in order. If it gave up, this was at the lexeme after
those, for a last reason of another kind. -/
structure TakesUp (o : Outcome α) (ahead taken : List Lexeme) (fatal : Option Diagnostic) :
    Prop where
  ahead : ahead = taken ++ (o.cursor.beyond fatal).rest
  literals : o.events.countP Event.makesInteger = taken.countP Lexeme.isInteger
  diagnostics : o.diagnostics = complaints taken ++ fatal.toList
  value : o.value = none ↔ fatal.isSome
  refused : ∀ diagnostic ∈ fatal, (o.cursor.beyond fatal).current.Refused diagnostic
  inside : ∀ diagnostic ∈ fatal, diagnostic.reason.isAhead = true →
    Cursor.endsStatement o.cursor.current = false

/-- A reading takes up lexemes, and a value that it comes to has a literal for each integer among
them, after the literals that were there before. -/
def Concludes (o : Outcome α) (ahead : List Lexeme) (before : List Token)
    (literals : α → List Token) : Prop :=
  ∃ taken fatal, o.TakesUp ahead taken fatal ∧
    ∀ a, o.value = some a → literals a = before ++ numerals taken

namespace Concludes

variable {o : Outcome α} {ahead : List Lexeme} {before : List Token} {literals : α → List Token}
  {literals' : β → List Token} {next : α → Cursor → Outcome β} {c : Cursor}

theorem done (a : α) (c : Cursor) (literals : α → List Token) :
    (done a c).Concludes c.advance.rest (literals a) literals := by
  refine ⟨[], none, ⟨rfl, rfl, rfl, by simp [Outcome.done], by simp, by simp⟩, fun b hb => ?_⟩
  rw [← Option.some.inj hb]
  exact (List.append_nil _).symm

theorem refuse {diagnostic : Diagnostic} (ha : diagnostic.reason.isAhead = false)
    (hr : c.current.Refused diagnostic) :
    (fail diagnostic c : Outcome α).Concludes c.rest before literals := by
  have hbeyond : c.beyond (some diagnostic) = c := by simp [Cursor.beyond, ha]
  refine ⟨[], some diagnostic, ⟨?_, rfl, rfl, by simp [fail], ?_, ?_⟩, fun a hv => by cases hv⟩
  · exact congrArg Cursor.rest hbeyond.symm
  · intro other ho
    rw [← Option.some.inj ho]
    exact hbeyond.symm ▸ hr
  · intro other ho hahead
    rw [← Option.some.inj ho, ha] at hahead
    cases hahead

theorem after {event : Event} (hd : event.diagnostic? = none) (hm : event.makesInteger = false)
    (h : o.Concludes ahead before literals) : (after event o).Concludes ahead before literals := by
  obtain ⟨taken, fatal, ht, hliterals⟩ := h
  have hdiagnostics : (Outcome.after event o).diagnostics = o.diagnostics := by
    simp [diagnostics_after, hd]
  have hcount : (Outcome.after event o).events.countP Event.makesInteger =
      o.events.countP Event.makesInteger := List.countP_cons_of_neg (by simp [hm])
  exact ⟨taken, fatal, ⟨ht.ahead, hcount.trans ht.literals, hdiagnostics.trans ht.diagnostics,
    ht.value, ht.refused, ht.inside⟩, hliterals⟩

theorem behind (h : o.Concludes ahead [] literals) (before : List Token) :
    o.Concludes ahead before fun a => before ++ literals a := by
  obtain ⟨taken, fatal, ht, hliterals⟩ := h
  exact ⟨taken, fatal, ht, fun a hv => congrArg (before ++ ·) (hliterals a hv)⟩

theorem step {kind : TokenKind} (hc : c.current.kind = kind) (hk : kind ∉ [.integer, .eof])
    (h : o.Concludes c.advance.rest before literals) : o.Concludes c.rest before literals := by
  simp only [List.mem_cons, List.not_mem_nil, or_false, not_or] at hk
  obtain ⟨taken, fatal, ht, hliterals⟩ := h
  have hne : c.current.kind ≠ .integer := hc ▸ hk.1
  have hi : c.current.isInteger = false := decide_eq_false hne
  refine ⟨c.current :: taken, fatal, ⟨?_, ?_, ?_, ht.value, ht.refused, ht.inside⟩, ?_⟩
  · rw [Cursor.rest_eq_cons (Lexeme.isEof_of_kind hc hk.2), ht.ahead, List.cons_append]
  · rw [ht.literals, List.countP_cons_of_neg (by simp [hi])]
  · rw [ht.diagnostics, complaints_cons_of_readable (Lexeme.isUnreadable_of_kind hne)]
  · rwa [numerals_cons_of_not hi]

theorem andThen {d : Cursor} (ho : Orderly d o) (h : o.Concludes ahead before literals)
    (hn : ∀ (a : α) (e : Cursor), Cursor.endsStatement e.current = false →
      (next a e).Concludes e.advance.rest (literals a) literals') :
    (o.andThen next).Concludes ahead before literals' := by
  obtain ⟨taken, fatal, ht, hliterals⟩ := h
  cases hv : o.value with
  | none =>
    have hd := diagnostics_andThen_of_none hv next
    have hvalue : none = o.value ↔ fatal.isSome := eq_comm.trans ht.value
    rw [hv] at hvalue
    rw [andThen_of_none hv] at hd ⊢
    exact ⟨taken, fatal, ⟨ht.ahead, ht.literals, hd.trans ht.diagnostics, by simpa using hvalue,
      ht.refused, ht.inside⟩, fun b hb => by cases hb⟩
  | some a =>
    have hnone : fatal = none := by
      have hvalue := ht.value
      rw [hv] at hvalue
      simpa using hvalue
    subst hnone
    obtain ⟨more, fatal, hm, hliterals'⟩ := hn a o.cursor (ho.inside (by simp [hv]))
    have hd := diagnostics_andThen_of_some hv next
    rw [andThen_of_some hv] at hd ⊢
    refine ⟨taken ++ more, fatal, ⟨?_, ?_, ?_, hm.value, hm.refused, hm.inside⟩, fun b hb => ?_⟩
    · rw [ht.ahead, List.append_assoc]
      exact congrArg _ hm.ahead
    · rw [List.countP_append, List.countP_append, ht.literals, hm.literals]
    · rw [hd, ht.diagnostics, hm.diagnostics, complaints_append]
      simp
    · rw [hliterals' b hb, hliterals a hv, numerals_append, List.append_assoc]

end Concludes

theorem after_andThen (event : Event) (o : Outcome α) (next : α → Cursor → Outcome β) :
    (after event o).andThen next = after event (o.andThen next) := by
  cases hv : o.value with
  | none =>
    have hv' : (after event o).value = none := hv
    rw [andThen_of_none hv, andThen_of_none hv']
    rfl
  | some a =>
    have hv' : (after event o).value = some a := hv
    rw [andThen_of_some hv, andThen_of_some hv']
    rfl

end Outcome

namespace Cursor

open Outcome

variable {c : Cursor}

def Conclusive (read : Precedence → Cursor → Outcome Expression) : Prop :=
  ∀ (bound : Precedence) (c : Cursor), (read bound c).Concludes c.rest [] Expression.numerals

theorem concludes_expect {kind : TokenKind} (h : endsStatement c.current = false)
    (hk : kind ∉ [.integer, .eof]) (before : List Token) :
    (c.expect kind).Concludes c.advance.rest before fun _ => before := by
  rw [expect]
  split
  · rename_i hpeek
    exact .step hpeek hk (.done c.peek.token c.advance fun _ => before)
  · refine ⟨[], some ⟨c.peek.location, .expected kind c.peek.token.describe⟩,
      ⟨rfl, rfl, rfl, by simp [fail], ?_, fun _ _ _ => h⟩, fun a hv => by cases hv⟩
    intro diagnostic hd
    rw [← Option.some.inj hd]
    exact .expected kind

theorem integer_eq (c : Cursor) (hk : c.current.kind = .integer) :
    c.integer.value = some (.integer c.current.token c.current.token.literal.integer?) ∧
      c.integer.cursor = c ∧ c.integer.diagnostics = complaints [c.current] ∧
      c.integer.events.countP Event.makesInteger = 0 := by
  cases hv : c.current.token.literal.integer? with
  | some value =>
    have hreadable : c.current.isUnreadable = false := by simp [Lexeme.isUnreadable, hv]
    rw [integer_of_readable hv, complaints_cons_of_readable hreadable]
    exact ⟨rfl, rfl, rfl, rfl⟩
  | none =>
    have hunreadable := Lexeme.isUnreadable_iff.mpr ⟨hk, hv⟩
    simp only [integer, hv, complaints_cons_of_unreadable hunreadable]
    exact ⟨rfl, rfl, rfl, rfl⟩

theorem concludes_integer (hk : c.current.kind = .integer) (bound : Precedence) {depth : Nat}
    (hd : depth < levelLimit) :
    (after (.expression c.current.kind bound depth) c.integer).Concludes c.rest []
      Expression.numerals := by
  obtain ⟨hv, hcursor, hdiagnostics, hliterals⟩ := integer_eq c hk
  have hmakes : (Event.expression c.current.kind bound depth).makesInteger = true := by
    simp [Event.makesInteger, hk, hd]
  have hinteger : c.current.isInteger = true := decide_eq_true hk
  refine ⟨[c.current], none, ⟨?_, ?_, ?_, by simp [after, hv], by simp, by simp⟩, ?_⟩
  · simp only [after, hcursor]
    exact rest_eq_cons (Lexeme.isEof_of_kind hk (by decide))
  · simp [after, hmakes, hliterals, hinteger]
  · rw [diagnostics_after, hdiagnostics]
    exact (List.append_nil _).symm
  · intro e he
    rw [← Option.some.inj (hv.symm.trans he)]
    simp [Expression.numerals, numerals, hinteger]

/-- An operand is taken up from its first lexeme, where the expression that it belongs to is
entered. -/
theorem concludes_operand {inner : Precedence → Cursor → Outcome Expression}
    (ho : ∀ (bound : Precedence) (c : Cursor), Orderly c (inner bound c)) (hi : Conclusive inner)
    (c : Cursor) (bound : Precedence) {depth : Nat} (hd : depth < levelLimit) :
    (after (.expression c.current.kind bound depth) (operand inner c)).Concludes c.rest []
      Expression.numerals := by
  by_cases hinteger : c.current.kind = .integer
  · have hoperand : operand inner c = c.integer := by
      have hk : c.current.token.kind = .integer := hinteger
      simp only [operand, hk]
    rw [hoperand]
    exact concludes_integer hinteger bound hd
  · refine .after rfl (by simp [Event.makesInteger, hinteger]) ?_
    have hunary : ((inner .unary c.advance).andThen fun right d =>
        .done (.unary c.current.token c.current.token.literal.render right) d).Concludes
          c.advance.rest [] Expression.numerals :=
      (hi .unary c.advance).andThen (ho .unary c.advance) fun right d _ => .done _ d _
    unfold operand
    dsimp only
    split
    · rename_i hk
      exact .step hk (by decide) (.done _ c _)
    · rename_i hk
      exact absurd hk hinteger
    · rename_i hk
      exact .step hk (by decide) (.done _ c _)
    · rename_i hk
      exact .step hk (by decide) (.done _ c _)
    · rename_i hk
      exact .step hk (by decide) hunary
    · rename_i hk
      exact .step hk (by decide) hunary
    · rename_i hk
      refine .step hk (by decide) ((hi .lowest c.advance).andThen (ho .lowest c.advance) ?_)
      intro e d hinside
      have hclosing : Orderly d (d.expect .rparen) := orderly_expect hinside (by decide)
      exact (concludes_expect hinside (by decide) e.numerals).andThen hclosing
        fun _ d _ => .done e d _
    · exact .refuse rfl .unexpectedToken

theorem kind_not_mem_of_lt {bound : Precedence} {kind : TokenKind} (h : bound < kind.precedence) :
    kind ∉ [.integer, .eof] := by
  simp only [List.mem_cons, List.not_mem_nil, or_false]
  rintro (rfl | rfl)
  · exact Nat.not_lt_zero _ h
  · exact Nat.not_lt_zero _ h

theorem concludes_expression_climb (n : Nat) :
    Conclusive (fun bound => expression bound n) ∧
      ∀ (bound : Precedence) (left : Expression) (c : Cursor), endsStatement c.current = false →
        (climb bound n left c).Concludes c.advance.rest left.numerals Expression.numerals := by
  induction n with
  | zero =>
    constructor
    · intro bound c
      dsimp only
      rw [expression]
      exact .after rfl (by simp [Event.makesInteger]) (.refuse rfl .tooDeep)
    · intro bound left c hc
      rw [climb]
      split
      · exact .refuse rfl .tooDeep
      · exact .done left c _
  | succ n ih =>
    obtain ⟨hexpression, hclimb⟩ := ih
    have horderly := (orderly_expression_climb n).1
    constructor
    · intro bound c
      have hdepth : levelLimit - (n + 1) < levelLimit := by
        simp only [levelLimit]
        omega
      dsimp only
      rw [expression, ← after_andThen]
      exact (concludes_operand horderly hexpression c bound hdepth).andThen
        ((orderly_operand horderly c).after _) (hclimb bound)
    · intro bound left c hc
      by_cases hlt : bound < c.peek.kind.precedence
      · rw [climb_succ_of_lt hlt]
        have hright := (hexpression c.peek.kind.precedence c.advance.advance).behind left.numerals
        refine .step rfl (kind_not_mem_of_lt hlt) (hright.andThen (horderly _ _) ?_)
        exact fun right d hinside => hclimb bound _ d hinside
      · rw [climb_of_not_lt hlt]
        exact .done left c _

theorem concludes_wholeExpression (c : Cursor) :
    c.wholeExpression.Concludes c.rest [] Expression.numerals :=
  (concludes_expression_climb levelLimit).1 .lowest c

theorem concludes_close (s : Statement) (c : Cursor) :
    (done s c.overSemicolon).Concludes c.advance.rest s.numerals Statement.numerals := by
  rw [overSemicolon]
  split
  · rename_i hk
    exact .step hk (by decide) (.done s c.advance _)
  · exact .done s c _

theorem concludes_value {make : Expression → Statement}
    (hm : ∀ e, (make e).value? = some e) (c : Cursor) :
    (c.wholeExpression.andThen fun value d => .done (make value) d.overSemicolon).Concludes c.rest
      [] Statement.numerals := by
  refine (concludes_wholeExpression c).andThen (orderly_wholeExpression c) fun value d _ => ?_
  rw [← Statement.numerals_of_value (hm value)]
  exact concludes_close (make value) d

theorem concludes_letBinding (hc : endsStatement c.current = false) :
    c.letBinding.Concludes c.advance.rest [] Statement.numerals := by
  have hname : Orderly c (c.expect .identifier) := orderly_expect hc (by decide)
  refine (concludes_expect hc (by decide) []).andThen hname fun name d hd => ?_
  have hsign : Orderly d (d.expect .assign) := orderly_expect hd (by decide)
  refine (concludes_expect hd (by decide) []).andThen hsign fun _ e _ => ?_
  exact concludes_value (fun _ => by rfl) e.advance

theorem concludes_returnValue (c : Cursor) :
    c.returnValue.Concludes c.advance.rest [] Statement.numerals := by
  rw [returnValue]
  split
  · exact concludes_close _ c
  · exact concludes_value (fun _ => by rfl) c.advance

theorem concludes_statement (c : Cursor) :
    c.statement.Concludes c.rest [] Statement.numerals := by
  refine .after rfl rfl ?_
  split
  · rename_i hk
    exact .step hk (by decide) (concludes_letBinding (not_ends_of_kind hk (by decide)))
  · rename_i hk
    exact .step hk (by decide) (concludes_returnValue c)
  · rename_i hk
    exact .step hk (by decide) (.done _ c _)
  · exact concludes_value (fun _ => by rfl) c

/-- A statement is dropped exactly if it drew a diagnostic. -/
theorem segment_statement_eq_none_iff (c : Cursor) :
    c.segment.statement = none ↔ c.statement.diagnostics ≠ [] := by
  constructor
  · intro hs
    cases hv : c.statement.value with
    | none => exact (confined_statement c).explained hv
    | some s =>
      intro hd
      rw [segment_of_kept hv hd] at hs
      cases hs
  · intro hd
    rw [segment_of_dropped (.inr hd)]

end Cursor

theorem Parser.diagnostics_read_of_not_eof {parser : Parser}
    (h : parser.cursor.current.isEof = false) :
    parser.read.2.diagnostics = parser.diagnostics ++ parser.cursor.statement.diagnostics ++
      (Parser.mk parser.cursor.segment.next []).read.2.diagnostics := by
  have hfirst := Cursor.segment_diagnostics parser.cursor
  simp only [Segment.diagnostics] at hfirst
  simp only [read, diagnostics, Cursor.segments_of_not_eof h, List.flatMap_cons,
    Event.diagnostics_append, hfirst, List.append_assoc]
  rfl

/-- The diagnostics of a statement come right behind all earlier ones. First the integers that
cannot be read are complained of, each one of which a literal is made. The statement is given up if
and only if one more diagnostic follows, of another kind, and it is dropped if there are any. -/
theorem Parser.statement_takesUp (parser : Parser) (h : parser.cursor.current.isEof = false) :
    let o := parser.cursor.statement
    (∃ taken fatal, o.TakesUp parser.cursor.rest taken fatal ∧
      ∀ s, o.value = some s → s.numerals = numerals taken) ∧
    (parser.cursor.segment.statement = none ↔ o.diagnostics ≠ []) ∧
    parser.read.2.diagnostics = parser.diagnostics ++ o.diagnostics ++
      (Parser.mk parser.cursor.segment.next []).read.2.diagnostics :=
  ⟨Cursor.concludes_statement parser.cursor, Cursor.segment_statement_eq_none_iff parser.cursor,
    Parser.diagnostics_read_of_not_eof h⟩

theorem Parser.statement_takesUp_open_group :
    let numeral : Lexeme := ⟨⟨1, 1⟩, ⟨.integer, .text "99999999999999999999"⟩⟩
    let semicolon : Lexeme := ⟨⟨1, 26⟩, ⟨.semicolon, .text ";"⟩⟩
    let lexemes : List Lexeme := [numeral, ⟨⟨1, 22⟩, ⟨.plus, .text "+"⟩⟩,
      ⟨⟨1, 24⟩, ⟨.lparen, .text "("⟩⟩, ⟨⟨1, 25⟩, ⟨.identifier, .text "x"⟩⟩, semicolon]
    let o := (Parser.ofLexemes lexemes).cursor.statement
    o.diagnostics = [numeral.complaint, ⟨semicolon.location, .expected .rparen "';'"⟩] ∧
      ∃ taken fatal, o.TakesUp lexemes taken fatal := by
  intro numeral semicolon lexemes o
  have hd : o.diagnostics =
      [numeral.complaint, ⟨semicolon.location, .expected .rparen "';'"⟩] := by
    decide +kernel
  obtain ⟨taken, fatal, ht, -⟩ := (Parser.statement_takesUp (Parser.ofLexemes lexemes) rfl).1
  exact ⟨hd, taken, fatal, ht⟩

end MonkeyFrontend
