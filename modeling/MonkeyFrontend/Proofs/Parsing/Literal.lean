import MonkeyFrontend.Proofs.Lexeme.Vocabulary
import MonkeyFrontend.Proofs.Numeral
import MonkeyFrontend.Proofs.Parsing.SourceOrder

namespace MonkeyFrontend

/-- An integer behind which no operator comes is an expression by itself. -/
theorem Cursor.wholeExpression_of_integer {c : Cursor} (hk : c.current.kind = .integer)
    (hp : c.peek.kind.precedence = .lowest) : c.wholeExpression.Agrees c.integer := by
  obtain ⟨hvalue, hcursor, -, -⟩ := integer_eq c hk
  have hoperand : operand (fun bound => expression bound 255) c = c.integer := by
    have htoken : c.current.token.kind = .integer := hk
    simp only [operand, htoken]
  have hclimb (left : Expression) : climb .lowest 255 left c = .done left c := by
    apply climb_of_not_lt
    rw [hp]
    exact Nat.lt_irrefl _
  refine (agrees_expression_succ .lowest 255 c).trans ?_
  rw [hoperand]
  refine ⟨?_, ?_, ?_⟩
  · rw [Outcome.andThen_of_some hvalue, hcursor, hclimb, hvalue]
    rfl
  · rw [Outcome.andThen_of_some hvalue, hcursor, hclimb]
    rfl
  · rw [Outcome.diagnostics_andThen_of_some hvalue, hcursor, hclimb]
    exact List.append_nil _

/-- An integer token that is a whole statement. A semicolon may follow, and then nothing but ends of
input. -/
structure LoneInteger where
  text : String
  location : Location
  terminator : Terminator
  ending : List Lexeme
  ended : ∀ lexeme ∈ ending, lexeme.isEof = true

namespace LoneInteger

variable (lone : LoneInteger)

def token : Token := ⟨.integer, .text lone.text⟩

def lexeme : Lexeme := ⟨lone.location, lone.token⟩

def lexemes : List Lexeme := lone.lexeme :: (lone.terminator.lexemes ++ lone.ending)

def parser : Parser := .ofLexemes lone.lexemes

def statement (value : Option Int64) : Statement :=
  .expression lone.token (some (.integer lone.token value))

structure Yields (value : Int64) : Prop where
  program : lone.parser.read.1 = ⟨[lone.statement (some value)]⟩
  diagnostics : lone.parser.read.2.diagnostics = []

structure Refused : Prop where
  program : lone.parser.read.1 = .empty
  diagnostics : lone.parser.read.2.diagnostics =
    [⟨lone.location, .unreadableInteger ("'" ++ lone.text ++ "'")⟩]

theorem isEof_current {c : Cursor} (h : c.rest <:+ lone.ending) : c.current.isEof = true := by
  obtain ⟨rest, finish⟩ := c
  cases rest with
  | nil => rfl
  | cons lexeme rest => exact lone.ended lexeme (h.subset List.mem_cons_self)

theorem statement_cursor :
    let o := lone.parser.cursor.statement
    o.value = some (lone.statement (Numeral.read? lone.text)) ∧
      o.diagnostics = complaints [lone.lexeme] ∧ o.cursor.advance.rest = lone.ending := by
  let c : Cursor := lone.parser.cursor
  have hsuits : lone.terminator.Suits ⟨lone.ending, c.finish⟩ :=
    fun _ => of_decide_eq_true (lone.isEof_current (List.suffix_refl _))
  have hpeek : c.peek.kind.precedence = .lowest :=
    Cursor.precedence_of_ends (Cursor.ends_of_suits hsuits)
  have houter : TokenKind.integer ∉ Stratum.outer := by decide
  obtain ⟨last, hlast⟩ := Cursor.overSemicolon_of_suits hsuits lone.lexeme
  obtain ⟨hvalue, hcursor, hdiagnostics, -⟩ := Cursor.integer_eq c rfl
  have hstatement : c.statement.Agrees (c.integer.andThen fun value d =>
      .done (.expression lone.token (some value)) d.overSemicolon) :=
    (Cursor.statement_of_inner (c := c) houter).trans
      ((Cursor.wholeExpression_of_integer rfl hpeek).andThen _)
  refine ⟨?_, ?_, ?_⟩
  · rw [hstatement.value, Outcome.andThen_of_some hvalue]
    rfl
  · rw [hstatement.diagnostics, Outcome.diagnostics_andThen_of_some hvalue, hdiagnostics]
    exact List.append_nil _
  · rw [hstatement.cursor, Outcome.andThen_of_some hvalue, hcursor]
    exact congrArg (fun d : Cursor => d.advance.rest) hlast

theorem segments_cursor : lone.parser.cursor.segments = [lone.parser.cursor.segment] := by
  have hnext := lone.parser.cursor.segment_next_suffix
  rw [lone.statement_cursor.2.2] at hnext
  rw [Cursor.segments_of_not_eof rfl, Cursor.segments_of_eof (lone.isEof_current hnext)]

theorem diagnostics_read : lone.parser.read.2.diagnostics = complaints [lone.lexeme] := by
  have hread : lone.parser.read.2.diagnostics =
      lone.parser.cursor.segments.flatMap Segment.diagnostics :=
    Parser.diagnostics_read lone.lexemes
  rw [hread, lone.segments_cursor, List.flatMap_singleton, Cursor.segment_diagnostics]
  exact lone.statement_cursor.2.1

theorem isUnreadable_lexeme : lone.lexeme.isUnreadable = (Numeral.read? lone.text).isNone := rfl

theorem yields_of_read? {value : Int64} (h : Numeral.read? lone.text = some value) :
    lone.Yields value := by
  obtain ⟨hvalue, hd, -⟩ := lone.statement_cursor
  have hsilent : complaints [lone.lexeme] = [] := by
    rw [complaints_cons_of_readable (by rw [isUnreadable_lexeme, h]; rfl)]
    rfl
  refine ⟨?_, lone.diagnostics_read.trans hsilent⟩
  have hkept := Cursor.segment_of_kept hvalue (hd.trans hsilent)
  simp only [Parser.read, lone.segments_cursor, hkept, h]
  rfl

theorem refused_of_read? (h : Numeral.read? lone.text = none) : lone.Refused := by
  obtain ⟨-, hd, -⟩ := lone.statement_cursor
  have hloud : complaints [lone.lexeme] = [lone.lexeme.complaint] := by
    rw [complaints_cons_of_unreadable (by rw [isUnreadable_lexeme, h]; rfl)]
    rfl
  refine ⟨?_, lone.diagnostics_read.trans hloud⟩
  have hdropped := Cursor.segment_of_dropped (c := lone.parser.cursor) (.inr (by simp [hd, hloud]))
  simp only [Parser.read, lone.segments_cursor, hdropped]
  rfl

theorem yields_iff {value : Int64} : lone.Yields value ↔ Numeral.read? lone.text = some value := by
  refine ⟨fun h => ?_, lone.yields_of_read?⟩
  cases hr : Numeral.read? lone.text with
  | none =>
    have hd := (lone.refused_of_read? hr).diagnostics
    rw [h.diagnostics] at hd
    cases hd
  | some other =>
    have hp := (lone.yields_of_read? hr).program
    rw [h.program] at hp
    cases hp
    rfl

theorem render_statement (value : Int64) :
    (Program.mk [lone.statement (some value)]).render = .ok (Numeral.write value) := by
  exact congrArg Except.ok String.empty_append

end LoneInteger

theorem exists_parse_iff {source : String} {lexemes : List Lexeme}
    (h : tokenize source = .ok lexemes) :
    (∃ program, parse source = .ok program) ↔
      (Parser.ofLexemes lexemes).read.2.diagnostics = [] := by
  rw [parse_of_tokenize h, Parser.diagnostics_read]
  split
  · rename_i hd
    exact ⟨fun _ => hd, fun _ => ⟨_, rfl⟩⟩
  · rename_i hd
    exact ⟨fun ⟨_, hp⟩ => (by cases hp), fun hn => absurd hn hd⟩

theorem exists_tokenize_digits {digits : String} (h : Numeral.IsDigits digits.toList) :
    ∃ lone : LoneInteger, lone.text = digits ∧ tokenize digits = .ok lone.lexemes := by
  have hscans : Scans digits.toList [⟨.integer, .text digits⟩] [] :=
    .token digits (.number h.1 h.2) fun d hd => by cases hd
  obtain ⟨lexemes, finish, htokenize, htokens⟩ := tokenize_of_scans hscans
  obtain ⟨lexeme, rfl, htoken⟩ := List.map_eq_singleton_iff.mp htokens
  let lone : LoneInteger :=
    ⟨digits, lexeme.location, none, [.finish finish], by simp [Lexeme.isEof]⟩
  have hlexeme : lone.lexeme = lexeme := by
    rw [LoneInteger.lexeme, LoneInteger.token, ← htoken]
  exact ⟨lone, rfl, by rw [htokenize, LoneInteger.lexemes, hlexeme]; rfl⟩

theorem parse_digits_iff {digits : String} (h : Numeral.IsDigits digits.toList) :
    (∃ program, parse digits = .ok program) ↔ Numeral.value digits.toList < 2 ^ 63 := by
  obtain ⟨lone, rfl, htokenize⟩ := exists_tokenize_digits h
  rw [exists_parse_iff htokenize, ← Numeral.exists_read?_digits_iff h]
  constructor
  · intro hd
    apply Option.ne_none_iff_exists'.mp
    intro hnone
    have hrefused := (lone.refused_of_read? hnone).diagnostics
    rw [LoneInteger.parser, hd] at hrefused
    cases hrefused
  · rintro ⟨value, hv⟩
    exact (lone.yields_of_read? hv).diagnostics

/-- An integer token that stands alone is read as the number that its text stands for, if this is
one of 64 bits. The literal is then written as the canonical text of the number, from which the
number is read again. Any other text is complained of and leaves no statement. -/
theorem integer_literals_exact :
    (∀ lone : LoneInteger,
      (∀ n : Int, (∃ value : Int64, value.toInt = n ∧ lone.Yields value) ↔
        Numeral.Denotes lone.text.toList n ∧ -2 ^ 63 ≤ n ∧ n < 2 ^ 63) ∧
      (∀ value : Int64, lone.Yields value →
        ∃ text, lone.parser.read.1.render = .ok text ∧
          (∀ cs, Numeral.IsCanonical cs ∧ Numeral.Denotes cs value.toInt ↔ cs = text.toList) ∧
          { lone with text }.Yields value) ∧
      ((¬ ∃ n, Numeral.Denotes lone.text.toList n ∧ -2 ^ 63 ≤ n ∧ n < 2 ^ 63) → lone.Refused)) ∧
    ∀ digits : String, Numeral.IsDigits digits.toList →
      ((∃ program, parse digits = .ok program) ↔ Numeral.value digits.toList < 2 ^ 63) := by
  refine ⟨fun lone => ⟨fun n => ?_, fun value h => ?_, fun h => ?_⟩, fun digits => parse_digits_iff⟩
  · rw [← Numeral.exists_read?_iff]
    simp only [lone.yields_iff]
  · refine ⟨Numeral.write value, ?_, fun cs => Numeral.canonical_iff, ?_⟩
    · rw [h.program, lone.render_statement]
    · exact LoneInteger.yields_of_read? _ (Numeral.read?_write value)
  · exact lone.refused_of_read? (Numeral.read?_eq_none_iff.mpr h)

theorem integer_literals_exact_bounds :
    let alone (text : String) : LoneInteger := ⟨text, .start, none, [], by simp⟩
    let lowest := alone "-0009223372036854775808"
    (∃ value : Int64, value.toInt = -2 ^ 63 ∧ lowest.Yields value ∧
      ∃ text, lowest.parser.read.1.render = .ok text ∧ { lowest with text }.Yields value) ∧
    (alone "+9223372036854775808").Refused ∧
    Numeral.IsDigits "007".toList ∧ ∃ program, parse "007" = .ok program := by
  intro alone lowest
  have hdigits : Numeral.IsDigits "007".toList := Numeral.isDigits_iff.mpr (by decide +kernel)
  have hlowest : Numeral.Denotes "-0009223372036854775808".toList (-2 ^ 63) :=
    Numeral.signed?_eq_some_iff.mp (by decide +kernel)
  have hbeyond : Numeral.Denotes "+9223372036854775808".toList (2 ^ 63) :=
    Numeral.signed?_eq_some_iff.mp (by decide +kernel)
  obtain ⟨value, hv, hy⟩ := ((integer_literals_exact.1 lowest).1 _).mpr ⟨hlowest, by decide⟩
  obtain ⟨text, hrender, -, hagain⟩ := (integer_literals_exact.1 lowest).2.1 value hy
  refine ⟨⟨value, hv, hy, text, hrender, hagain⟩, ?_, hdigits,
    (integer_literals_exact.2 "007" hdigits).mpr (by decide +kernel)⟩
  apply (integer_literals_exact.1 (alone "+9223372036854775808")).2.2
  rintro ⟨n, hn, -, hhigh⟩
  rw [hn.unique hbeyond] at hhigh
  omega

end MonkeyFrontend
