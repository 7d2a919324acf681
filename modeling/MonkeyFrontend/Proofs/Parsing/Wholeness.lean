import Mathlib.Control.Monad.Basic
import Mathlib.Logic.Function.Iterate
import MonkeyFrontend.Proofs.Parsing.Soundness
import MonkeyFrontend.Session.Prompt

namespace MonkeyFrontend

def Identifier.Complete (name : Identifier) : Prop := name.value = name.token.literal

/-- No field of a tree is left open, and each says what the token of its node does. -/
def Expression.Complete : Expression → Prop
  | identifier name => name.Complete
  | integer token value => ∃ n, value = some n ∧ token.literal.integer? = some n
  | boolean token value => value = true ↔ token.kind = .trueKeyword
  | unary token operator right => operator = token.literal.render ∧ right.Complete
  | unaryOpen _ _ => False
  | binary token operator left right =>
    operator = token.literal.render ∧ left.Complete ∧ right.Complete
  | binaryOpen _ _ _ => False

def Statement.Complete : Statement → Prop
  | letBinding _ name value => name.Complete ∧ ∃ e, value = some e ∧ e.Complete
  | returnValue _ value => ∀ e ∈ value, e.Complete
  | expression _ value => ∀ e ∈ value, e.Complete

theorem Expression.Complete.exists_writeTo {e : Expression} (h : e.Complete) (buffer : String) :
    ∃ text, e.writeTo buffer = .full text := by
  induction e generalizing buffer with
  | identifier name => exact ⟨_, rfl⟩
  | integer token value =>
    obtain ⟨n, rfl, -⟩ := h
    exact ⟨_, rfl⟩
  | boolean token value => exact ⟨_, rfl⟩
  | unary token operator right ih =>
    obtain ⟨text, ht⟩ := ih h.2 (buffer ++ "(" ++ operator)
    exact ⟨text ++ ")", by rw [writeTo, ht, Written.full_andThen]⟩
  | unaryOpen token operator => exact h.elim
  | binary token operator left right ihl ihr =>
    obtain ⟨first, hl⟩ := ihl h.2.1 (buffer ++ "(")
    obtain ⟨text, hr⟩ := ihr h.2.2 (first ++ " " ++ operator ++ " ")
    exact ⟨text ++ ")", by rw [writeTo, hl, Written.full_andThen, hr, Written.full_andThen]⟩
  | binaryOpen token operator left ih => exact h.elim

theorem Statement.Complete.exists_writeTo {s : Statement} (h : s.Complete) (buffer : String) :
    ∃ text, s.writeTo buffer = .full text := by
  cases s with
  | letBinding token name value =>
    obtain ⟨-, e, rfl, he⟩ := h
    obtain ⟨text, ht⟩ := he.exists_writeTo
      (buffer ++ token.literal.render ++ " " ++ name.value.render ++ " = ")
    exact ⟨text ++ ";", by rw [writeTo, ht, Written.full_andThen]⟩
  | returnValue token value =>
    cases value with
    | none => exact ⟨_, rfl⟩
    | some e =>
      obtain ⟨text, ht⟩ := (h e rfl).exists_writeTo (buffer ++ token.literal.render ++ " ")
      exact ⟨text ++ ";", by rw [writeTo, ht, Written.full_andThen]⟩
  | expression token value =>
    cases value with
    | none => exact ⟨_, rfl⟩
    | some e => exact (h e rfl).exists_writeTo buffer

theorem Program.exists_writeTo {program : Program} (h : ∀ s ∈ program.statements, s.Complete)
    (buffer : String) : ∃ text, program.writeTo buffer = .full text := by
  obtain ⟨statements⟩ := program
  simp only [writeTo] at h ⊢
  induction statements generalizing buffer with
  | nil => exact ⟨buffer, rfl⟩
  | cons s statements ih =>
    obtain ⟨text, ht⟩ := (h s List.mem_cons_self).exists_writeTo buffer
    rw [List.foldl_cons, Written.full_andThen, ht]
    exact ih text fun r hr => h r (List.mem_cons_of_mem s hr)

theorem Program.exists_render {program : Program} (h : ∀ s ∈ program.statements, s.Complete) :
    ∃ text, program.render = .ok text := by
  obtain ⟨text, ht⟩ := Program.exists_writeTo h ""
  exact ⟨text, by rw [render, ht]; rfl⟩

theorem Phrase.complete_tree {s : Stratum} (p : Phrase s) : p.tree.Complete := by
  induction p with
  | binary left operator h right ihl ihr => exact ⟨rfl, ihl, ihr⟩
  | lone h inner ih => exact ih
  | unary operator h right ih => exact ⟨rfl, ih⟩
  | identifier lexeme h => exact rfl
  | integer lexeme value h hv => exact ⟨value, rfl, hv⟩
  | boolean lexeme value h =>
    have hk : lexeme.token.kind = if value then .trueKeyword else .falseKeyword := h
    cases value <;> simp [tree, Expression.Complete, hk]
  | group opening ho inner closing hc ih => exact ih

theorem Sentence.complete_tree (sentence : Sentence) : sentence.tree.Complete := by
  cases sentence with
  | letBinding keyword hk name hn sign hs value terminator =>
    exact ⟨rfl, value.tree, rfl, value.complete_tree⟩
  | returnValue keyword hk value terminator =>
    intro e he
    obtain ⟨p, -, rfl⟩ := Option.map_eq_some_iff.mp he
    exact p.complete_tree
  | expression value terminator =>
    intro e he
    rw [← Option.some.inj he]
    exact value.complete_tree
  | empty semicolon h =>
    intro e he
    cases he

namespace Cursor

theorem exists_of_mem_segments {c : Cursor} {segment : Segment} (h : segment ∈ c.segments) :
    ∃ d : Cursor, c.Reaches d ∧ segment = d.segment := by
  induction hn : c.rest.length using Nat.strongRecOn generalizing c with
  | ind n ih =>
    cases hc : c.current.isEof with
    | true =>
      rw [segments_of_eof hc] at h
      cases h
    | false =>
      rw [segments_of_not_eof hc] at h
      obtain rfl | h := List.mem_cons.mp h
      · exact ⟨c, .refl c, rfl⟩
      · obtain ⟨d, hd, rfl⟩ := ih _ (hn ▸ segment_length_lt hc) h rfl
        obtain ⟨last, hlast, hnext⟩ := reaches_segment c
        exact ⟨d, (hlast.trans (.advance last)).trans (hnext ▸ hd), rfl⟩

theorem yields_of_segment_statement {c : Cursor} {s : Statement}
    (h : c.segment.statement = some s) : c.statement.Yields s c.statement.cursor := by
  by_cases hd : c.statement.value = none ∨ c.statement.diagnostics ≠ []
  · rw [segment_of_dropped hd] at h
    cases h
  · simp only [not_or, Option.ne_none_iff_exists', not_not] at hd
    obtain ⟨⟨r, hr⟩, hd⟩ := hd
    rw [segment_of_kept hr hd] at h
    exact ⟨hr.trans h, rfl, hd⟩

end Cursor

/-- Every statement of a program was read somewhere without complaint. -/
theorem Parser.exists_yields {parser : Parser} {s : Statement}
    (h : s ∈ parser.read.1.statements) :
    ∃ c d : Cursor, parser.cursor.Reaches c ∧ c.statement.Yields s d := by
  obtain ⟨segment, hm, hs⟩ := List.mem_filterMap.mp h
  obtain ⟨c, hc, rfl⟩ := Cursor.exists_of_mem_segments hm
  exact ⟨c, _, hc, Cursor.yields_of_segment_statement hs⟩

theorem Parser.complete_of_mem {parser : Parser} {s : Statement}
    (h : s ∈ parser.read.1.statements) : s.Complete := by
  obtain ⟨c, d, -, hy⟩ := Parser.exists_yields h
  obtain ⟨sentence, -, rfl⟩ := Cursor.derives_statement hy
  exact sentence.complete_tree

theorem exists_read_of_parse {source : String} {program : Program}
    (h : parse source = .ok program) : ∃ parser : Parser, parser.read.1 = program := by
  simp only [parse, Reading.ofSource] at h
  split at h
  · cases h
  · rename_i parser _
    refine ⟨parser, ?_⟩
    split at h
    · exact Except.ok.inj h
    · cases h

/-- However often a reader is asked, and whatever lexemes it was given, nothing is missing in the
programs that it hands out, so that they can be written. In particular no session ever shows a gap
in place of a program. -/
theorem Parser.read_complete :
    (∀ (lexemes : List Lexeme) (calls : Nat),
      let program := ((fun parser => parser.read.2)^[calls] (Parser.ofLexemes lexemes)).read.1
      (∀ s ∈ program.statements, s.Complete) ∧ ∃ text, program.render = .ok text) ∧
    ∀ (source : String) (program : Program), parse source = .ok program →
      program.render = .ok program.shown := by
  constructor
  · intro lexemes calls program
    have hall : ∀ s ∈ program.statements, s.Complete := fun s hs => Parser.complete_of_mem hs
    exact ⟨hall, Program.exists_render hall⟩
  · intro source program h
    obtain ⟨parser, rfl⟩ := exists_read_of_parse h
    obtain ⟨text, ht⟩ := Program.exists_render fun s hs => Parser.complete_of_mem hs
    rw [Program.shown, ht]

theorem Parser.read_complete_negated :
    let program : Program := ⟨[.letBinding ⟨.letKeyword, .text "let"⟩
      ⟨⟨.identifier, .text "x"⟩, .text "x"⟩ (some (.unary ⟨.minus, .text "-"⟩ "-"
        (.integer ⟨.integer, .text "007"⟩ (some 7))))]⟩
    parse "let x = -007" = .ok program ∧ program.render = .ok program.shown := by
  intro program
  have h : parse "let x = -007" = .ok program := by decide +kernel
  exact ⟨h, Parser.read_complete.2 _ _ h⟩

end MonkeyFrontend
