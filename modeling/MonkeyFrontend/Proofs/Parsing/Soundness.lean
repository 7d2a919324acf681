import MonkeyFrontend.Proofs.Grammar.Sentence
import MonkeyFrontend.Proofs.Parsing.Confinement
import MonkeyFrontend.Proofs.Parsing.Derivation

namespace MonkeyFrontend

def Sentence.Spans (sentence : Sentence) (c d : Cursor) : Prop :=
  ∃ last rest, c.rest = sentence.lexemes ++ rest ∧ d = ⟨last :: rest, c.finish⟩

namespace Cursor

open Outcome

theorem overSemicolon_cons (lexeme : Lexeme) (rest : List Lexeme) (finish : Location) :
    ∃ (terminator : Terminator) (last : Lexeme) (tail : List Lexeme),
      rest = terminator.lexemes ++ tail ∧
      (Cursor.mk (lexeme :: rest) finish).overSemicolon = ⟨last :: tail, finish⟩ := by
  rw [overSemicolon]
  split
  · rename_i hk
    cases rest with
    | nil => cases hk
    | cons semicolon tail => exact ⟨some ⟨semicolon, hk⟩, semicolon, tail, rfl, rfl⟩
  · exact ⟨none, lexeme, rest, rfl, rfl⟩

theorem derives_wholeExpression {rest : List Lexeme} {finish : Location} {d : Cursor}
    {e : Expression} (hy : (Cursor.mk rest finish).wholeExpression.Yields e d) :
    ∃ (p : Phrase .equality) (tail : List Lexeme),
      rest = p.lexemes ++ tail ∧ d = ⟨p.last :: tail, finish⟩ ∧ p.tree = e := by
  have h : ∃ p : Phrase .equality, p.Spans ⟨rest, finish⟩ d ∧ p.tree = e ∧ _ :=
    (derives_expression_climb levelLimit).1 .lowest _ _ _ hy
  obtain ⟨p, ⟨tail, hrest, hd⟩, ht, -⟩ := h
  exact ⟨p, tail, hrest, hd, ht⟩

theorem derives_letBinding {keyword : Lexeme} {rest : List Lexeme} {finish : Location}
    {d : Cursor} {s : Statement} (hk : keyword.kind = .letKeyword)
    (hy : (Cursor.mk (keyword :: rest) finish).letBinding.Yields s d) :
    ∃ sentence : Sentence, sentence.Spans ⟨keyword :: rest, finish⟩ d ∧ sentence.tree = s := by
  obtain ⟨token, c₁, hname, hy⟩ := yields_andThen_iff.mp hy
  obtain ⟨hn, rfl, rfl⟩ := yields_expect hname
  obtain ⟨token', c₂, hsign, hy⟩ := yields_andThen_iff.mp hy
  obtain ⟨hs, -, rfl⟩ := yields_expect hsign
  obtain ⟨value, c₃, hvalue, hy⟩ := yields_andThen_iff.mp hy
  obtain ⟨rfl, rfl⟩ := yields_done_iff.mp hy
  cases rest with
  | nil => cases hn
  | cons name rest =>
    cases rest with
    | nil => cases hs
    | cons sign rest =>
      obtain ⟨p, tail, rfl, rfl, rfl⟩ := derives_wholeExpression hvalue
      obtain ⟨terminator, last, tail', rfl, hlast⟩ := overSemicolon_cons p.last tail finish
      refine ⟨.letBinding keyword hk name hn sign hs p terminator, ⟨last, tail', ?_, hlast⟩, rfl⟩
      simp [Sentence.lexemes]

theorem derives_returnValue {keyword : Lexeme} {rest : List Lexeme} {finish : Location}
    {d : Cursor} {s : Statement} (hk : keyword.kind = .returnKeyword)
    (hy : (Cursor.mk (keyword :: rest) finish).returnValue.Yields s d) :
    ∃ sentence : Sentence, sentence.Spans ⟨keyword :: rest, finish⟩ d ∧ sentence.tree = s := by
  rw [returnValue] at hy
  split at hy
  · obtain ⟨rfl, rfl⟩ := yields_done_iff.mp hy
    obtain ⟨terminator, last, tail, rfl, hlast⟩ := overSemicolon_cons keyword rest finish
    exact ⟨.returnValue keyword hk none terminator, ⟨last, tail, rfl, hlast⟩, rfl⟩
  · obtain ⟨value, c₁, hvalue, hy⟩ := yields_andThen_iff.mp hy
    obtain ⟨rfl, rfl⟩ := yields_done_iff.mp hy
    obtain ⟨p, tail, rfl, rfl, rfl⟩ := derives_wholeExpression hvalue
    obtain ⟨terminator, last, tail', rfl, hlast⟩ := overSemicolon_cons p.last tail finish
    refine ⟨.returnValue keyword hk (some p) terminator, ⟨last, tail', ?_, hlast⟩, rfl⟩
    simp [Sentence.lexemes]

theorem derives_expressionStatement {c d : Cursor} {s : Statement}
    (hy : c.expressionStatement.Yields s d) :
    ∃ sentence : Sentence, sentence.Spans c d ∧ sentence.tree = s := by
  obtain ⟨rest, finish⟩ := c
  obtain ⟨value, c₁, hvalue, hy⟩ := yields_andThen_iff.mp hy
  obtain ⟨rfl, rfl⟩ := yields_done_iff.mp hy
  obtain ⟨p, tail, rfl, rfl, rfl⟩ := derives_wholeExpression hvalue
  obtain ⟨terminator, last, tail', rfl, hlast⟩ := overSemicolon_cons p.last tail finish
  refine ⟨.expression p terminator, ⟨last, tail', ?_, hlast⟩, ?_⟩
  · simp [Sentence.lexemes]
  · rw [← p.cons_tail_lexemes]
    rfl

/-- All that reading a statement comes to, without complaint, is derived. -/
theorem derives_statement {c d : Cursor} {s : Statement} (hy : c.statement.Yields s d) :
    ∃ sentence : Sentence, sentence.Spans c d ∧ sentence.tree = s := by
  rw [statement, yields_after_iff rfl] at hy
  obtain ⟨rest, finish⟩ := c
  cases rest with
  | nil => exact derives_expressionStatement hy
  | cons lexeme rest =>
    split at hy
    · rename_i hk
      exact derives_letBinding hk hy
    · rename_i hk
      exact derives_returnValue hk hy
    · rename_i hk
      obtain ⟨rfl, rfl⟩ := yields_done_iff.mp hy
      exact ⟨.empty lexeme hk, ⟨lexeme, rest, rfl, rfl⟩, rfl⟩
    · exact derives_expressionStatement hy

end Cursor

end MonkeyFrontend
