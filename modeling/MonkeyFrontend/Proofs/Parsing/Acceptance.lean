import MonkeyFrontend.Parsing.Program
import MonkeyFrontend.Proofs.Grammar.Sentence
import MonkeyFrontend.Proofs.Parsing.Completeness
import MonkeyFrontend.Proofs.Parsing.Confinement

namespace MonkeyFrontend

theorem Phrase.not_ends {s : Stratum} (p : Phrase s) :
    ∀ lexeme ∈ p.lexemes, Cursor.endsStatement lexeme = false := by
  intro lexeme hm
  have h := p.kind_not_mem_outer lexeme hm
  apply Cursor.not_ends_of_kind rfl
  intro hk
  exact h (List.mem_cons_of_mem _ (List.mem_cons_of_mem _ (List.mem_cons_of_mem _ hk)))

theorem Sentence.exists_body (sentence : Sentence) :
    ∃ body, sentence.lexemes = body ++ sentence.terminator.lexemes ∧
      ∀ lexeme ∈ body, Cursor.endsStatement lexeme = false := by
  cases sentence with
  | letBinding keyword hk name hn sign hs value terminator =>
    refine ⟨keyword :: name :: sign :: value.lexemes, rfl, ?_⟩
    simp only [List.forall_mem_cons]
    exact ⟨Cursor.not_ends_of_kind hk (by decide), Cursor.not_ends_of_kind hn (by decide),
      Cursor.not_ends_of_kind hs (by decide), value.not_ends⟩
  | returnValue keyword hk value terminator =>
    have hkeyword := Cursor.not_ends_of_kind hk (by decide)
    cases value with
    | none => exact ⟨[keyword], rfl, by simpa using hkeyword⟩
    | some value =>
      exact ⟨keyword :: value.lexemes, rfl, List.forall_mem_cons.mpr ⟨hkeyword, value.not_ends⟩⟩
  | expression value terminator => exact ⟨value.lexemes, rfl, value.not_ends⟩
  | empty semicolon h => exact ⟨[], rfl, by simp⟩

/-- A sentence may end here: with its own semicolon or else with the input. -/
def Terminator.Suits (terminator : Terminator) (c : Cursor) : Prop :=
  terminator = none → c.current.kind = .eof

namespace Cursor

open Outcome

variable {terminator : Terminator} {rest : List Lexeme} {finish : Location}

theorem ends_of_suits (h : terminator.Suits ⟨rest, finish⟩) :
    endsStatement (Cursor.mk (terminator.lexemes ++ rest) finish).current = true := by
  cases terminator with
  | none => simpa [endsStatement] using .inr (h rfl)
  | some semicolon => simpa [endsStatement] using .inl semicolon.property

theorem precedence_of_ends {lexeme : Lexeme} (h : endsStatement lexeme = true) :
    lexeme.kind.precedence = .lowest := by
  simp only [endsStatement, Bool.or_eq_true, decide_eq_true_eq] at h
  obtain h | h := h
  · rw [h]
    rfl
  · rw [h]
    rfl

theorem overSemicolon_of_suits (h : terminator.Suits ⟨rest, finish⟩) (lexeme : Lexeme) :
    ∃ last, (Cursor.mk (lexeme :: (terminator.lexemes ++ rest)) finish).overSemicolon =
      ⟨last :: rest, finish⟩ := by
  cases terminator with
  | none =>
    refine ⟨lexeme, if_neg ?_⟩
    have heof : (Cursor.mk rest finish).current.kind = .eof := h rfl
    simp [Terminator.lexemes, heof]
  | some semicolon => exact ⟨semicolon, if_pos semicolon.property⟩

theorem current_lexemes {s : Stratum} (p : Phrase s) (rest : List Lexeme) (finish : Location) :
    (Cursor.mk (p.lexemes ++ rest) finish).current = p.first := by
  rw [← p.cons_tail_lexemes]
  rfl

theorem statement_of_let {keyword : Lexeme} (h : keyword.kind = .letKeyword)
    (rest : List Lexeme) (finish : Location) :
    (Cursor.mk (keyword :: rest) finish).statement.Agrees
      (Cursor.mk (keyword :: rest) finish).letBinding := by
  rw [statement, current_cons, h]
  exact agrees_after rfl _

theorem statement_of_return {keyword : Lexeme} (h : keyword.kind = .returnKeyword)
    (rest : List Lexeme) (finish : Location) :
    (Cursor.mk (keyword :: rest) finish).statement.Agrees
      (Cursor.mk (keyword :: rest) finish).returnValue := by
  rw [statement, current_cons, h]
  exact agrees_after rfl _

theorem statement_of_semicolon {semicolon : Lexeme} (h : semicolon.kind = .semicolon)
    (rest : List Lexeme) (finish : Location) :
    (Cursor.mk (semicolon :: rest) finish).statement.Agrees
      (.done (.expression semicolon.token none) ⟨semicolon :: rest, finish⟩) := by
  rw [statement, current_cons, h]
  exact agrees_after rfl _

theorem statement_of_inner {c : Cursor} (h : c.current.kind ∉ Stratum.outer) :
    c.statement.Agrees c.expressionStatement := by
  simp only [Stratum.outer, List.mem_cons, not_or] at h
  apply (agrees_after rfl _).trans
  split
  · exact absurd ‹_› h.1
  · exact absurd ‹_› h.2.1
  · exact absurd ‹_› h.2.2.2.1
  · exact ⟨rfl, rfl, rfl⟩

def closeStatement (make : Expression → Statement) (value : Expression) (c : Cursor) :
    Outcome Statement :=
  .done (make value) c.overSemicolon

theorem letBinding_agrees {keyword name sign : Lexeme} (hn : name.kind = .identifier)
    (hs : sign.kind = .assign) (rest : List Lexeme) (finish : Location) :
    (Cursor.mk (keyword :: name :: sign :: rest) finish).letBinding.Agrees
      ((Cursor.mk rest finish).wholeExpression.andThen
        (closeStatement fun value =>
          .letBinding keyword.token ⟨name.token, name.token.literal⟩ (some value))) := by
  rw [letBinding, expect_of_kind hn]
  apply ((yields_done _ _).andThen _).trans
  rw [expect_of_kind hs]
  exact (yields_done _ _).andThen _

theorem returnValue_of_ends (h : endsStatement (Cursor.mk rest finish).current = true)
    (keyword : Lexeme) :
    (Cursor.mk (keyword :: rest) finish).returnValue =
      .done (.returnValue keyword.token none)
        (Cursor.mk (keyword :: rest) finish).overSemicolon :=
  if_pos h

theorem returnValue_of_phrase {keyword : Lexeme} (p : Phrase .equality) (rest : List Lexeme)
    (finish : Location) :
    (Cursor.mk (keyword :: (p.lexemes ++ rest)) finish).returnValue =
      (Cursor.mk (p.lexemes ++ rest) finish).wholeExpression.andThen
        (closeStatement fun value => .returnValue keyword.token (some value)) := by
  rw [returnValue, peek_cons, current_lexemes, if_neg]
  · rfl
  · rw [p.not_ends p.first (List.head_mem _)]
    exact Bool.false_ne_true

theorem statement_agrees {sentence : Sentence} {p : Phrase .equality}
    (h : sentence.value? = some p) (rest : List Lexeme) (finish : Location) :
    ∃ make : Expression → Statement, make p.tree = sentence.tree ∧
      (Cursor.mk (sentence.lexemes ++ rest) finish).statement.Agrees
        (wholeExpression ⟨p.lexemes ++ (sentence.terminator.lexemes ++ rest), finish⟩ |>.andThen
          (closeStatement make)) := by
  cases sentence with
  | letBinding keyword hk name hn sign hs value terminator =>
    obtain rfl : value = p := Option.some.inj h
    refine ⟨fun e => .letBinding keyword.token ⟨name.token, name.token.literal⟩ (some e), rfl, ?_⟩
    simp only [Sentence.lexemes, Sentence.terminator, List.cons_append, List.append_assoc]
    exact (statement_of_let hk _ finish).trans (letBinding_agrees hn hs _ finish)
  | returnValue keyword hk value terminator =>
    obtain rfl : value = some p := h
    refine ⟨fun e => .returnValue keyword.token (some e), rfl, ?_⟩
    simp only [Sentence.lexemes, Sentence.terminator, List.cons_append, List.append_assoc,
      Option.map_some, Option.getD_some]
    rw [← returnValue_of_phrase]
    exact statement_of_return hk _ finish
  | expression value terminator =>
    obtain rfl : value = p := Option.some.inj h
    refine ⟨fun e => .expression value.first.token (some e), rfl, ?_⟩
    simp only [Sentence.lexemes, Sentence.terminator, List.append_assoc]
    have hfirst := current_lexemes value (terminator.lexemes ++ rest) finish
    have hinner := value.kind_not_mem_outer value.first (List.head_mem _)
    rw [← hfirst] at hinner ⊢
    exact statement_of_inner hinner
  | empty semicolon hs => cases h

theorem statement_yields {sentence : Sentence} (hs : sentence.terminator.Suits ⟨rest, finish⟩)
    (hl : ∀ p ∈ sentence.value?, p.levels ≤ levelLimit) :
    ∃ last, (Cursor.mk (sentence.lexemes ++ rest) finish).statement.Yields sentence.tree
      ⟨last :: rest, finish⟩ := by
  have hends := ends_of_suits hs
  cases hv : sentence.value? with
  | some p =>
    obtain ⟨make, hmake, hagrees⟩ := statement_agrees hv rest finish
    obtain ⟨last, hlast⟩ := overSemicolon_of_suits hs p.last
    have hvalue := wholeExpression_yields p (precedence_of_ends hends) (hl p hv)
    refine ⟨last, hagrees.yields ((hvalue.andThen _).yields ?_)⟩
    rw [closeStatement, hmake, hlast]
    exact yields_done _ _
  | none =>
    cases sentence with
    | letBinding keyword hk name hn sign hs value terminator => cases hv
    | returnValue keyword hk value terminator =>
      obtain rfl : value = none := hv
      obtain ⟨last, hlast⟩ := overSemicolon_of_suits hs keyword
      have hdone := returnValue_of_ends hends keyword
      rw [hlast] at hdone
      refine ⟨last, (statement_of_return hk _ finish).yields ?_⟩
      exact hdone ▸ yields_done _ _
    | expression value terminator => cases hv
    | empty semicolon hk =>
      exact ⟨semicolon, (statement_of_semicolon hk rest finish).yields (yields_done _ _)⟩

theorem statement_overflows {sentence : Sentence} {p : Phrase .equality}
    (hs : sentence.terminator.Suits ⟨rest, finish⟩) (hv : sentence.value? = some p)
    (hl : levelLimit < p.levels) :
    (Cursor.mk (sentence.lexemes ++ rest) finish).statement.Overflows := by
  obtain ⟨make, -, hagrees⟩ := statement_agrees hv rest finish
  have hvalue := wholeExpression_overflows p (precedence_of_ends (ends_of_suits hs)) hl
  exact hagrees.overflows (hvalue.andThen _)

theorem Within.recover_eq {c d : Cursor} (h : c.Within d) : d.recover = c.recover := by
  obtain ⟨⟨front, hrest, hfront⟩, hfinish⟩ := h
  have hdrop : (front ++ d.rest).dropWhile (fun lexeme => !endsStatement lexeme) =
      d.rest.dropWhile fun lexeme => !endsStatement lexeme := by
    apply List.dropWhile_append_of_pos
    simpa using hfront
  simp only [Cursor.recover, hrest, hdrop, hfinish]

theorem isEof_current (sentence : Sentence) (rest : List Lexeme) (finish : Location) :
    (Cursor.mk (sentence.lexemes ++ rest) finish).current.isEof = false := by
  cases hl : sentence.lexemes with
  | nil => exact absurd hl sentence.lexemes_ne_nil
  | cons lexeme lexemes =>
    have hk : lexeme.kind ≠ .eof := sentence.kind_ne_eof lexeme (by simp [hl])
    exact decide_eq_false hk

/-- Sentences of which only the last may lack its semicolon are read one after another, up to the
end of input. -/
theorem segments_of_sentences (sentences : List Sentence) (rest : List Lexeme) (finish : Location)
    (hs : ∀ sentence ∈ sentences.dropLast, sentence.terminator ≠ none)
    (hl : ∀ sentence ∈ sentences, ∀ p ∈ sentence.value?, p.levels ≤ levelLimit)
    (he : (Cursor.mk rest finish).current.kind = .eof) :
    let segments := (Cursor.mk (sentences.flatMap Sentence.lexemes ++ rest) finish).segments
    segments.filterMap Segment.statement = sentences.map Sentence.tree ∧
      segments.flatMap Segment.diagnostics = [] := by
  induction sentences with
  | nil =>
    have heof : (Cursor.mk rest finish).current.isEof = true := decide_eq_true he
    rw [List.flatMap_nil, List.nil_append, segments_of_eof heof]
    exact ⟨rfl, rfl⟩
  | cons sentence sentences ih =>
    have hsuits : sentence.terminator.Suits
        ⟨sentences.flatMap Sentence.lexemes ++ rest, finish⟩ := by
      intro hn
      cases sentences with
      | nil => exact he
      | cons sentence' sentences => exact absurd hn (hs sentence (by simp))
    have hlater : ∀ r ∈ sentences.dropLast, r.terminator ≠ none := by
      intro r hr
      cases sentences with
      | nil => cases hr
      | cons sentence' sentences => exact hs r (List.mem_cons_of_mem _ hr)
    obtain ⟨last, hv, hc, hd⟩ := statement_yields hsuits (hl sentence (by simp))
    obtain ⟨hstatements, hdiagnostics⟩ := ih hlater fun r hr => hl r (by simp [hr])
    have hdrawn := segment_diagnostics
      ⟨sentence.lexemes ++ (sentences.flatMap Sentence.lexemes ++ rest), finish⟩
    have hkept := segment_of_kept hv hd
    rw [hc, advance_cons] at hkept
    rw [hd] at hdrawn
    dsimp only
    rw [List.flatMap_cons, List.append_assoc,
      segments_of_not_eof (isEof_current sentence _ finish), List.flatMap_cons, hdrawn, hkept,
      List.filterMap_cons, List.map_cons, hstatements]
    exact ⟨rfl, hdiagnostics⟩

theorem recover_sentence (sentence : Sentence) (last finish : Location) :
    (Cursor.mk (sentence.lexemes ++ [.finish last]) finish).recover =
      ⟨sentence.terminator.lexemes ++ [.finish last], finish⟩ := by
  obtain ⟨body, hbody, hnot⟩ := sentence.exists_body
  have hwithin : (Cursor.mk (sentence.lexemes ++ [.finish last]) finish).Within
      ⟨sentence.terminator.lexemes ++ [.finish last], finish⟩ := by
    refine ⟨⟨body, ?_, hnot⟩, rfl⟩
    rw [hbody, List.append_assoc]
  rw [← hwithin.recover_eq]
  cases sentence.terminator with
  | none => rfl
  | some semicolon =>
    have hends : endsStatement semicolon.val = true := by
      simp [endsStatement, semicolon.property]
    simp [recover, Terminator.lexemes, hends]

/-- A sentence that is all of the input and takes too many levels leaves a single diagnostic. -/
theorem segments_of_overflow {sentence : Sentence} {p : Phrase .equality}
    (hv : sentence.value? = some p) (hl : levelLimit < p.levels) (last finish : Location) :
    ∃ location, (Cursor.mk (sentence.lexemes ++ [.finish last]) finish).segments.flatMap
      Segment.diagnostics = [⟨location, .tooDeep⟩] := by
  have hsuits : sentence.terminator.Suits ⟨[.finish last], finish⟩ := fun _ => rfl
  obtain ⟨hnone, location, hd⟩ := statement_overflows hsuits hv hl
  have hend : (Cursor.mk (sentence.lexemes ++ [.finish last]) finish).segment.next.current.isEof =
      true := by
    rw [segment_of_dropped (.inl hnone)]
    dsimp only
    rw [(confined_statement _).within.recover_eq, recover_sentence]
    cases sentence.terminator with
    | none => rfl
    | some semicolon => rfl
  refine ⟨location, ?_⟩
  rw [segments_of_not_eof (isEof_current sentence _ finish), segments_of_eof hend,
    List.flatMap_singleton, segment_diagnostics, hd]

end Cursor

end MonkeyFrontend
