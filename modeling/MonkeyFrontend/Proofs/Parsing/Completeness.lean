import MonkeyFrontend.Parsing.Statement
import MonkeyFrontend.Proofs.Grammar.Phrase
import MonkeyFrontend.Proofs.Parsing.Expression

namespace MonkeyFrontend.Cursor

open Outcome

theorem climb_stops {bound : Precedence} {rest : List Lexeme} {finish : Location}
    (h : (Cursor.mk rest finish).current.kind.precedence.rank ≤ bound.rank) (n : Nat)
    (left : Expression) (lexeme : Lexeme) :
    climb bound n left ⟨lexeme :: rest, finish⟩ = .done left ⟨lexeme :: rest, finish⟩ :=
  climb_of_not_lt (c := ⟨lexeme :: rest, finish⟩) (Nat.not_lt.mpr h) n left

/-- With levels enough for a phrase, its tree is read and the climb goes on from there, with one
level less for each operator of its spine. -/
theorem expression_agrees_climb {s : Stratum} (p : Phrase s) (bound : Precedence) (n : Nat)
    (rest : List Lexeme) (finish : Location) (hb : (Stratum.above bound).rank ≤ s.rank)
    (hf : (Cursor.mk rest finish).current.kind.precedence.rank ≤ s.rank)
    (hl : p.levels ≤ n + 1) :
    (expression bound (n + 1) ⟨p.lexemes ++ rest, finish⟩).Agrees
      (climb bound (n - p.spine) p.tree ⟨p.last :: rest, finish⟩) := by
  induction p generalizing bound n rest with
  | @binary s left operator h right ihl ihr =>
    have hr := Stratum.rank_of_mem_operators h
    obtain ⟨hll, hlr⟩ := Nat.max_le.mp hl
    have hpos := right.levels_pos
    obtain ⟨k, hk⟩ : ∃ k, n - left.spine = k + 2 := ⟨n - left.spine - 2, by omega⟩
    have hfirst := ihl bound n (operator :: (right.lexemes ++ rest)) hb (Nat.le_of_eq hr) hll
    rw [hk, climb_succ_of_lt (Stratum.lt_of_mem_operators h hb)] at hfirst
    have hsecond := ihr operator.kind.precedence k rest
      (Nat.le_of_eq (congrArg Stratum.rank (Stratum.above_of_mem_operators h)))
      (Nat.le_trans hf (Stratum.rank_le_rank_tighter s)) (by omega)
    rw [climb_stops (hr ▸ hf)] at hsecond
    have hs : n - (left.spine + 1) = k + 1 := by omega
    rw [Phrase.last_binary, Phrase.lexemes, Phrase.spine, Phrase.tree, hs, List.append_assoc]
    exact hfirst.trans ((hsecond.yields (yields_done _ _)).andThen _)
  | @lone s h inner ih =>
    exact ih bound n rest (Nat.le_trans hb (Stratum.rank_le_rank_tighter s))
      (Nat.le_trans hf (Stratum.rank_le_rank_tighter s)) hl
  | unary operator h right ih =>
    have hpos := right.levels_pos
    have hl' : 1 + right.levels ≤ n + 1 := hl
    obtain ⟨k, rfl⟩ : ∃ k, n = k + 1 := ⟨n - 1, by omega⟩
    have hright := ih .unary k rest (Nat.le_refl _) hf (by omega)
    rw [climb_stops hf] at hright
    apply (agrees_expression_succ bound (k + 1) _).trans
    rw [Phrase.lexemes, List.cons_append, operand_of_unary h, Phrase.last_unary]
    apply Yields.andThen
    exact ((hright.yields (yields_done _ _)).andThen _).yields (yields_done _ _)
  | identifier lexeme h =>
    apply (agrees_expression_succ bound n _).trans
    rw [Phrase.lexemes, List.singleton_append, operand_of_identifier h]
    exact (yields_done _ _).andThen _
  | integer lexeme value h hv =>
    apply (agrees_expression_succ bound n _).trans
    rw [Phrase.lexemes, List.singleton_append, operand_of_integer h,
      integer_of_readable (c := ⟨lexeme :: rest, finish⟩) hv]
    exact (yields_done _ _).andThen _
  | boolean lexeme value h =>
    apply (agrees_expression_succ bound n _).trans
    rw [Phrase.lexemes, List.singleton_append, operand_of_boolean value h]
    exact (yields_done _ _).andThen _
  | group opening ho inner closing hc ih =>
    have hpos := inner.levels_pos
    have hl' : 1 + inner.levels ≤ n + 1 := hl
    obtain ⟨k, rfl⟩ : ∃ k, n = k + 1 := ⟨n - 1, by omega⟩
    have hlow : (Cursor.mk (closing :: rest) finish).current.kind.precedence.rank = 0 := by
      rw [current_cons, hc]
      rfl
    have hinner := ih .lowest k (closing :: rest) (Nat.le_refl _) (by omega) (by omega)
    rw [climb_stops (Nat.le_of_eq hlow)] at hinner
    apply (agrees_expression_succ bound (k + 1) _).trans
    rw [Phrase.lexemes, List.cons_append, List.append_assoc, List.singleton_append,
      operand_of_group ho, Phrase.last_group]
    apply Yields.andThen
    apply ((hinner.yields (yields_done _ _)).andThen _).yields
    rw [expect_of_kind hc]
    exact ((yields_done _ _).andThen _).yields (yields_done _ _)

theorem expression_overflows {s : Stratum} (p : Phrase s) (bound : Precedence) (n : Nat)
    (rest : List Lexeme) (finish : Location) (hb : (Stratum.above bound).rank ≤ s.rank)
    (hf : (Cursor.mk rest finish).current.kind.precedence.rank ≤ s.rank) (hl : n < p.levels) :
    (expression bound n ⟨p.lexemes ++ rest, finish⟩).Overflows := by
  induction p generalizing bound n rest with
  | @binary s left operator h right ihl ihr =>
    have hr := Stratum.rank_of_mem_operators h
    have hlt := Stratum.lt_of_mem_operators h hb
    rw [Phrase.lexemes, List.append_assoc, List.cons_append]
    by_cases hleft : n < left.levels
    · exact ihl bound n _ hb (Nat.le_of_eq hr) hleft
    · have hpos := left.levels_pos
      obtain ⟨m, rfl⟩ : ∃ m, n = m + 1 := ⟨n - 1, by omega⟩
      have hlr : m + 1 < 1 + (left.spine + 1) + right.levels := by
        simp only [Phrase.levels] at hl
        omega
      apply (expression_agrees_climb left bound m (operator :: (right.lexemes ++ rest)) finish hb
        (Nat.le_of_eq hr) (by omega)).overflows
      cases hk : m - left.spine with
      | zero => exact climb_zero_overflows hlt _
      | succ k =>
        rw [climb_succ_of_lt hlt]
        refine (ihr operator.kind.precedence k rest ?_ ?_ (by omega)).andThen _
        · exact Nat.le_of_eq (congrArg Stratum.rank (Stratum.above_of_mem_operators h))
        · exact Nat.le_trans hf (Stratum.rank_le_rank_tighter s)
  | @lone s h inner ih =>
    exact ih bound n rest (Nat.le_trans hb (Stratum.rank_le_rank_tighter s))
      (Nat.le_trans hf (Stratum.rank_le_rank_tighter s)) hl
  | unary operator h right ih =>
    have hl' : n < 1 + right.levels := hl
    cases n with
    | zero => exact expression_zero_overflows _ _
    | succ n =>
      apply (agrees_expression_succ bound n _).overflows
      apply Overflows.andThen
      rw [Phrase.lexemes, List.cons_append, operand_of_unary h]
      exact (ih .unary n rest (Nat.le_refl _) hf (by omega)).andThen _
  | identifier lexeme h =>
    obtain rfl : n = 0 := Nat.lt_one_iff.mp hl
    exact expression_zero_overflows _ _
  | integer lexeme value h hv =>
    obtain rfl : n = 0 := Nat.lt_one_iff.mp hl
    exact expression_zero_overflows _ _
  | boolean lexeme value h =>
    obtain rfl : n = 0 := Nat.lt_one_iff.mp hl
    exact expression_zero_overflows _ _
  | group opening ho inner closing hc ih =>
    have hl' : n < 1 + inner.levels := hl
    cases n with
    | zero => exact expression_zero_overflows _ _
    | succ n =>
      have hlow : (Cursor.mk (closing :: rest) finish).current.kind.precedence.rank = 0 := by
        rw [current_cons, hc]
        rfl
      apply (agrees_expression_succ bound n _).overflows
      apply Overflows.andThen
      rw [Phrase.lexemes, List.cons_append, List.append_assoc, List.singleton_append,
        operand_of_group ho]
      exact (ih .lowest n (closing :: rest) (Nat.le_refl _) (by omega) (by omega)).andThen _

theorem wholeExpression_yields (p : Phrase .equality) {rest : List Lexeme} {finish : Location}
    (hf : (Cursor.mk rest finish).current.kind.precedence = .lowest) (hl : p.levels ≤ levelLimit) :
    (Cursor.mk (p.lexemes ++ rest) finish).wholeExpression.Yields p.tree
      ⟨p.last :: rest, finish⟩ := by
  have hr : (Cursor.mk rest finish).current.kind.precedence.rank = 0 := by rw [hf]; rfl
  have h := expression_agrees_climb p .lowest 255 rest finish (Nat.le_refl _) (by omega) hl
  rw [climb_stops (Nat.le_of_eq hr)] at h
  exact h.yields (yields_done _ _)

theorem wholeExpression_overflows (p : Phrase .equality) {rest : List Lexeme} {finish : Location}
    (hf : (Cursor.mk rest finish).current.kind.precedence = .lowest) (hl : levelLimit < p.levels) :
    (Cursor.mk (p.lexemes ++ rest) finish).wholeExpression.Overflows := by
  have hr : (Cursor.mk rest finish).current.kind.precedence.rank = 0 := by rw [hf]; rfl
  exact expression_overflows p .lowest levelLimit rest finish (Nat.le_refl _) (by omega) hl

/-- An expression is read to its end exactly if it takes no more than 256 levels. A deeper one draws
a single diagnostic. -/
theorem wholeExpression_of_phrase (p : Phrase .equality) (rest : List Lexeme) (finish : Location)
    (h : ∀ s : Stratum, (Cursor.mk rest finish).current.kind ∉ s.operators) :
    (p.levels ≤ 256 →
      (Cursor.mk (p.lexemes ++ rest) finish).wholeExpression.Yields p.tree
        ⟨p.last :: rest, finish⟩) ∧
    (256 < p.levels →
      (Cursor.mk (p.lexemes ++ rest) finish).wholeExpression.value = none ∧
      ∃ d, (Cursor.mk (p.lexemes ++ rest) finish).wholeExpression.diagnostics = [d] ∧
        d.reason.message = "expression nested too deeply") := by
  have hf := Stratum.precedence_eq_lowest h
  refine ⟨wholeExpression_yields p hf, fun hl => ?_⟩
  obtain ⟨hv, location, hd⟩ := wholeExpression_overflows p hf hl
  exact ⟨hv, ⟨location, .tooDeep⟩, hd, rfl⟩

theorem wholeExpression_of_phrase_group :
    (Cursor.mk [⟨⟨1, 1⟩, ⟨.lparen, .text "("⟩⟩, ⟨⟨1, 2⟩, ⟨.identifier, .text "a"⟩⟩,
      ⟨⟨1, 3⟩, ⟨.rparen, .text ")"⟩⟩,
      ⟨⟨1, 4⟩, ⟨.semicolon, .text ";"⟩⟩] ⟨1, 4⟩).wholeExpression.Yields
      (.identifier ⟨⟨.identifier, .text "a"⟩, .text "a"⟩)
      ⟨[⟨⟨1, 3⟩, ⟨.rparen, .text ")"⟩⟩, ⟨⟨1, 4⟩, ⟨.semicolon, .text ";"⟩⟩], ⟨1, 4⟩⟩ :=
  (wholeExpression_of_phrase
    (Phrase.whole (.group ⟨⟨1, 1⟩, ⟨.lparen, .text "("⟩⟩ rfl
      (Phrase.whole (.identifier ⟨⟨1, 2⟩, ⟨.identifier, .text "a"⟩⟩ rfl))
      ⟨⟨1, 3⟩, ⟨.rparen, .text ")"⟩⟩ rfl))
    [⟨⟨1, 4⟩, ⟨.semicolon, .text ";"⟩⟩] ⟨1, 4⟩ (fun s => by cases s <;> decide)).1 (by decide)

end MonkeyFrontend.Cursor
