import Mathlib.Order.Monotone.Basic
import Mathlib.Tactic.Ring
import MonkeyFrontend.Proofs.Parsing.Wholeness
import MonkeyFrontend.Proofs.RoundTrip

namespace MonkeyFrontend

def Expression.height : Expression → Nat
  | identifier _ => 1
  | integer _ _ => 1
  | boolean _ _ => 1
  | unary _ _ right => 1 + right.height
  | unaryOpen _ _ => 1
  | binary _ _ left right => 1 + max left.height right.height
  | binaryOpen _ _ left => 1 + left.height

namespace Lexeme

def isOperator (lexeme : Lexeme) : Bool :=
  lexeme.kind ∈ [.bang, .minus, .plus, .asterisk, .slash, .lt, .gt, .eq, .notEq]

theorem isOperator_of_mem {lexeme : Lexeme} {s : Stratum} (h : lexeme.kind ∈ s.operators) :
    lexeme.isOperator = true := by
  rw [isOperator]
  revert h
  cases s <;> cases lexeme.kind <;> decide

theorem isOperator_of_sign {lexeme : Lexeme} (h : lexeme.kind = .bang ∨ lexeme.kind = .minus) :
    lexeme.isOperator = true := by
  obtain h | h := h <;> simp [isOperator, h]

end Lexeme

/-- The height that an operand comes to in so many levels. A sign makes it higher by one, but a
group may hold a chain that uses up the levels left, and these are given back where it closes. -/
def operandHeight : Nat → Nat
  | 0 => 0
  | n + 1 => operandHeight n + max 1 (n - 2)

/-- The height that an expression comes to in so many levels: an operand that is followed by as many
operators as the levels allow. -/
def tallest (n : Nat) : Nat := operandHeight n + (n - 2)

theorem operandHeight_lt_succ (n : Nat) : operandHeight n < operandHeight (n + 1) := by
  rw [operandHeight]
  omega

theorem operandHeight_mono {m n : Nat} (h : m ≤ n) : operandHeight m ≤ operandHeight n :=
  monotone_nat_of_le_succ (fun n => (operandHeight_lt_succ n).le) h

theorem tallest_le_operandHeight_succ (n : Nat) : tallest n ≤ operandHeight (n + 1) := by
  rw [tallest, operandHeight]
  omega

theorem tallest_mono {m n : Nat} (h : m ≤ n) : tallest m ≤ tallest n :=
  Nat.add_le_add (operandHeight_mono h) (by omega)

theorem two_mul_operandHeight (n : Nat) : 2 * operandHeight (n + 3) = n * (n + 1) + 6 := by
  induction n with
  | zero => rfl
  | succ n ih =>
    have hn : max 1 (n + 3 - 2) = n + 1 := by omega
    rw [operandHeight, hn, Nat.mul_add, ih]
    ring

theorem two_mul_tallest (n : Nat) : 2 * tallest (n + 3) = (n + 1) * (n + 2) + 6 := by
  have hn : n + 3 - 2 = n + 1 := by omega
  rw [tallest, hn, Nat.mul_add, two_mul_operandHeight]
  ring

theorem tallest_levelLimit : tallest Cursor.levelLimit = 32388 := by
  have h := two_mul_tallest 253
  rw [Cursor.levelLimit]
  norm_num at h
  -- left as they are, the closed terms would be evaluated
  generalize tallest 256 = height at h ⊢
  omega

namespace Phrase

theorem spine_eq_zero {s : Stratum} (p : Phrase s) (h : Stratum.unary.rank ≤ s.rank) :
    p.spine = 0 := by
  induction p with
  | @binary s left operator ho right ihl ihr =>
    have hnone : s.operators = [] := by cases s <;> simp_all [Stratum.rank, Stratum.operators]
    rw [hnone] at ho
    cases ho
  | @lone s hs inner ih => exact ih (Nat.le_trans h (Stratum.rank_le_rank_tighter s))
  | _ => rfl

theorem spine_le_levels {s : Stratum} (p : Phrase s) : p.spine ≤ p.levels - 2 := by
  induction p with
  | binary left operator h right ihl ihr =>
    have hpos := right.levels_pos
    simp only [spine, levels]
    omega
  | lone h inner ih => exact ih
  | _ => exact Nat.zero_le _

/-- Each operator of the spine makes the tree of a phrase higher by at most one. -/
theorem height_tree_le {s : Stratum} (p : Phrase s) :
    p.tree.height ≤ p.spine + operandHeight p.levels := by
  induction p with
  | binary left operator h right ihl ihr =>
    have hspine := right.spine_le_levels
    have hleft : operandHeight left.levels ≤ operandHeight (binary left operator h right).levels :=
      operandHeight_mono (Nat.le_max_left _ _)
    have hright : operandHeight (right.levels + 1) ≤
        operandHeight (binary left operator h right).levels := by
      apply operandHeight_mono
      simp only [levels]
      omega
    have htall := tallest_le_operandHeight_succ right.levels
    simp only [tallest] at htall
    simp only [tree, Expression.height, spine]
    omega
  | lone h inner ih => exact ih
  | unary operator h right ih =>
    have hspine : right.spine = 0 := right.spine_eq_zero (Nat.le_refl _)
    have hlt := operandHeight_lt_succ right.levels
    rw [hspine] at ih
    simp only [tree, Expression.height, spine, levels, Nat.add_comm 1 right.levels]
    omega
  | group opening ho inner closing hc ih =>
    have hspine := inner.spine_le_levels
    have htall := tallest_le_operandHeight_succ inner.levels
    simp only [tallest] at htall
    simp only [tree, spine, levels, Nat.add_comm 1 inner.levels]
    omega
  | _ => exact Nat.le_refl 1

theorem height_tree_le_tallest {s : Stratum} (p : Phrase s) : p.tree.height ≤ tallest p.levels := by
  have hspine := p.spine_le_levels
  have hheight := p.height_tree_le
  rw [tallest]
  omega

theorem height_tree_le_operators {s : Stratum} (p : Phrase s) :
    p.tree.height ≤ 1 + p.lexemes.countP Lexeme.isOperator := by
  induction p with
  | binary left operator h right ihl ihr =>
    have ho : operator.isOperator = true := Lexeme.isOperator_of_mem h
    simp only [tree, Expression.height, lexemes, List.countP_append, List.countP_cons_of_pos ho]
    omega
  | lone h inner ih => exact ih
  | unary operator h right ih =>
    have ho : operator.isOperator = true := Lexeme.isOperator_of_sign h
    simp only [tree, Expression.height, lexemes, List.countP_cons_of_pos ho]
    omega
  | group opening ho inner closing hc ih =>
    have hsub : inner.lexemes.Sublist (group opening ho inner closing hc).lexemes :=
      .cons opening (List.sublist_append_left _ _)
    exact Nat.le_trans ih (Nat.add_le_add_left hsub.countP_le 1)
  | _ => exact Nat.le_add_right 1 _

end Phrase

theorem Sentence.height_le_operators {sentence : Sentence} {e : Expression}
    (h : sentence.tree.value? = some e) :
    e.height ≤ 1 + sentence.lexemes.countP Lexeme.isOperator := by
  obtain ⟨p, hp, rfl⟩ :
      ∃ p : Phrase .equality, p.lexemes.Sublist sentence.lexemes ∧ p.tree = e := by
    cases sentence with
    | letBinding keyword hk name hn sign hs value terminator =>
      have hsub := List.sublist_append_left value.lexemes terminator.lexemes
      exact ⟨value, .cons _ (.cons _ (.cons _ hsub)), Option.some.inj h⟩
    | returnValue keyword hk value terminator =>
      obtain ⟨p, rfl, hp⟩ := Option.map_eq_some_iff.mp h
      exact ⟨p, .cons _ (List.sublist_append_left p.lexemes terminator.lexemes), hp⟩
    | expression value terminator =>
      exact ⟨value, List.sublist_append_left _ _, Option.some.inj h⟩
    | empty semicolon hs => cases h
  exact Nat.le_trans p.height_tree_le_operators (Nat.add_le_add_left hp.countP_le 1)

namespace Cursor

/-- A tree that is read comes from a phrase with levels enough for it. -/
theorem height_of_wholeExpression {c d : Cursor} {e : Expression}
    (h : c.wholeExpression.Yields e d) : e.height ≤ tallest levelLimit := by
  obtain ⟨rest, finish⟩ := c
  have hp : ∃ p : Phrase .equality, p.Spans ⟨rest, finish⟩ d ∧ p.tree = e ∧ _ :=
    (derives_expression_climb levelLimit).1 .lowest _ _ _ h
  obtain ⟨p, ⟨tail, rfl, rfl⟩, rfl, hstop⟩ := hp
  have hfollow : (Cursor.mk tail finish).current.kind.precedence = .lowest :=
    Precedence.rank_injective (Nat.le_zero.mp (Nat.not_lt.mp hstop))
  have hlevels : p.levels ≤ levelLimit := by
    by_contra hl
    have hnone := (wholeExpression_overflows p hfollow (Nat.not_le.mp hl)).1
    rw [h.value] at hnone
    cases hnone
  exact Nat.le_trans p.height_tree_le_tallest (tallest_mono hlevels)

theorem exists_wholeExpression_of_statement {c d : Cursor} {s : Statement} {e : Expression}
    (h : c.statement.Yields s d) (he : s.value? = some e) :
    ∃ c' d' : Cursor, c'.wholeExpression.Yields e d' := by
  rw [statement, Outcome.yields_after_iff rfl] at h
  split at h
  · obtain ⟨name, c₁, -, h⟩ := Outcome.yields_andThen_iff.mp h
    obtain ⟨sign, c₂, -, h⟩ := Outcome.yields_andThen_iff.mp h
    obtain ⟨value, c₃, hvalue, h⟩ := Outcome.yields_andThen_iff.mp h
    obtain ⟨rfl, -⟩ := Outcome.yields_done_iff.mp h
    obtain rfl : value = e := Option.some.inj he
    exact ⟨_, _, hvalue⟩
  · rw [returnValue] at h
    split at h
    · obtain ⟨rfl, -⟩ := Outcome.yields_done_iff.mp h
      cases he
    · obtain ⟨value, c₁, hvalue, h⟩ := Outcome.yields_andThen_iff.mp h
      obtain ⟨rfl, -⟩ := Outcome.yields_done_iff.mp h
      obtain rfl : value = e := Option.some.inj he
      exact ⟨_, _, hvalue⟩
  · obtain ⟨rfl, -⟩ := Outcome.yields_done_iff.mp h
    cases he
  · obtain ⟨value, c₁, hvalue, h⟩ := Outcome.yields_andThen_iff.mp h
    obtain ⟨rfl, -⟩ := Outcome.yields_done_iff.mp h
    obtain rfl : value = e := Option.some.inj he
    exact ⟨_, _, hvalue⟩

end Cursor

theorem Expression.height_pos (e : Expression) : 0 < e.height := by
  cases e with
  | identifier name => exact Nat.one_pos
  | integer token value => exact Nat.one_pos
  | boolean token value => exact Nat.one_pos
  | unary token operator right => simp only [height]; omega
  | unaryOpen token operator => exact Nat.one_pos
  | binary token operator left right => simp only [height]; omega
  | binaryOpen token operator left => simp only [height]; omega

namespace Phrase

/-- The operand that the phrases below are built from. -/
def leaf : Phrase .primary := .identifier ⟨.start, ⟨.identifier, .text "a"⟩⟩ rfl

theorem exists_chain {first : Phrase .equality} {n : Nat} (hs : first.spine = 0)
    (hl : first.levels ≤ n) (k : Nat) (hk : k + 2 ≤ n) :
    ∃ p : Phrase .equality, p.spine = k ∧ p.levels ≤ n ∧
      p.tree.height = first.tree.height + k := by
  induction k with
  | zero => exact ⟨first, hs, hl, rfl⟩
  | succ k ih =>
    obtain ⟨left, hspine, hlevels, hheight⟩ := ih (by omega)
    obtain ⟨right, -, htree, hright, -⟩ :=
      exists_looser (s := Stratum.equality.tighter) leaf (by decide)
    have hlevel : right.levels = 1 := hright
    have hleaf : right.tree.height = 1 := congrArg Expression.height htree
    have hpos := first.tree.height_pos
    refine ⟨.binary left ⟨.start, ⟨.eq, .text "=="⟩⟩ (by decide) right, ?_, ?_, ?_⟩
    · simp only [spine, hspine]
    · simp only [levels, hspine, hlevel]
      omega
    · simp only [tree, Expression.height, hheight, hleaf]
      omega

/-- A tower of groups, each a chain over the one below that is as long as its levels allow. -/
theorem exists_tower (j : Nat) :
    ∃ p : Phrase .equality, p.spine = 0 ∧ p.levels ≤ j + 3 ∧
      p.tree.height = operandHeight (j + 3) := by
  induction j with
  | zero =>
    let minus : Lexeme := ⟨.start, ⟨.minus, .text "-"⟩⟩
    let signed : Phrase .unary := .unary minus (.inr rfl) (.unary minus (.inr rfl)
      (.lone (by decide) leaf))
    obtain ⟨p, -, htree, hlevels, hspine⟩ := exists_looser (s := .equality) signed (by decide)
    exact ⟨p, hspine, hlevels.le, congrArg Expression.height htree⟩
  | succ j ih =>
    obtain ⟨below, hspine, hlevels, hheight⟩ := ih
    obtain ⟨p, -, hl, hh⟩ := exists_chain hspine hlevels (j + 1) (Nat.le_refl _)
    let tower : Phrase .primary :=
      .group ⟨.start, ⟨.lparen, .text "("⟩⟩ rfl p ⟨.start, ⟨.rparen, .text ")"⟩⟩ rfl
    have hmax : max 1 (j + 3 - 2) = j + 1 := by omega
    refine ⟨tower.whole, rfl, ?_, ?_⟩
    · simp only [levels_whole, tower, levels]
      omega
    · rw [operandHeight, hmax, ← hheight]
      exact hh

theorem exists_height_eq_tallest (n : Nat) :
    ∃ p : Phrase .equality, p.levels ≤ n + 3 ∧ p.tree.height = tallest (n + 3) := by
  obtain ⟨tower, hspine, hlevels, hheight⟩ := exists_tower n
  obtain ⟨p, -, hl, hh⟩ := exists_chain hspine hlevels (n + 1) (Nat.le_refl _)
  exact ⟨p, hl, hh.trans (congrArg (· + (n + 1)) hheight)⟩

end Phrase

theorem Parser.statements_of_phrase {p : Phrase .equality} (h : p.levels ≤ Cursor.levelLimit) :
    (Parser.ofLexemes (p.lexemes ++ [.finish .start])).read.1.statements =
      [.expression p.first.token (some p.tree)] := by
  have hsegments : _ ∧ _ := Cursor.segments_of_sentences [.expression p none] [.finish .start]
    .start (by simp) (by simpa [Sentence.value?] using h) rfl
  simp only [Parser.read, Parser.ofLexemes, Cursor.ofLexemes_finish]
  simpa [Sentence.lexemes, Terminator.lexemes, Sentence.tree] using hsegments.1

theorem Parser.height_le_tallest {parser : Parser} {s : Statement} {e : Expression}
    (hs : s ∈ parser.read.1.statements) (he : s.value? = some e) :
    e.height ≤ tallest Cursor.levelLimit := by
  obtain ⟨c, d, -, hy⟩ := Parser.exists_yields hs
  obtain ⟨c', d', hvalue⟩ := Cursor.exists_wholeExpression_of_statement hy he
  exact Cursor.height_of_wholeExpression hvalue

theorem Parser.forall_height_le_iff (bound : Nat) :
    (∀ (parser : Parser) (s : Statement) (e : Expression), s ∈ parser.read.1.statements →
      s.value? = some e → e.height ≤ bound) ↔ 32388 ≤ bound := by
  rw [← tallest_levelLimit]
  constructor
  · intro h
    obtain ⟨p, hlevels, hheight⟩ := Phrase.exists_height_eq_tallest 253
    have hs := Parser.statements_of_phrase hlevels
    exact hheight ▸ h _ _ p.tree (hs ▸ List.mem_singleton_self _) rfl
  · intro hbound parser s e hs he
    exact Nat.le_trans (Parser.height_le_tallest hs he) hbound

/-- The tree of a statement is at most one node higher than there are operators in the statement, so
that with no more than 255 of them it keeps to the limit on levels. Whatever their number it is at
most 32388 nodes high, and nothing less would do for all programs. -/
theorem Parser.height_of_read {parser : Parser} {s : Statement} {e : Expression}
    (hs : s ∈ parser.read.1.statements) (he : s.value? = some e) :
    (∃ sentence : Sentence, sentence.lexemes <:+: parser.cursor.rest ∧ sentence.tree = s ∧
      e.height ≤ 1 + sentence.lexemes.countP Lexeme.isOperator ∧
      (sentence.lexemes.countP Lexeme.isOperator ≤ 255 → e.height ≤ 256)) ∧
    e.height ≤ 32388 ∧
    ∀ bound : Nat, (∀ (parser : Parser) (s : Statement) (e : Expression),
      s ∈ parser.read.1.statements → s.value? = some e → e.height ≤ bound) → 32388 ≤ bound := by
  have hexact := Parser.forall_height_le_iff
  refine ⟨?_, (hexact 32388).mpr (Nat.le_refl _) parser s e hs he, fun bound => (hexact bound).mp⟩
  obtain ⟨c, d, hc, hy⟩ := Parser.exists_yields hs
  obtain ⟨sentence, ⟨last, rest, hrest, -⟩, rfl⟩ := Cursor.derives_statement hy
  have hinfix : sentence.lexemes <:+: parser.cursor.rest :=
    (List.prefix_append sentence.lexemes rest).isInfix.trans (hrest ▸ hc.rest).isInfix
  have hheight := Sentence.height_le_operators he
  exact ⟨sentence, hinfix, rfl, hheight, fun hfew => by omega⟩

theorem Parser.height_of_read_negated :
    let minus : Lexeme := ⟨⟨1, 1⟩, ⟨.minus, .text "-"⟩⟩
    let name : Lexeme := ⟨⟨1, 2⟩, ⟨.identifier, .text "a"⟩⟩
    let e : Expression := .unary minus.token "-" (.identifier ⟨name.token, name.token.literal⟩)
    let s : Statement := .expression minus.token (some e)
    s ∈ (Parser.ofLexemes [minus, name]).read.1.statements ∧ s.value? = some e ∧
      ∃ sentence : Sentence, sentence.lexemes <:+: [minus, name] ∧ sentence.tree = s ∧
        e.height ≤ 1 + sentence.lexemes.countP Lexeme.isOperator ∧
        (sentence.lexemes.countP Lexeme.isOperator ≤ 255 → e.height ≤ 256) := by
  intro minus name e s
  have hs : s ∈ (Parser.ofLexemes [minus, name]).read.1.statements := by decide +kernel
  exact ⟨hs, rfl, (Parser.height_of_read hs rfl).1⟩

/-- Two signs before a sum of 255 names give a tree higher than the limit on levels. -/
theorem Parser.height_of_signed_sum :
    let minus : Lexeme := ⟨.start, ⟨.minus, .text "-"⟩⟩
    let plus : Lexeme := ⟨.start, ⟨.plus, .text "+"⟩⟩
    let name : Lexeme := ⟨.start, ⟨.identifier, .text "a"⟩⟩
    let lexemes := minus :: minus :: name :: (List.replicate 254 [plus, name]).flatten ++
      [.finish .start]
    ¬ ∀ s ∈ (Parser.ofLexemes lexemes).read.1.statements, ∀ e ∈ s.value?.toList,
      e.height ≤ 256 := by
  decide +kernel

end MonkeyFrontend
