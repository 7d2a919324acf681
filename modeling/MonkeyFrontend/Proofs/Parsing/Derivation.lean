import MonkeyFrontend.Proofs.Grammar.Phrase
import MonkeyFrontend.Proofs.Parsing.Expression

namespace MonkeyFrontend

/-- A phrase lies between two cursors, the second standing on its last lexeme. -/
def Phrase.Spans {s : Stratum} (p : Phrase s) (c d : Cursor) : Prop :=
  ∃ rest, c.rest = p.lexemes ++ rest ∧ d = ⟨p.last :: rest, c.finish⟩

namespace Cursor

open Outcome

theorem yields_expect {c d : Cursor} {kind : TokenKind} {token : Token}
    (h : (c.expect kind).Yields token d) :
    c.peek.kind = kind ∧ c.peek.token = token ∧ c.advance = d := by
  rw [expect] at h
  split at h
  · rename_i hk
    exact ⟨hk, yields_done_iff.mp h⟩
  · exact absurd h not_yields_fail

theorem yields_integer {c d : Cursor} {e : Expression} (h : c.integer.Yields e d) :
    ∃ value, c.current.token.literal.integer? = some value ∧
      .integer c.current.token (some value) = e ∧ c = d := by
  cases hv : c.current.token.literal.integer? with
  | none =>
    have hd := h.diagnostics
    simp [integer, hv, diagnostics_after, Event.diagnostic?] at hd
  | some value =>
    rw [integer_of_readable hv] at h
    exact ⟨value, rfl, yields_done_iff.mp h⟩

def Derives (read : Precedence → Cursor → Outcome Expression) : Prop :=
  ∀ (bound : Precedence) (c d : Cursor) (e : Expression), (read bound c).Yields e d →
    ∃ p : Phrase (.above bound), p.Spans c d ∧ p.tree = e ∧ ¬ bound < d.peek.kind.precedence

theorem spans_looser {s t : Stratum} {p : Phrase t} {c d : Cursor} (h : p.Spans c d)
    (hs : s.rank ≤ t.rank) : ∃ q : Phrase s, q.Spans c d ∧ q.tree = p.tree := by
  obtain ⟨rest, hc, hd⟩ := h
  obtain ⟨q, hl, ht, -⟩ := p.exists_looser hs
  exact ⟨q, ⟨rest, by rw [hl, hc], by rw [Phrase.last_congr hl, hd]⟩, ht⟩

theorem spans_singleton {s : Stratum} {p : Phrase s} {lexeme : Lexeme} {rest : List Lexeme}
    {finish : Location} (h : p.lexemes = [lexeme]) :
    p.Spans ⟨lexeme :: rest, finish⟩ ⟨lexeme :: rest, finish⟩ :=
  ⟨rest, by rw [h]; rfl, by simp [Phrase.last, h]⟩

theorem derives_unary {inner : Precedence → Cursor → Outcome Expression} (h : Derives inner)
    {operator : Lexeme} {rest : List Lexeme} {finish : Location} {d : Cursor} {e : Expression}
    (hk : operator.kind = .bang ∨ operator.kind = .minus)
    (hy : (operand inner ⟨operator :: rest, finish⟩).Yields e d) :
    ∃ p : Phrase .unary, p.Spans ⟨operator :: rest, finish⟩ d ∧ p.tree = e := by
  rw [operand_of_unary hk] at hy
  obtain ⟨right, d', hr, hd⟩ := yields_andThen_iff.mp hy
  obtain ⟨rfl, rfl⟩ := yields_done_iff.mp hd
  have hp : ∃ p : Phrase .unary, p.Spans ⟨rest, finish⟩ d' ∧ p.tree = right ∧ _ :=
    h .unary _ _ _ hr
  obtain ⟨p, ⟨tail, hrest, hd'⟩, rfl, -⟩ := hp
  refine ⟨.unary operator hk p, ⟨tail, ?_, ?_⟩, rfl⟩
  · exact congrArg (operator :: ·) hrest
  · rw [Phrase.last_unary, hd']

theorem derives_group {inner : Precedence → Cursor → Outcome Expression} (h : Derives inner)
    {opening : Lexeme} {rest : List Lexeme} {finish : Location} {d : Cursor} {e : Expression}
    (hk : opening.kind = .lparen) (hy : (operand inner ⟨opening :: rest, finish⟩).Yields e d) :
    ∃ p : Phrase .primary, p.Spans ⟨opening :: rest, finish⟩ d ∧ p.tree = e := by
  rw [operand_of_group hk] at hy
  obtain ⟨e', d', he, hd⟩ := yields_andThen_iff.mp hy
  obtain ⟨token, d'', hx, hdone⟩ := yields_andThen_iff.mp hd
  obtain ⟨rfl, rfl⟩ := yields_done_iff.mp hdone
  obtain ⟨hc, -, rfl⟩ := yields_expect hx
  have hp : ∃ p : Phrase .equality, p.Spans ⟨rest, finish⟩ d' ∧ p.tree = e' ∧ _ :=
    h .lowest _ _ _ he
  obtain ⟨p, ⟨tail, hrest, rfl⟩, rfl, -⟩ := hp
  cases tail with
  | nil => cases hc
  | cons closing tail =>
    have hclosing : closing.kind = .rparen := hc
    have hr : rest = p.lexemes ++ closing :: tail := hrest
    refine ⟨.group opening hk p closing hclosing, ⟨tail, ?_, ?_⟩, rfl⟩
    · simp [hr, Phrase.lexemes]
    · rw [Phrase.last_group]
      rfl

theorem derives_operand {inner : Precedence → Cursor → Outcome Expression} (h : Derives inner)
    {c d : Cursor} {e : Expression} (hy : (operand inner c).Yields e d) :
    ∃ p : Phrase .unary, p.Spans c d ∧ p.tree = e := by
  obtain ⟨rest, finish⟩ := c
  cases rest with
  | nil => exact absurd hy not_yields_fail
  | cons lexeme rest =>
    cases hk : lexeme.kind with
    | identifier =>
      rw [operand_of_identifier hk] at hy
      obtain ⟨rfl, rfl⟩ := yields_done_iff.mp hy
      exact spans_looser (spans_singleton (p := .identifier lexeme hk) rfl) (by decide)
    | integer =>
      rw [operand_of_integer hk] at hy
      obtain ⟨value, hv, rfl, rfl⟩ := yields_integer hy
      exact spans_looser (spans_singleton (p := .integer lexeme value hk hv) rfl) (by decide)
    | trueKeyword =>
      rw [operand_of_boolean true hk] at hy
      obtain ⟨rfl, rfl⟩ := yields_done_iff.mp hy
      exact spans_looser (spans_singleton (p := .boolean lexeme true hk) rfl) (by decide)
    | falseKeyword =>
      rw [operand_of_boolean false hk] at hy
      obtain ⟨rfl, rfl⟩ := yields_done_iff.mp hy
      exact spans_looser (spans_singleton (p := .boolean lexeme false hk) rfl) (by decide)
    | bang => exact derives_unary h (.inl hk) hy
    | minus => exact derives_unary h (.inr hk) hy
    | lparen =>
      obtain ⟨p, hp, rfl⟩ := derives_group h hk hy
      exact spans_looser hp (by decide)
    | _ =>
      simp only [Lexeme.kind] at hk
      simp only [operand, current_cons, hk] at hy
      exact absurd hy not_yields_fail

theorem exists_cons_of_lt {bound : Precedence} {rest : List Lexeme} {finish : Location}
    (h : bound < (Cursor.mk rest finish).current.kind.precedence) :
    ∃ operator tail, rest = operator :: tail := by
  cases rest with
  | nil => exact absurd h (Nat.not_lt_zero _)
  | cons operator tail => exact ⟨operator, tail, rfl⟩

/-- Climbing goes on from a phrase to a phrase, as long as what comes next binds no tighter than the
stratum of the first. -/
def Extends (read : Precedence → Expression → Cursor → Outcome Expression) : Prop :=
  ∀ (bound : Precedence) (s : Stratum) (left : Phrase s) (c d d' : Cursor) (e : Expression),
    left.Spans c d → (Stratum.above bound).rank ≤ s.rank →
    d.peek.kind.precedence.rank ≤ s.rank → (read bound left.tree d).Yields e d' →
    ∃ p : Phrase (.above bound), p.Spans c d' ∧ p.tree = e ∧ ¬ bound < d'.peek.kind.precedence

theorem extends_of_stop {bound : Precedence} {s : Stratum} {left : Phrase s} {c d d' : Cursor}
    {e : Expression} (hl : left.Spans c d) (hb : (Stratum.above bound).rank ≤ s.rank)
    (hstop : ¬ bound < d.peek.kind.precedence) (hy : (Outcome.done left.tree d).Yields e d') :
    ∃ p : Phrase (.above bound), p.Spans c d' ∧ p.tree = e ∧
      ¬ bound < d'.peek.kind.precedence := by
  obtain ⟨rfl, rfl⟩ := yields_done_iff.mp hy
  obtain ⟨p, hp, ht⟩ := spans_looser hl hb
  exact ⟨p, hp, ht, hstop⟩

theorem extends_of_operator {n : Nat} (hexpression : Derives fun bound => expression bound n)
    (hclimb : Extends fun bound => climb bound n) {bound : Precedence} {s : Stratum}
    {left : Phrase s} {c d d' : Cursor} {e : Expression} (hl : left.Spans c d)
    (hf : d.peek.kind.precedence.rank ≤ s.rank) (hlt : bound < d.peek.kind.precedence)
    (hy : (climb bound (n + 1) left.tree d).Yields e d') :
    ∃ p : Phrase (.above bound), p.Spans c d' ∧ p.tree = e ∧
      ¬ bound < d'.peek.kind.precedence := by
  obtain ⟨rest, hc, rfl⟩ := hl
  obtain ⟨operator, tail, rfl⟩ := exists_cons_of_lt hlt
  rw [climb_succ_of_lt hlt, yields_andThen_iff] at hy
  obtain ⟨right, d₁, hright, hrest⟩ := hy
  have hmem : operator.kind ∈ (Stratum.joining operator.kind.precedence).operators :=
    Stratum.mem_operators_joining hlt
  generalize Stratum.joining operator.kind.precedence = t at hmem
  have hrank := Stratum.rank_of_mem_operators hmem
  have hq : ∃ q : Phrase t.tighter, q.Spans ⟨tail, c.finish⟩ d₁ ∧ q.tree = right ∧
      ¬ operator.kind.precedence < d₁.peek.kind.precedence := by
    rw [← Stratum.above_of_mem_operators hmem]
    exact hexpression _ _ _ _ hright
  obtain ⟨q, ⟨tail', htail, rfl⟩, rfl, hstop⟩ := hq
  have ht : t.rank ≤ s.rank := hrank ▸ hf
  obtain ⟨left', hlexemes, htree, -⟩ := left.exists_looser ht
  have hspans : (Phrase.binary left' operator hmem q).Spans c ⟨q.last :: tail', c.finish⟩ := by
    refine ⟨tail', ?_, ?_⟩
    · have htail' : tail = q.lexemes ++ tail' := htail
      rw [hc, htail', Phrase.lexemes, hlexemes, List.append_assoc, List.cons_append]
    · rw [Phrase.last_binary]
  apply hclimb bound t _ c _ d' e hspans (Stratum.above_rank_le_of_lt hmem hlt)
  · exact hrank ▸ Nat.not_lt.mp hstop
  · rw [Phrase.tree, htree]
    exact hrest

theorem derives_expression_climb (n : Nat) :
    Derives (fun bound => expression bound n) ∧ Extends (fun bound => climb bound n) := by
  induction n with
  | zero =>
    constructor
    · intro bound c d e hy
      have hv := hy.value
      rw [(expression_zero_overflows bound c).1] at hv
      cases hv
    · intro bound s left c d d' e hl hb hf hy
      dsimp only at hy
      by_cases hlt : bound < d.peek.kind.precedence
      · have hv := hy.value
        rw [(climb_zero_overflows hlt left.tree).1] at hv
        cases hv
      · rw [climb_of_not_lt hlt] at hy
        exact extends_of_stop hl hb hlt hy
  | succ n ih =>
    obtain ⟨hexpression, hclimb⟩ := ih
    constructor
    · intro bound c d e hy
      dsimp only at hy
      rw [expression, yields_after_iff rfl, yields_andThen_iff] at hy
      obtain ⟨first, d', hfirst, hrest⟩ := hy
      obtain ⟨p, hp, rfl⟩ := derives_operand hexpression hfirst
      refine hclimb bound .unary p c d' d e hp ?_ ?_ hrest
      · cases bound <;> decide
      · cases d'.peek.kind <;> decide
    · intro bound s left c d d' e hl hb hf hy
      dsimp only at hy
      by_cases hlt : bound < d.peek.kind.precedence
      · exact extends_of_operator hexpression hclimb hl hf hlt hy
      · rw [climb_of_not_lt hlt] at hy
        exact extends_of_stop hl hb hlt hy

end Cursor

end MonkeyFrontend
