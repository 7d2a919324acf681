import MonkeyFrontend.Lexeme
import MonkeyFrontend.Precedence
import MonkeyFrontend.Tree.Basic

namespace MonkeyFrontend

inductive Stratum where
  | equality
  | comparison
  | sum
  | product
  | unary
  | primary
deriving DecidableEq, Repr

namespace Stratum

def tighter : Stratum → Stratum
  | equality => comparison
  | comparison => sum
  | sum => product
  | product => unary
  | unary => primary
  | primary => primary

def operators : Stratum → List TokenKind
  | equality => [.eq, .notEq]
  | comparison => [.lt, .gt]
  | sum => [.plus, .minus]
  | product => [.asterisk, .slash]
  | unary => []
  | primary => []

def outer : List TokenKind := [.letKeyword, .returnKeyword, .assign, .semicolon, .eof]

def rank : Stratum → Nat
  | equality => 1
  | comparison => 2
  | sum => 3
  | product => 4
  | unary => 5
  | primary => 6

/-- The stratum of what is read up to an operator that binds no tighter than a bound. -/
def above : Precedence → Stratum
  | .lowest => equality
  | .equals => comparison
  | .lessGreater => sum
  | .sum => product
  | .product => unary
  | .unary => unary

def joining : Precedence → Stratum
  | .lowest => primary
  | .equals => equality
  | .lessGreater => comparison
  | .sum => sum
  | .product => product
  | .unary => primary

theorem rank_tighter {s : Stratum} (h : s ≠ primary) : s.tighter.rank = s.rank + 1 := by
  cases s <;> first | rfl | exact absurd rfl h

theorem rank_le_rank_tighter (s : Stratum) : s.rank ≤ s.tighter.rank := by
  cases s <;> decide

theorem rank_le_primary (s : Stratum) : s.rank ≤ primary.rank := by
  cases s <;> decide

theorem rank_injective {s t : Stratum} (h : s.rank = t.rank) : s = t := by
  revert h
  cases s <;> cases t <;> decide

theorem rank_of_mem_operators {s : Stratum} {kind : TokenKind} (h : kind ∈ s.operators) :
    kind.precedence.rank = s.rank := by
  revert h
  cases s <;> cases kind <;> decide

theorem lt_of_mem_operators {s : Stratum} {kind : TokenKind} {bound : Precedence}
    (h : kind ∈ s.operators) (hb : (above bound).rank ≤ s.rank) : bound < kind.precedence := by
  revert h hb
  cases s <;> cases kind <;> cases bound <;> decide

theorem above_of_mem_operators {s : Stratum} {kind : TokenKind} (h : kind ∈ s.operators) :
    above kind.precedence = s.tighter := by
  revert h
  cases s <;> cases kind <;> decide

theorem above_rank_le_of_lt {s : Stratum} {kind : TokenKind} {bound : Precedence}
    (h : kind ∈ s.operators) (hb : bound < kind.precedence) : (above bound).rank ≤ s.rank := by
  revert h hb
  cases s <;> cases kind <;> cases bound <;> decide

theorem mem_operators_joining {bound : Precedence} {kind : TokenKind}
    (h : bound < kind.precedence) : kind ∈ (joining kind.precedence).operators := by
  revert h
  cases kind <;> cases bound <;> decide

theorem not_outer_of_mem_operators {s : Stratum} {kind : TokenKind} (h : kind ∈ s.operators) :
    kind ∉ outer := by
  revert h
  cases s <;> cases kind <;> decide

theorem precedence_eq_lowest {kind : TokenKind} (h : ∀ s : Stratum, kind ∉ s.operators) :
    kind.precedence = .lowest := by
  have hn : ¬ Precedence.lowest < kind.precedence := fun hlt => h _ (mem_operators_joining hlt)
  exact Precedence.rank_injective (Nat.le_zero.mp (Nat.not_lt.mp hn))

end Stratum

/-- A derivation of an expression in a stratum. An operator joins an operand of its own stratum on
the left with a tighter one on the right, so that chains lean to the left. -/
inductive Phrase : Stratum → Type where
  | binary {s : Stratum} (left : Phrase s) (operator : Lexeme) (h : operator.kind ∈ s.operators)
      (right : Phrase s.tighter) : Phrase s
  | lone {s : Stratum} (h : s ≠ .primary) (inner : Phrase s.tighter) : Phrase s
  | unary (operator : Lexeme) (h : operator.kind = .bang ∨ operator.kind = .minus)
      (right : Phrase .unary) : Phrase .unary
  | identifier (lexeme : Lexeme) (h : lexeme.kind = .identifier) : Phrase .primary
  | integer (lexeme : Lexeme) (value : Int64) (h : lexeme.kind = .integer)
      (hv : lexeme.token.literal.integer? = some value) : Phrase .primary
  | boolean (lexeme : Lexeme) (value : Bool)
      (h : lexeme.kind = if value then .trueKeyword else .falseKeyword) : Phrase .primary
  | group (opening : Lexeme) (ho : opening.kind = .lparen) (inner : Phrase .equality)
      (closing : Lexeme) (hc : closing.kind = .rparen) : Phrase .primary

namespace Phrase

def lexemes : {s : Stratum} → Phrase s → List Lexeme
  | _, binary left operator _ right => left.lexemes ++ operator :: right.lexemes
  | _, lone _ inner => inner.lexemes
  | _, unary operator _ right => operator :: right.lexemes
  | _, identifier lexeme _ => [lexeme]
  | _, integer lexeme _ _ _ => [lexeme]
  | _, boolean lexeme _ _ => [lexeme]
  | _, group opening _ inner closing _ => opening :: (inner.lexemes ++ [closing])

def tree : {s : Stratum} → Phrase s → Expression
  | _, binary left operator _ right =>
    .binary operator.token operator.token.literal.render left.tree right.tree
  | _, lone _ inner => inner.tree
  | _, unary operator _ right => .unary operator.token operator.token.literal.render right.tree
  | _, identifier lexeme _ => .identifier ⟨lexeme.token, lexeme.token.literal⟩
  | _, integer lexeme value _ _ => .integer lexeme.token (some value)
  | _, boolean lexeme value _ => .boolean lexeme.token value
  | _, group _ _ inner _ _ => inner.tree

/-- How many operators follow the first operand of a phrase, outside of parentheses. -/
def spine : {s : Stratum} → Phrase s → Nat
  | _, binary left _ _ _ => left.spine + 1
  | _, lone _ inner => inner.spine
  | _, unary _ _ _ => 0
  | _, identifier _ _ => 0
  | _, integer _ _ _ _ => 0
  | _, boolean _ _ _ => 0
  | _, group _ _ _ _ _ => 0

/-- How many levels a phrase takes. The operand after the `i`-th operator of the spine lies `1 + i`
levels deep. -/
def levels : {s : Stratum} → Phrase s → Nat
  | _, binary left _ _ right => max left.levels (1 + (left.spine + 1) + right.levels)
  | _, lone _ inner => inner.levels
  | _, unary _ _ right => 1 + right.levels
  | _, identifier _ _ => 1
  | _, integer _ _ _ _ => 1
  | _, boolean _ _ _ => 1
  | _, group _ _ inner _ _ => 1 + inner.levels

theorem lexemes_ne_nil {s : Stratum} (p : Phrase s) : p.lexemes ≠ [] := by
  induction p with
  | binary left operator h right => simp [lexemes]
  | lone h inner ih => exact ih
  | unary operator h right => simp [lexemes]
  | identifier lexeme h => simp [lexemes]
  | integer lexeme value h hv => simp [lexemes]
  | boolean lexeme value h => simp [lexemes]
  | group opening ho inner closing hc => simp [lexemes]

def first {s : Stratum} (p : Phrase s) : Lexeme := p.lexemes.head p.lexemes_ne_nil

def last {s : Stratum} (p : Phrase s) : Lexeme := p.lexemes.getLast p.lexemes_ne_nil

theorem levels_pos {s : Stratum} (p : Phrase s) : 0 < p.levels := by
  induction p with
  | binary left operator h right ihl ihr => exact Nat.lt_of_lt_of_le ihl (Nat.le_max_left _ _)
  | lone h inner ih => exact ih
  | unary operator h right ih => simp only [levels]; omega
  | identifier lexeme h => exact Nat.one_pos
  | integer lexeme value h hv => exact Nat.one_pos
  | boolean lexeme value h => exact Nat.one_pos
  | group opening ho inner closing hc ih => simp only [levels]; omega

theorem kind_not_mem_outer {s : Stratum} (p : Phrase s) :
    ∀ lexeme ∈ p.lexemes, lexeme.kind ∉ Stratum.outer := by
  induction p with
  | binary left operator h right ihl ihr =>
    intro lexeme hm
    obtain hm | hm := List.mem_append.mp hm
    · exact ihl lexeme hm
    · obtain rfl | hm := List.mem_cons.mp hm
      · exact Stratum.not_outer_of_mem_operators h
      · exact ihr lexeme hm
  | lone h inner ih => exact ih
  | unary operator h right ih =>
    intro lexeme hm
    obtain rfl | hm := List.mem_cons.mp hm
    · obtain h | h := h <;> simp [h, Stratum.outer]
    · exact ih lexeme hm
  | identifier lexeme h => simp [lexemes, h, Stratum.outer]
  | integer lexeme value h hv => simp [lexemes, h, Stratum.outer]
  | boolean lexeme value h => cases value <;> simp [lexemes, h, Stratum.outer]
  | group opening ho inner closing hc ih =>
    intro lexeme hm
    simp only [lexemes, List.mem_cons, List.mem_append, List.not_mem_nil, or_false] at hm
    obtain rfl | hm | rfl := hm
    · simp [ho, Stratum.outer]
    · exact ih lexeme hm
    · simp [hc, Stratum.outer]

theorem cons_tail_lexemes {s : Stratum} (p : Phrase s) : p.first :: p.lexemes.tail = p.lexemes :=
  List.cons_head_tail _

theorem last_binary {s : Stratum} (left : Phrase s) (operator : Lexeme)
    (h : operator.kind ∈ s.operators) (right : Phrase s.tighter) :
    (binary left operator h right).last = right.last := by
  simp only [last, lexemes]
  rw [List.getLast_append_of_ne_nil _ (by simp), List.getLast_cons right.lexemes_ne_nil]

theorem last_unary (operator : Lexeme) (h : operator.kind = .bang ∨ operator.kind = .minus)
    (right : Phrase .unary) : (unary operator h right).last = right.last :=
  List.getLast_cons right.lexemes_ne_nil

theorem last_group (opening : Lexeme) (ho : opening.kind = .lparen) (inner : Phrase .equality)
    (closing : Lexeme) (hc : closing.kind = .rparen) :
    (group opening ho inner closing hc).last = closing := by
  simp only [last, lexemes]
  rw [List.getLast_cons (by simp), List.getLast_concat]

theorem last_congr {s t : Stratum} {p : Phrase s} {q : Phrase t} (h : p.lexemes = q.lexemes) :
    p.last = q.last := by
  simp only [last, h]

/-- A phrase may stand where a looser one is asked for. -/
theorem exists_looser {s t : Stratum} (p : Phrase t) (h : s.rank ≤ t.rank) :
    ∃ q : Phrase s, q.lexemes = p.lexemes ∧ q.tree = p.tree ∧ q.levels = p.levels ∧
      q.spine = p.spine := by
  induction hd : t.rank - s.rank generalizing s with
  | zero =>
    obtain rfl : s = t := Stratum.rank_injective (by omega)
    exact ⟨p, rfl, rfl, rfl, rfl⟩
  | succ d ih =>
    have hs : s ≠ .primary := by
      rintro rfl
      have := t.rank_le_primary
      omega
    have hr := Stratum.rank_tighter hs
    obtain ⟨q, hq⟩ := ih (s := s.tighter) (by omega) (by omega)
    exact ⟨lone hs q, hq⟩

def whole (p : Phrase .primary) : Phrase .equality :=
  .lone (by decide) (.lone (by decide) (.lone (by decide) (.lone (by decide)
    (.lone (by decide) p))))

@[simp]
theorem tree_whole (p : Phrase .primary) : p.whole.tree = p.tree := rfl

@[simp]
theorem levels_whole (p : Phrase .primary) : p.whole.levels = p.levels := rfl

end Phrase

end MonkeyFrontend
