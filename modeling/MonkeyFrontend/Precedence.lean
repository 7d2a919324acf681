import MonkeyFrontend.Token

namespace MonkeyFrontend

inductive Precedence where
  | lowest
  | equals
  | lessGreater
  | sum
  | product
  | unary
deriving DecidableEq, Repr

namespace Precedence

def rank : Precedence → Nat
  | lowest => 0
  | equals => 1
  | lessGreater => 2
  | sum => 3
  | product => 4
  | unary => 5

instance : LT Precedence := ⟨fun p q => p.rank < q.rank⟩

instance (p q : Precedence) : Decidable (p < q) := inferInstanceAs (Decidable (p.rank < q.rank))

theorem lt_def {p q : Precedence} : p < q ↔ p.rank < q.rank := Iff.rfl

theorem rank_injective {p q : Precedence} (h : p.rank = q.rank) : p = q := by
  revert h
  cases p <;> cases q <;> decide

def name : Precedence → String
  | lowest => "Lowest"
  | equals => "Equals"
  | lessGreater => "LessGreater"
  | sum => "Sum"
  | product => "Product"
  | unary => "Prefix"

end Precedence

def TokenKind.precedence : TokenKind → Precedence
  | .eq | .notEq => .equals
  | .lt | .gt => .lessGreater
  | .plus | .minus => .sum
  | .asterisk | .slash => .product
  | _ => .lowest

end MonkeyFrontend
