import MonkeyFrontend.Tree.Basic

namespace MonkeyFrontend

/-- What writing a tree leaves in a buffer, and the gap that stopped it if one did. -/
structure Written where
  buffer : String
  gap : Option Gap
deriving DecidableEq, Repr

namespace Written

def full (buffer : String) : Written := ⟨buffer, none⟩

def andThen (written : Written) (next : String → Written) : Written :=
  match written.gap with
  | none => next written.buffer
  | some _ => written

def text (written : Written) : Except Gap String :=
  match written.gap with
  | none => .ok written.buffer
  | some gap => .error gap

def behind (front : String) (written : Written) : Written :=
  ⟨front ++ written.buffer, written.gap⟩

@[simp]
theorem full_andThen (buffer : String) (next : String → Written) :
    (full buffer).andThen next = next buffer := rfl

theorem behind_andThen (front : String) (written : Written) (next : String → Written)
    (h : ∀ buffer, next (front ++ buffer) = (next buffer).behind front) :
    (written.behind front).andThen next = (written.andThen next).behind front := by
  obtain ⟨buffer, gap⟩ := written
  cases gap with
  | none => exact h buffer
  | some gap => rfl

end Written

/-- Writes an expression fully parenthesised. An operator without its right operand stops the
writing before anything of it is written. -/
def Expression.writeTo : Expression → String → Written
  | .identifier name, buffer => .full (buffer ++ name.value.render)
  | .integer _ (some value), buffer => .full (buffer ++ Numeral.write value)
  | .integer _ none, buffer => ⟨buffer, some (.missing .integerLiteral "value")⟩
  | .boolean _ value, buffer => .full (buffer ++ if value then "true" else "false")
  | .unary _ operator right, buffer =>
    (right.writeTo (buffer ++ "(" ++ operator)).andThen fun buffer => .full (buffer ++ ")")
  | .unaryOpen _ _, buffer => ⟨buffer, some (.missing .unaryExpression "right")⟩
  | .binary _ operator left right, buffer =>
    (left.writeTo (buffer ++ "(")).andThen fun buffer =>
      (right.writeTo (buffer ++ " " ++ operator ++ " ")).andThen fun buffer =>
        .full (buffer ++ ")")
  | .binaryOpen _ _ _, buffer => ⟨buffer, some (.missing .binaryExpression "right")⟩

theorem Expression.writeTo_append (e : Expression) (front buffer : String) :
    e.writeTo (front ++ buffer) = (e.writeTo buffer).behind front := by
  induction e generalizing buffer with
  | identifier name => simp [writeTo, Written.full, Written.behind, String.append_assoc]
  | integer token value =>
      cases value <;> simp [writeTo, Written.full, Written.behind, String.append_assoc]
  | boolean token value => simp [writeTo, Written.full, Written.behind, String.append_assoc]
  | unary token operator right ih =>
      rw [writeTo, writeTo, String.append_assoc, String.append_assoc, ih, ← String.append_assoc]
      apply Written.behind_andThen
      intro buffer
      simp [Written.full, Written.behind, String.append_assoc]
  | unaryOpen token operator => rfl
  | binary token operator left right ihl ihr =>
      rw [writeTo, writeTo, String.append_assoc, ihl]
      apply Written.behind_andThen
      intro buffer
      rw [String.append_assoc, String.append_assoc, String.append_assoc, ihr,
        ← String.append_assoc, ← String.append_assoc]
      apply Written.behind_andThen
      intro buffer
      simp [Written.full, Written.behind, String.append_assoc]
  | binaryOpen token operator left ih => rfl

def Expression.render (e : Expression) : Except Gap String :=
  (e.writeTo "").text

/-- Writes a statement. A let without its value stops the writing before anything of it is
written. -/
def Statement.writeTo : Statement → String → Written
  | .letBinding token name (some value), buffer =>
    (value.writeTo (buffer ++ token.literal.render ++ " " ++ name.value.render ++ " = ")).andThen
      fun buffer => .full (buffer ++ ";")
  | .letBinding _ _ none, buffer => ⟨buffer, some (.incomplete .letStatement "value")⟩
  | .returnValue token (some value), buffer =>
    (value.writeTo (buffer ++ token.literal.render ++ " ")).andThen
      fun buffer => .full (buffer ++ ";")
  | .returnValue token none, buffer => .full (buffer ++ token.literal.render ++ ";")
  | .expression _ (some value), buffer => value.writeTo buffer
  | .expression _ none, buffer => .full buffer

theorem Statement.writeTo_append (s : Statement) (front buffer : String) :
    s.writeTo (front ++ buffer) = (s.writeTo buffer).behind front := by
  have close (buffer : String) : Written.full (front ++ buffer ++ ";") =
      (Written.full (buffer ++ ";")).behind front := by
    simp [Written.full, Written.behind, String.append_assoc]
  cases s with
  | letBinding token name value =>
      cases value with
      | none => rfl
      | some value =>
          simp only [writeTo, String.append_assoc]
          rw [value.writeTo_append front]
          apply Written.behind_andThen
          exact close
  | returnValue token value =>
      cases value with
      | none => simp [writeTo, Written.full, Written.behind, String.append_assoc]
      | some value =>
          simp only [writeTo, String.append_assoc]
          rw [value.writeTo_append front]
          apply Written.behind_andThen
          exact close
  | expression token value =>
      cases value with
      | none => rfl
      | some value => exact value.writeTo_append front buffer

def Statement.render (s : Statement) : Except Gap String :=
  (s.writeTo "").text

def Program.writeTo (program : Program) (buffer : String) : Written :=
  program.statements.foldl (fun written s => written.andThen s.writeTo) (.full buffer)

def Program.render (program : Program) : Except Gap String :=
  (program.writeTo "").text

end MonkeyFrontend
