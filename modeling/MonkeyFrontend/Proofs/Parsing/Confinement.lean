import MonkeyFrontend.Parsing.Segment
import MonkeyFrontend.Proofs.Parsing.Expression

namespace MonkeyFrontend

namespace Cursor

/-- From one cursor, stepping over lexemes that do not end a statement leads to the other. -/
structure Within (c d : Cursor) : Prop where
  rest : ∃ front, c.rest = front ++ d.rest ∧ ∀ lexeme ∈ front, endsStatement lexeme = false
  finish : d.finish = c.finish

theorem rest_eq_cons {c : Cursor} (h : c.current.isEof = false) :
    c.rest = c.current :: c.advance.rest := by
  obtain ⟨rest, finish⟩ := c
  cases rest with
  | nil => cases h
  | cons lexeme rest => rfl

theorem isEof_of_not_ends {lexeme : Lexeme} (h : endsStatement lexeme = false) :
    lexeme.isEof = false := by
  simp only [endsStatement, Bool.or_eq_false_iff] at h
  exact h.2

theorem not_ends_of_kind {lexeme : Lexeme} {kind : TokenKind} (h : lexeme.kind = kind)
    (hk : kind ∉ [.semicolon, .eof]) : endsStatement lexeme = false := by
  simp only [List.mem_cons, List.not_mem_nil, or_false, not_or] at hk
  simp [endsStatement, h, hk]

namespace Within

theorem refl (c : Cursor) : c.Within c := ⟨⟨[], rfl, by simp⟩, rfl⟩

theorem trans {c d e : Cursor} (h : c.Within d) (h' : d.Within e) : c.Within e := by
  obtain ⟨⟨front, hc, hf⟩, hfin⟩ := h
  obtain ⟨⟨front', hd, hf'⟩, hfin'⟩ := h'
  refine ⟨⟨front ++ front', ?_, ?_⟩, hfin'.trans hfin⟩
  · rw [hc, hd, List.append_assoc]
  · intro lexeme hm
    obtain hm | hm := List.mem_append.mp hm
    · exact hf lexeme hm
    · exact hf' lexeme hm

theorem advance {c : Cursor} (h : endsStatement c.current = false) : c.Within c.advance := by
  refine ⟨⟨[c.current], ?_, ?_⟩, rfl⟩
  · exact rest_eq_cons (isEof_of_not_ends h)
  · intro lexeme hm
    rwa [List.mem_singleton.mp hm]

theorem overSemicolon {c : Cursor} (h : endsStatement c.current = false) :
    c.Within c.overSemicolon := by
  rw [Cursor.overSemicolon]
  split
  · exact advance h
  · exact refl c

theorem recover (c : Cursor) : c.Within c.recover := by
  refine ⟨⟨c.rest.takeWhile fun lexeme => !endsStatement lexeme, ?_, ?_⟩, rfl⟩
  · exact (List.takeWhile_append_dropWhile).symm
  · intro lexeme hm
    have h := List.all_eq_true.mp List.all_takeWhile lexeme hm
    simpa using h

end Within

end Cursor

namespace Outcome

variable {α β : Type}

/-- The reading stepped over no end of a statement, and drew a diagnostic if it gave up. -/
structure Confined (c : Cursor) (o : Outcome α) : Prop where
  within : c.Within o.cursor
  explained : o.value = none → o.diagnostics ≠ []

structure Orderly (c : Cursor) (o : Outcome α) : Prop extends Confined c o where
  inside : o.value.isSome → Cursor.endsStatement o.cursor.current = false

theorem Confined.done {c d : Cursor} (h : c.Within d) (a : α) : Confined c (done a d) :=
  ⟨h, fun hv => by cases hv⟩

theorem Confined.after {c : Cursor} {o : Outcome α} (h : Confined c o) (event : Event) :
    Confined c (after event o) := by
  refine ⟨h.within, fun hv => ?_⟩
  rw [diagnostics_after]
  exact List.append_ne_nil_of_right_ne_nil _ (h.explained hv)

namespace Orderly

theorem done {c : Cursor} (h : Cursor.endsStatement c.current = false) (a : α) :
    Orderly c (done a c) :=
  ⟨.done (.refl c) a, fun _ => h⟩

theorem fail (diagnostic : Diagnostic) (c : Cursor) : Orderly c (fail diagnostic c : Outcome α) :=
  ⟨⟨.refl c, fun _ => by simp⟩, fun hv => by cases hv⟩

theorem after {c : Cursor} {o : Outcome α} (h : Orderly c o) (event : Event) :
    Orderly c (after event o) :=
  ⟨h.toConfined.after event, h.inside⟩

theorem behind {c d : Cursor} {o : Outcome α} (hc : c.Within d) (h : Orderly d o) : Orderly c o :=
  ⟨⟨hc.trans h.within, h.explained⟩, h.inside⟩

theorem andThen_confined {c : Cursor} {o : Outcome α} {next : α → Cursor → Outcome β}
    (ho : Orderly c o)
    (hn : ∀ (a : α) (d : Cursor), Cursor.endsStatement d.current = false → Confined d (next a d)) :
    Confined c (o.andThen next) := by
  cases hv : o.value with
  | none =>
    have hd := ho.explained hv
    rw [← diagnostics_andThen_of_none hv next] at hd
    rw [andThen_of_none hv] at hd ⊢
    exact ⟨ho.within, fun _ => hd⟩
  | some a =>
    have h := hn a o.cursor (ho.inside (by simp [hv]))
    have hd := diagnostics_andThen_of_some hv next
    rw [andThen_of_some hv] at hd ⊢
    refine ⟨ho.within.trans h.within, fun hv => ?_⟩
    rw [hd]
    exact List.append_ne_nil_of_right_ne_nil _ (h.explained hv)

theorem andThen {c : Cursor} {o : Outcome α} {next : α → Cursor → Outcome β} (ho : Orderly c o)
    (hn : ∀ (a : α) (d : Cursor), Cursor.endsStatement d.current = false → Orderly d (next a d)) :
    Orderly c (o.andThen next) := by
  refine ⟨ho.andThen_confined fun a d hd => (hn a d hd).toConfined, fun h => ?_⟩
  cases hv : o.value with
  | none =>
    rw [andThen_of_none hv] at h
    cases h
  | some a =>
    rw [andThen_of_some hv] at h ⊢
    exact (hn a o.cursor (ho.inside (by simp [hv]))).inside h

end Orderly

end Outcome

namespace Cursor

open Outcome

theorem orderly_expect {c : Cursor} {kind : TokenKind} (h : endsStatement c.current = false)
    (hk : kind ∉ [.semicolon, .eof]) : Orderly c (c.expect kind) := by
  rw [expect]
  split
  · rename_i hpeek
    exact .behind (.advance h) (.done (not_ends_of_kind hpeek hk) _)
  · exact .fail _ c

theorem orderly_integer {c : Cursor} (h : endsStatement c.current = false) :
    Orderly c c.integer := by
  simp only [integer]
  split
  · exact .done h _
  · exact (Orderly.done h _).after _

theorem orderly_operand {inner : Precedence → Cursor → Outcome Expression}
    (h : ∀ (bound : Precedence) (c : Cursor), Orderly c (inner bound c)) (c : Cursor) :
    Orderly c (operand inner c) := by
  have ht (bound : Precedence) (hc : endsStatement c.current = false) :
      Orderly c (inner bound c.advance) := (h bound c.advance).behind (.advance hc)
  simp only [operand]
  split
  · rename_i hk; exact .done (not_ends_of_kind hk (by decide)) _
  · rename_i hk; exact orderly_integer (not_ends_of_kind hk (by decide))
  · rename_i hk; exact .done (not_ends_of_kind hk (by decide)) _
  · rename_i hk; exact .done (not_ends_of_kind hk (by decide)) _
  · rename_i hk; exact (ht _ (not_ends_of_kind hk (by decide))).andThen fun _ d hd => .done hd _
  · rename_i hk; exact (ht _ (not_ends_of_kind hk (by decide))).andThen fun _ d hd => .done hd _
  · rename_i hk
    apply (ht _ (not_ends_of_kind hk (by decide))).andThen
    intro e d hd
    have hx : Orderly d (d.expect .rparen) := orderly_expect hd (by decide)
    exact hx.andThen fun _ d hd => .done hd _
  · exact .fail _ c

theorem not_ends_of_lt {bound : Precedence} {lexeme : Lexeme}
    (h : bound < lexeme.kind.precedence) : endsStatement lexeme = false := by
  apply not_ends_of_kind rfl
  simp only [List.mem_cons, List.not_mem_nil, or_false]
  rintro (hk | hk)
  · rw [hk] at h
    exact Nat.not_lt_zero _ h
  · rw [hk] at h
    exact Nat.not_lt_zero _ h

theorem orderly_expression_climb (n : Nat) :
    (∀ (bound : Precedence) (c : Cursor), Orderly c (expression bound n c)) ∧
      ∀ (bound : Precedence) (left : Expression) (c : Cursor), endsStatement c.current = false →
        Orderly c (climb bound n left c) := by
  induction n with
  | zero =>
    constructor
    · intro bound c
      rw [expression]
      exact (Orderly.fail _ c).after _
    · intro bound left c hc
      rw [climb]
      split
      · exact .behind (.advance hc) (.fail _ _)
      · exact .done hc _
  | succ n ih =>
    obtain ⟨hexpression, hclimb⟩ := ih
    constructor
    · intro bound c
      rw [expression]
      exact ((orderly_operand hexpression c).andThen (hclimb bound)).after _
    · intro bound left c hc
      by_cases hlt : bound < c.peek.kind.precedence
      · have hop : c.Within c.advance.advance :=
          (Within.advance hc).trans (.advance (not_ends_of_lt hlt))
        rw [climb_succ_of_lt hlt]
        exact ((hexpression _ _).behind hop).andThen fun _ d hd => hclimb bound _ d hd
      · rw [climb_of_not_lt hlt]
        exact .done hc _

theorem orderly_wholeExpression (c : Cursor) : Orderly c c.wholeExpression :=
  (orderly_expression_climb levelLimit).1 .lowest c

theorem confined_letBinding {c : Cursor} (h : endsStatement c.current = false) :
    Confined c c.letBinding := by
  have hname : Orderly c (c.expect .identifier) := orderly_expect h (by decide)
  apply hname.andThen_confined
  intro name d hd
  have hsign : Orderly d (d.expect .assign) := orderly_expect hd (by decide)
  apply hsign.andThen_confined
  intro _ e he
  have hvalue := (orderly_wholeExpression e.advance).behind (.advance he)
  exact hvalue.andThen_confined fun value f hf => .done (.overSemicolon hf) _

theorem confined_returnValue {c : Cursor} (h : endsStatement c.current = false) :
    Confined c c.returnValue := by
  rw [returnValue]
  split
  · exact .done (.overSemicolon h) _
  · have hvalue := (orderly_wholeExpression c.advance).behind (.advance h)
    exact hvalue.andThen_confined fun value d hd => .done (.overSemicolon hd) _

theorem confined_statement (c : Cursor) : Confined c c.statement := by
  refine Confined.after ?_ _
  split
  · rename_i hk
    exact confined_letBinding (not_ends_of_kind hk (by decide))
  · rename_i hk
    exact confined_returnValue (not_ends_of_kind hk (by decide))
  · exact .done (.refl c) _
  · exact (orderly_wholeExpression c).andThen_confined fun value d hd => .done (.overSemicolon hd) _

end Cursor

end MonkeyFrontend
