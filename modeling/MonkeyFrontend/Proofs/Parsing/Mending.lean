import Mathlib.Data.List.Forall2
import MonkeyFrontend.Parsing.Statement
import MonkeyFrontend.Proofs.Parsing.Derivation

namespace MonkeyFrontend

namespace Lexeme

def isUnreadable (lexeme : Lexeme) : Bool :=
  lexeme.kind = .integer && lexeme.token.literal.integer?.isNone

def complaint (lexeme : Lexeme) : Diagnostic :=
  ⟨lexeme.location, .unreadableInteger lexeme.token.describe⟩

/-- The other lexeme is the same, but for an integer that cannot be read: there it is one that
can. -/
def MendedBy (lexeme other : Lexeme) : Prop :=
  if lexeme.isUnreadable then other.kind = .integer ∧ other.isUnreadable = false
  else other = lexeme

instance (lexeme other : Lexeme) : Decidable (lexeme.MendedBy other) :=
  inferInstanceAs (Decidable (ite _ _ _))

theorem isUnreadable_iff {lexeme : Lexeme} :
    lexeme.isUnreadable = true ↔
      lexeme.kind = .integer ∧ lexeme.token.literal.integer? = none := by
  simp [isUnreadable]

theorem isUnreadable_of_kind {lexeme : Lexeme} (h : lexeme.kind ≠ .integer) :
    lexeme.isUnreadable = false := by
  simp [isUnreadable, h]

namespace MendedBy

variable {lexeme other : Lexeme}

theorem eq_of_readable (h : lexeme.MendedBy other) (hr : lexeme.isUnreadable = false) :
    other = lexeme := by
  simpa [MendedBy, hr] using h

theorem kind_eq (h : lexeme.MendedBy other) : lexeme.kind = other.kind := by
  cases hu : lexeme.isUnreadable with
  | false => rw [h.eq_of_readable hu]
  | true =>
    rw [MendedBy, if_pos hu] at h
    rw [(isUnreadable_iff.mp hu).1, h.1]

theorem eq_of_kind (h : lexeme.MendedBy other) (hk : other.kind ≠ .integer) : other = lexeme :=
  h.eq_of_readable (isUnreadable_of_kind (h.kind_eq ▸ hk))

end MendedBy

end Lexeme

def complaints (lexemes : List Lexeme) : List Diagnostic :=
  (lexemes.filter Lexeme.isUnreadable).map Lexeme.complaint

@[simp]
theorem complaints_append (front rest : List Lexeme) :
    complaints (front ++ rest) = complaints front ++ complaints rest := by
  simp [complaints]

theorem complaints_cons_of_readable {lexeme : Lexeme} (h : lexeme.isUnreadable = false)
    (rest : List Lexeme) : complaints (lexeme :: rest) = complaints rest := by
  simp [complaints, h]

theorem complaints_cons_of_unreadable {lexeme : Lexeme} (h : lexeme.isUnreadable = true)
    (rest : List Lexeme) : complaints (lexeme :: rest) = lexeme.complaint :: complaints rest := by
  simp [complaints, h]

namespace Cursor

def Mends (c c' : Cursor) : Prop := List.Forall₂ Lexeme.MendedBy c.rest c'.rest

namespace Mends

variable {c c' : Cursor}

theorem advance (h : c.Mends c') : c.advance.Mends c'.advance := by
  obtain ⟨rest, finish⟩ := c
  obtain ⟨rest', finish'⟩ := c'
  cases h with
  | nil => exact .nil
  | cons _ hrest => exact hrest

theorem kind_eq (h : c.Mends c') : c.current.kind = c'.current.kind := by
  obtain ⟨rest, finish⟩ := c
  obtain ⟨rest', finish'⟩ := c'
  cases h with
  | nil => rfl
  | cons hfirst _ => exact hfirst.kind_eq

theorem token_eq (h : c.Mends c') (hk : c'.current.kind ≠ .integer) :
    c.current.token = c'.current.token := by
  obtain ⟨rest, finish⟩ := c
  obtain ⟨rest', finish'⟩ := c'
  cases h with
  | nil => rfl
  | cons hfirst _ => rw [current_cons, current_cons, hfirst.eq_of_kind hk]

theorem complaints_advance (h : c.Mends c') (hk : c'.current.kind ≠ .integer) :
    complaints c.advance.rest = complaints c.rest := by
  obtain ⟨rest, finish⟩ := c
  obtain ⟨rest', finish'⟩ := c'
  cases h with
  | nil => rfl
  | cons hfirst _ =>
    exact (complaints_cons_of_readable (Lexeme.isUnreadable_of_kind (hfirst.kind_eq ▸ hk)) _).symm

end Mends

end Cursor

namespace Outcome

variable {α β : Type}

/-- A reading comes where it would come if all was mended, and draws the diagnostics of the integers
that it passes. Its value is the same too if there are none, as long as it started from the same. -/
structure Follows (ahead : List Lexeme) (same : Prop) (o : Outcome α) (a' : α) (d' : Cursor) :
    Prop where
  value : ∃ a, o.value = some a ∧ (same → o.diagnostics = [] → a = a')
  cursor : o.cursor.Mends d'
  diagnostics : o.diagnostics ++ complaints o.cursor.advance.rest = complaints ahead

namespace Follows

variable {ahead : List Lexeme} {same : Prop} {o : Outcome α} {a' : α} {b' : β} {c' d' : Cursor}

theorem done {a : α} {c : Cursor} (hc : c.Mends c') (ha : same → a = a') :
    (done a c).Follows c.advance.rest same a' c' :=
  ⟨⟨a, rfl, fun hs _ => ha hs⟩, hc, rfl⟩

theorem after {event : Event} (he : event.diagnostic? = none) (h : o.Follows ahead same a' d') :
    (after event o).Follows ahead same a' d' := by
  have hd : (Outcome.after event o).diagnostics = o.diagnostics := by simp [diagnostics_after, he]
  exact ⟨hd ▸ h.value, h.cursor, hd ▸ h.diagnostics⟩

theorem ahead_eq {ahead' : List Lexeme} (h : o.Follows ahead same a' d')
    (ha : complaints ahead = complaints ahead') : o.Follows ahead' same a' d' :=
  ⟨h.value, h.cursor, h.diagnostics.trans ha⟩

theorem weaken {same' : Prop} (h : o.Follows ahead same a' d') (hs : same' → same) :
    o.Follows ahead same' a' d' := by
  obtain ⟨a, ha, heq⟩ := h.value
  exact ⟨⟨a, ha, fun hs' => heq (hs hs')⟩, h.cursor, h.diagnostics⟩

theorem andThen {next : α → Cursor → Outcome β} (h : o.Follows ahead same a' c')
    (hn : ∀ (a : α) (c : Cursor), c.Mends c' →
      (next a c).Follows c.advance.rest (a = a' ∧ same ∧ o.diagnostics = []) b' d') :
    (o.andThen next).Follows ahead same b' d' := by
  obtain ⟨a, ha, heq⟩ := h.value
  obtain ⟨⟨b, hb, heq'⟩, hcursor, hdiagnostics⟩ := hn a o.cursor h.cursor
  have hd := diagnostics_andThen_of_some ha next
  rw [andThen_of_some ha] at hd ⊢
  refine ⟨⟨b, hb, fun hs hnone => ?_⟩, hcursor, ?_⟩
  · rw [hd, List.append_eq_nil_iff] at hnone
    exact heq' ⟨heq hs hnone.1, hs, hnone.1⟩ hnone.2
  · rw [hd, List.append_assoc, hdiagnostics, h.diagnostics]

end Follows

end Outcome

namespace Cursor

open Outcome

variable {c c' d' : Cursor}

theorem follows_expect {kind : TokenKind} {token : Token} (hk : kind ≠ .integer) (h : c.Mends c')
    (hy : (c'.expect kind).Yields token d') :
    (c.expect kind).Follows c.advance.rest True token d' := by
  obtain ⟨hpeek, rfl, rfl⟩ := yields_expect hy
  have hkind : c.peek.kind = kind := h.advance.kind_eq.trans hpeek
  have hne : c'.advance.current.kind ≠ .integer := fun he => hk (hpeek.symm.trans he)
  rw [expect, if_pos hkind]
  refine (Follows.done h.advance fun _ => ?_).ahead_eq (h.advance.complaints_advance hne)
  exact h.advance.token_eq hne

theorem follows_integer {e' : Expression} (h : c.Mends c') (hk : c'.current.kind = .integer)
    (hy : c'.integer.Yields e' d') : c.integer.Follows c.rest True e' d' := by
  obtain ⟨rest, finish⟩ := c
  obtain ⟨rest', finish'⟩ := c'
  obtain ⟨value, hv, rfl, rfl⟩ := yields_integer hy
  have hm := h
  cases h with
  | nil => cases hk
  | @cons lexeme lexeme' rest rest' hfirst hrest =>
    cases hu : lexeme.isUnreadable with
    | false =>
      obtain rfl := hfirst.eq_of_readable hu
      rw [integer_of_readable (c := ⟨lexeme' :: rest, finish⟩) hv]
      refine (Follows.done hm fun _ => rfl).ahead_eq ?_
      exact (complaints_cons_of_readable hu rest).symm
    | true =>
      have hnone := (Lexeme.isUnreadable_iff.mp hu).2
      simp only [integer, current_cons, hnone]
      refine ⟨⟨_, rfl, fun _ hd => ?_⟩, hm, ?_⟩
      · rw [diagnostics_after] at hd
        cases hd
      · rw [diagnostics_after, complaints_cons_of_unreadable hu]
        rfl

def Tolerant (read : Precedence → Cursor → Outcome Expression) : Prop :=
  ∀ (bound : Precedence) (c c' d' : Cursor) (e' : Expression), c.Mends c' →
    (read bound c').Yields e' d' → (read bound c).Follows c.rest True e' d'

theorem follows_operand {inner : Precedence → Cursor → Outcome Expression} {e' : Expression}
    (hi : Tolerant inner) (h : c.Mends c') (hy : (operand inner c').Yields e' d') :
    (operand inner c).Follows c.rest True e' d' := by
  by_cases hinteger : c'.current.kind = .integer
  · have hk' : c'.current.token.kind = .integer := hinteger
    have hk : c.current.token.kind = .integer := h.kind_eq.trans hinteger
    simp only [operand, hk] at hy ⊢
    simp only [hk'] at hy
    exact follows_integer h hinteger hy
  · have hahead := h.complaints_advance hinteger
    have htoken := h.token_eq hinteger
    simp only [operand, htoken] at hy ⊢
    split at hy
    · obtain ⟨rfl, rfl⟩ := yields_done_iff.mp hy
      exact (Follows.done h fun _ => rfl).ahead_eq hahead
    · rename_i hk
      exact absurd hk hinteger
    · obtain ⟨rfl, rfl⟩ := yields_done_iff.mp hy
      exact (Follows.done h fun _ => rfl).ahead_eq hahead
    · obtain ⟨rfl, rfl⟩ := yields_done_iff.mp hy
      exact (Follows.done h fun _ => rfl).ahead_eq hahead
    · obtain ⟨right, c₁, hright, hy⟩ := yields_andThen_iff.mp hy
      obtain ⟨rfl, rfl⟩ := yields_done_iff.mp hy
      refine ((hi _ _ _ _ _ h.advance hright).ahead_eq hahead).andThen fun a d hd => ?_
      exact .done hd fun hs => by rw [hs.1]
    · obtain ⟨right, c₁, hright, hy⟩ := yields_andThen_iff.mp hy
      obtain ⟨rfl, rfl⟩ := yields_done_iff.mp hy
      refine ((hi _ _ _ _ _ h.advance hright).ahead_eq hahead).andThen fun a d hd => ?_
      exact .done hd fun hs => by rw [hs.1]
    · obtain ⟨e, c₁, he, hy⟩ := yields_andThen_iff.mp hy
      obtain ⟨token, c₂, hclosing, hy⟩ := yields_andThen_iff.mp hy
      obtain ⟨rfl, rfl⟩ := yields_done_iff.mp hy
      refine ((hi _ _ _ _ _ h.advance he).ahead_eq hahead).andThen fun a d hd => ?_
      refine ((follows_expect (by decide) hd hclosing).weaken fun _ => trivial).andThen
        fun _ d hd => ?_
      exact .done hd fun hs => hs.2.1.1
    · exact absurd hy not_yields_fail

theorem kind_ne_integer_of_lt {bound : Precedence} {kind : TokenKind}
    (h : bound < kind.precedence) : kind ≠ .integer := by
  rintro rfl
  exact Nat.not_lt_zero _ h

theorem follows_expression_climb (n : Nat) :
    Tolerant (fun bound => expression bound n) ∧
      ∀ (bound : Precedence) (c c' d' : Cursor) (left left' e' : Expression), c.Mends c' →
        (climb bound n left' c').Yields e' d' →
        (climb bound n left c).Follows c.advance.rest (left = left') e' d' := by
  induction n with
  | zero =>
    constructor
    · intro bound c c' d' e' h hy
      have hv := hy.value
      rw [(expression_zero_overflows bound c').1] at hv
      cases hv
    · intro bound c c' d' left left' e' h hy
      by_cases hlt : bound < c'.peek.kind.precedence
      · have hv := hy.value
        rw [(climb_zero_overflows hlt left').1] at hv
        cases hv
      · have hpeek : c.peek.kind = c'.peek.kind := h.advance.kind_eq
        rw [climb_of_not_lt hlt] at hy
        obtain ⟨rfl, rfl⟩ := yields_done_iff.mp hy
        rw [climb_of_not_lt (by rwa [hpeek])]
        exact .done h id
  | succ n ih =>
    obtain ⟨hexpression, hclimb⟩ := ih
    constructor
    · intro bound c c' d' e' h hy
      dsimp only at hy ⊢
      rw [expression, yields_after_iff rfl, yields_andThen_iff] at hy
      obtain ⟨first, c₁, hfirst, hrest⟩ := hy
      rw [expression]
      refine ((follows_operand hexpression h hfirst).andThen fun a d hd => ?_).after rfl
      exact (hclimb bound d c₁ d' a first e' hd hrest).weaken And.left
    · intro bound c c' d' left left' e' h hy
      have hpeek : c.peek.kind = c'.peek.kind := h.advance.kind_eq
      by_cases hlt : bound < c'.peek.kind.precedence
      · have hne : c'.advance.current.kind ≠ .integer := kind_ne_integer_of_lt hlt
        have htoken : c.peek.token = c'.peek.token := h.advance.token_eq hne
        rw [climb_succ_of_lt hlt, yields_andThen_iff] at hy
        obtain ⟨right, c₁, hright, hrest⟩ := hy
        rw [climb_succ_of_lt (by rwa [hpeek]), hpeek, htoken]
        have hoperand := hexpression _ _ _ _ _ h.advance.advance hright
        refine ((hoperand.ahead_eq (h.advance.complaints_advance hne)).weaken
          fun _ => trivial).andThen fun a d hd => ?_
        refine (hclimb bound d c₁ d' _ _ e' hd hrest).weaken ?_
        rintro ⟨rfl, rfl, -⟩
        rfl
      · rw [climb_of_not_lt hlt] at hy
        obtain ⟨rfl, rfl⟩ := yields_done_iff.mp hy
        rw [climb_of_not_lt (by rwa [hpeek])]
        exact .done h id

theorem follows_wholeExpression {e' : Expression} (h : c.Mends c')
    (hy : c'.wholeExpression.Yields e' d') : c.wholeExpression.Follows c.rest True e' d' :=
  (follows_expression_climb levelLimit).1 .lowest c c' d' e' h hy

theorem follows_closing {same : Prop} {s t s' : Statement} (h : c.Mends c') (hs : same → s = t)
    (hy : (done t c'.overSemicolon).Yields s' d') :
    (done s c.overSemicolon).Follows c.advance.rest same s' d' := by
  obtain ⟨rfl, rfl⟩ := yields_done_iff.mp hy
  have hpeek : c.peek.kind = c'.peek.kind := h.advance.kind_eq
  rw [overSemicolon, overSemicolon, hpeek]
  split
  · rename_i hk
    have hne : c'.advance.current.kind ≠ .integer := fun he => by cases hk.symm.trans he
    exact (Follows.done h.advance hs).ahead_eq (h.advance.complaints_advance hne)
  · exact .done h hs

theorem follows_letBinding {s' : Statement} (h : c.Mends c') (hk : c'.current.kind ≠ .integer)
    (hy : c'.letBinding.Yields s' d') : c.letBinding.Follows c.advance.rest True s' d' := by
  obtain ⟨name, c₁, hname, hy⟩ := yields_andThen_iff.mp hy
  obtain ⟨sign, c₂, hsign, hy⟩ := yields_andThen_iff.mp hy
  obtain ⟨value, c₃, hvalue, hy⟩ := yields_andThen_iff.mp hy
  rw [letBinding, h.token_eq hk]
  refine (follows_expect (by decide) h hname).andThen fun name' d hd => ?_
  refine ((follows_expect (by decide) hd hsign).weaken fun _ => trivial).andThen fun _ d hd => ?_
  refine ((follows_wholeExpression hd.advance hvalue).weaken fun _ => trivial).andThen
    fun value' d hd => ?_
  refine follows_closing hd ?_ hy
  rintro ⟨rfl, ⟨-, ⟨rfl, -⟩, -⟩, -⟩
  rfl

theorem follows_returnValue {s' : Statement} (h : c.Mends c') (hk : c'.current.kind ≠ .integer)
    (hy : c'.returnValue.Yields s' d') : c.returnValue.Follows c.advance.rest True s' d' := by
  have hends : endsStatement c.peek = endsStatement c'.peek := by
    have hpeek : c.peek.kind = c'.peek.kind := h.advance.kind_eq
    rw [endsStatement, endsStatement, hpeek]
  rw [returnValue] at hy ⊢
  rw [hends, h.token_eq hk]
  split at hy
  · rename_i he
    rw [if_pos he]
    exact follows_closing h (fun _ => rfl) hy
  · rename_i he
    rw [if_neg he]
    obtain ⟨value, c₁, hvalue, hy⟩ := yields_andThen_iff.mp hy
    refine (follows_wholeExpression h.advance hvalue).andThen fun value' d hd => ?_
    refine follows_closing hd ?_ hy
    rintro ⟨rfl, -⟩
    rfl

theorem complaints_length_le {rest lexemes : List Lexeme} (h : rest <:+ lexemes) :
    (complaints rest).length ≤ (complaints lexemes).length := by
  obtain ⟨front, rfl⟩ := h
  rw [complaints_append, List.length_append]
  omega

/-- A reading that passes its first lexeme and draws no diagnostic found it mended. -/
theorem token_eq_of_silent {α : Type} {o : Outcome α} {same : Prop} {a' : α} (h : c.Mends c')
    (ho : o.Follows c.rest same a' d') (hr : c.Reaches o.cursor) (hd : o.diagnostics = []) :
    c.current.token = c'.current.token := by
  obtain ⟨rest, finish⟩ := c
  obtain ⟨rest', finish'⟩ := c'
  have hcomplaints := ho.diagnostics
  have hsuffix := hr.rest
  cases h with
  | nil => rfl
  | @cons lexeme lexeme' rest rest' hfirst hrest =>
    cases hu : lexeme.isUnreadable with
    | false => rw [current_cons, current_cons, hfirst.eq_of_readable hu]
    | true =>
      have htail : o.cursor.advance.rest <:+ rest := by
        obtain hs | hs := List.suffix_cons_iff.mp hsuffix
        · rw [Cursor.advance, hs]
          exact List.suffix_refl rest
        · exact (List.tail_suffix _).trans hs
      have hle := complaints_length_le htail
      rw [hd, List.nil_append, complaints_cons_of_unreadable hu] at hcomplaints
      rw [hcomplaints, List.length_cons] at hle
      omega

theorem follows_expressionStatement {s' : Statement} (h : c.Mends c')
    (hy : c'.expressionStatement.Yields s' d') :
    c.expressionStatement.Follows c.rest True s' d' := by
  obtain ⟨value, c₁, hvalue, hy⟩ := yields_andThen_iff.mp hy
  have hfollows := follows_wholeExpression h hvalue
  refine hfollows.andThen fun value' d hd => ?_
  refine follows_closing hd ?_ hy
  -- the statement keeps the first token of its value
  rintro ⟨rfl, -, hsilent⟩
  rw [token_eq_of_silent h hfollows (reaches_expression _ _ c) hsilent]

/-- A statement that would be read without complaint if all was mended is read to its end, and the
integers in it that cannot be read draw all its diagnostics. -/
theorem follows_statement {s' : Statement} (h : c.Mends c') (hy : c'.statement.Yields s' d') :
    c.statement.Follows c.rest True s' d' := by
  rw [statement, yields_after_iff rfl] at hy
  refine Follows.after rfl ?_
  rw [h.kind_eq]
  split at hy
  · rename_i hk
    have hne : c'.current.kind ≠ .integer := by simp [hk]
    exact (follows_letBinding h hne hy).ahead_eq (h.complaints_advance hne)
  · rename_i hk
    have hne : c'.current.kind ≠ .integer := by simp [hk]
    exact (follows_returnValue h hne hy).ahead_eq (h.complaints_advance hne)
  · rename_i hk
    have hne : c'.current.kind ≠ .integer := by simp [hk]
    obtain ⟨rfl, rfl⟩ := yields_done_iff.mp hy
    refine (Follows.done h fun _ => ?_).ahead_eq (h.complaints_advance hne)
    rw [h.token_eq hne]
  · exact follows_expressionStatement h hy

end Cursor

end MonkeyFrontend
