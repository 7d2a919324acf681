import Mathlib.Algebra.GroupWithZero.Nat
import MonkeyFrontend.Proofs.Parsing.Diagnosis
import MonkeyFrontend.Proofs.Parsing.Wholeness
import MonkeyFrontend.Proofs.RoundTrip

namespace MonkeyFrontend

namespace Event

def isStatement : Event → Bool
  | statement _ => true
  | _ => false

def isDiscarding : Event → Bool
  | discarding _ => true
  | _ => false

def discarded? : Event → Option Nat
  | discarding diagnostics => some diagnostics
  | _ => none

@[simp]
theorem diagnostics_statement_cons (kind : TokenKind) (events : List Event) :
    diagnostics (statement kind :: events) = diagnostics events := rfl

@[simp]
theorem diagnostics_discarding_cons (n : Nat) (events : List Event) :
    diagnostics (discarding n :: events) = diagnostics events := rfl

/-- What an event goes with in a log. A statement is dropped for the diagnostics drawn since it
began, and there are some; an expression that begins with no level left draws its diagnostic at
once. -/
def Justified (before : List Event) (event : Event) (after : List Event) : Prop :=
  match event with
  | discarding n =>
    1 ≤ n ∧ ∃ earlier kind between, before = earlier ++ statement kind :: between ∧
      (∀ event ∈ between, event.isStatement = false ∧ event.isDiscarding = false) ∧
      (diagnostics between).length = n
  | expression _ _ depth =>
    depth ≤ Cursor.levelLimit ∧ (depth = Cursor.levelLimit →
      ∃ location later, after = diagnostic ⟨location, .tooDeep⟩ :: later)
  | _ => True

theorem Justified.amid {before after : List Event} {event : Event}
    (h : Justified before event after) (front back : List Event) :
    Justified (front ++ before) event (after ++ back) := by
  cases event with
  | discarding n =>
    obtain ⟨hn, earlier, kind, between, rfl, hbetween⟩ := h
    exact ⟨hn, front ++ earlier, kind, between, (List.append_assoc _ _ _).symm, hbetween⟩
  | expression kind bound depth =>
    refine ⟨h.1, fun hd => ?_⟩
    obtain ⟨location, later, rfl⟩ := h.2 hd
    exact ⟨location, later ++ back, rfl⟩
  | _ => trivial

def Reconciled (events : List Event) : Prop :=
  ∀ before event after, events = before ++ event :: after → Justified before event after

namespace Reconciled

variable {xs ys : List Event} {event : Event}

theorem nil : Reconciled [] := by
  intro before event after h
  simp at h

theorem of_parts
    (hx : ∀ before event after, xs = before ++ event :: after →
      Justified before event (after ++ ys))
    (hy : ∀ before event after, ys = before ++ event :: after →
      Justified (xs ++ before) event after) : Reconciled (xs ++ ys) := by
  intro before event after h
  obtain ⟨front, rfl, hys⟩ | ⟨back, hxs, h⟩ := List.append_eq_append_iff.mp h
  · exact hy front event after hys
  · obtain ⟨rfl, rfl⟩ | ⟨back, rfl, rfl⟩ := List.cons_eq_append_iff.mp h
    · rw [List.append_nil] at hxs
      subst hxs
      simpa using hy [] event after rfl
    · exact hx before event back hxs

theorem append (hx : Reconciled xs) (hy : Reconciled ys) : Reconciled (xs ++ ys) := by
  apply of_parts
  · intro before event after h
    exact (hx before event after h).amid [] ys
  · intro before event after h
    simpa using (hy before event after h).amid xs []

theorem insert (hx : Reconciled xs) (he : Justified xs event ys) (hy : Reconciled ys) :
    Reconciled (xs ++ event :: ys) := by
  apply of_parts
  · intro before event after h
    exact (hx before event after h).amid [] _
  · intro before other after h
    obtain ⟨rfl, hys⟩ | ⟨before, rfl, hys⟩ := List.cons_eq_append_iff.mp h
    · cases hys
      simpa using he
    · simpa using (hy before other after hys).amid (xs ++ [event]) []

theorem cons (he : Justified [] event ys) (hy : Reconciled ys) : Reconciled (event :: ys) :=
  nil.insert he hy

end Reconciled

inductive Course : List Event → Prop where
  | nil : Course []
  | diagnostic (found : Diagnostic) {events : List Event} (h : Course events) :
      Course (diagnostic found :: events)
  | expression (kind : TokenKind) (bound : Precedence) {depth : Nat} {events : List Event}
      (hd : depth < Cursor.levelLimit) (h : Course events) :
      Course (expression kind bound depth :: events)
  | tooDeep (kind : TokenKind) (bound : Precedence) (location : Location) {events : List Event}
      (h : Course events) :
      Course (expression kind bound Cursor.levelLimit ::
        Event.diagnostic ⟨location, .tooDeep⟩ :: events)

namespace Course

variable {xs ys events : List Event}

theorem append (hx : Course xs) (hy : Course ys) : Course (xs ++ ys) := by
  induction hx with
  | nil => exact hy
  | diagnostic found _ ih => exact .diagnostic found ih
  | expression kind bound hd _ ih => exact .expression kind bound hd ih
  | tooDeep kind bound location _ ih => exact .tooDeep kind bound location ih

/-- While a statement is read, no other begins and none is dropped. -/
theorem unmarked (h : Course events) :
    ∀ event ∈ events, event.isStatement = false ∧ event.isDiscarding = false := by
  induction h with
  | nil => exact fun event hm => by cases hm
  | diagnostic found _ ih => exact List.forall_mem_cons.mpr ⟨⟨rfl, rfl⟩, ih⟩
  | expression kind bound _ _ ih => exact List.forall_mem_cons.mpr ⟨⟨rfl, rfl⟩, ih⟩
  | tooDeep kind bound location _ ih =>
    exact List.forall_mem_cons.mpr ⟨⟨rfl, rfl⟩, List.forall_mem_cons.mpr ⟨⟨rfl, rfl⟩, ih⟩⟩

theorem countP_isStatement (h : Course events) : events.countP isStatement = 0 :=
  List.countP_eq_zero.mpr fun event hm => by simp [(h.unmarked event hm).1]

theorem countP_isDiscarding (h : Course events) : events.countP isDiscarding = 0 :=
  List.countP_eq_zero.mpr fun event hm => by simp [(h.unmarked event hm).2]

theorem filterMap_discarded? (h : Course events) : events.filterMap discarded? = [] := by
  rw [List.filterMap_eq_nil_iff]
  intro event hm
  have hnone := (h.unmarked event hm).2
  cases event with
  | discarding diagnostics => cases hnone
  | _ => rfl

theorem reconciled (h : Course events) : Reconciled events := by
  induction h with
  | nil => exact .nil
  | diagnostic found _ ih => exact .cons trivial ih
  | expression kind bound hd _ ih =>
    exact .cons ⟨Nat.le_of_lt hd, fun he => absurd he (Nat.ne_of_lt hd)⟩ ih
  | @tooDeep kind bound location events _ ih =>
    exact .cons ⟨Nat.le_refl _, fun _ => ⟨location, events, rfl⟩⟩ (.cons trivial ih)

end Course

/-- A log of statements one after the other, so many of which are kept. One that drew diagnostics
is dropped, and they are counted when that is told. -/
inductive Chronicle : Nat → List Event → Prop where
  | nil : Chronicle 0 []
  | keep (kind : TokenKind) {kept : Nat} {body later : List Event} (hbody : Course body)
      (hnone : diagnostics body = []) (h : Chronicle kept later) :
      Chronicle (kept + 1) (statement kind :: (body ++ later))
  | drop (kind : TokenKind) {kept : Nat} {body later : List Event} (hbody : Course body)
      (hsome : diagnostics body ≠ []) (h : Chronicle kept later) :
      Chronicle kept (statement kind :: (body ++ discarding (diagnostics body).length :: later))

namespace Chronicle

variable {kept : Nat} {events : List Event}

theorem countP_isStatement (h : Chronicle kept events) :
    events.countP isStatement = kept + events.countP isDiscarding := by
  induction h with
  | nil => rfl
  | keep kind hbody _ _ ih =>
    simp only [List.countP_cons, List.countP_append, hbody.countP_isStatement,
      hbody.countP_isDiscarding, isStatement, isDiscarding, Bool.false_eq_true, ↓reduceIte]
    omega
  | drop kind hbody _ _ ih =>
    simp only [List.countP_cons, List.countP_append, hbody.countP_isStatement,
      hbody.countP_isDiscarding, isStatement, isDiscarding, Bool.false_eq_true, ↓reduceIte]
    omega

theorem sum_discarded (h : Chronicle kept events) :
    (events.filterMap discarded?).sum = (diagnostics events).length := by
  induction h with
  | nil => rfl
  | keep kind hbody hnone _ ih =>
    rw [diagnostics_statement_cons, diagnostics_append, hnone, List.nil_append, ← ih]
    simp only [List.filterMap_cons, List.filterMap_append, hbody.filterMap_discarded?, discarded?,
      List.nil_append]
  | drop kind hbody _ _ ih =>
    rw [diagnostics_statement_cons, diagnostics_append, List.length_append,
      diagnostics_discarding_cons, ← ih]
    simp only [List.filterMap_cons, List.filterMap_append, hbody.filterMap_discarded?, discarded?,
      List.nil_append, List.sum_cons]

theorem reconciled (h : Chronicle kept events) : Reconciled events := by
  induction h with
  | nil => exact .nil
  | keep kind hbody _ _ ih => exact .cons trivial (hbody.reconciled.append ih)
  | @drop kind _ body later hbody hsome _ ih =>
    -- what has been told since the statement began is at hand when it is dropped
    have hopen : Reconciled (statement kind :: body) := .cons trivial hbody.reconciled
    refine hopen.insert ⟨List.length_pos_iff.mpr hsome, [], kind, body, rfl, ?_, rfl⟩ ih
    exact hbody.unmarked

end Chronicle

end Event

namespace Outcome

variable {α β : Type}

theorem course_andThen {o : Outcome α} {next : α → Cursor → Outcome β}
    (h : Event.Course o.events) (hn : ∀ (a : α) (d : Cursor), Event.Course (next a d).events) :
    Event.Course (o.andThen next).events := by
  cases hv : o.value with
  | none =>
    rw [andThen_of_none hv]
    exact h
  | some a =>
    rw [andThen_of_some hv]
    exact h.append (hn a o.cursor)

end Outcome

namespace Cursor

open Outcome

theorem course_expect (kind : TokenKind) (c : Cursor) : Event.Course (c.expect kind).events := by
  rw [expect]
  split
  · exact .nil
  · exact .diagnostic _ .nil

theorem course_integer (c : Cursor) : Event.Course c.integer.events := by
  simp only [integer]
  split
  · exact .nil
  · exact .diagnostic _ .nil

theorem course_operand {inner : Precedence → Cursor → Outcome Expression}
    (h : ∀ (bound : Precedence) (c : Cursor), Event.Course (inner bound c).events) (c : Cursor) :
    Event.Course (operand inner c).events := by
  simp only [operand]
  split
  · exact .nil
  · exact course_integer c
  · exact .nil
  · exact .nil
  · exact course_andThen (h _ _) fun _ _ => .nil
  · exact course_andThen (h _ _) fun _ _ => .nil
  · refine course_andThen (h _ _) fun _ d => ?_
    exact course_andThen (course_expect _ d) fun _ _ => .nil
  · exact .diagnostic _ .nil

theorem course_expression_climb (n : Nat) :
    (∀ (bound : Precedence) (c : Cursor), Event.Course (expression bound n c).events) ∧
      ∀ (bound : Precedence) (left : Expression) (c : Cursor),
        Event.Course (climb bound n left c).events := by
  induction n with
  | zero =>
    refine ⟨fun bound c => ?_, fun bound left c => ?_⟩
    · rw [expression]
      exact .tooDeep _ bound _ .nil
    · rw [climb]
      split
      · exact .diagnostic _ .nil
      · exact .nil
  | succ n ih =>
    obtain ⟨hexpression, hclimb⟩ := ih
    refine ⟨fun bound c => ?_, fun bound left c => ?_⟩
    · have hlevel : levelLimit - (n + 1) < levelLimit := by
        rw [levelLimit]
        omega
      have hrest := course_andThen (course_operand hexpression c) (hclimb bound)
      rw [expression]
      exact .expression _ bound hlevel hrest
    · rw [climb]
      split
      · exact course_andThen (hexpression _ _) fun right d => hclimb bound _ d
      · exact .nil

theorem course_value (make : Expression → Statement) (c : Cursor) :
    Event.Course (c.wholeExpression.andThen fun value d =>
      .done (make value) d.overSemicolon).events :=
  course_andThen ((course_expression_climb levelLimit).1 .lowest c) fun _ _ => .nil

theorem exists_course (c : Cursor) :
    ∃ body, Event.Course body ∧ c.statement.events = .statement c.current.kind :: body := by
  refine ⟨_, ?_, rfl⟩
  split
  · refine course_andThen (course_expect _ c) fun name d => ?_
    exact course_andThen (course_expect _ d) fun _ e => course_value _ e.advance
  · rw [returnValue]
    split
    · exact .nil
    · exact course_value _ c.advance
  · exact .nil
  · exact course_value _ c

theorem chronicle_segments (c : Cursor) :
    Event.Chronicle (c.segments.filterMap Segment.statement).length
      (c.segments.flatMap Segment.events) := by
  induction hn : c.rest.length using Nat.strongRecOn generalizing c with
  | ind n ih =>
    cases hc : c.current.isEof with
    | true =>
      rw [segments_of_eof hc]
      exact .nil
    | false =>
      have hlater := ih _ (hn ▸ segment_length_lt hc) c.segment.next rfl
      obtain ⟨body, hbody, hevents⟩ := c.exists_course
      have hdrawn : c.statement.diagnostics = Event.diagnostics body := by
        rw [Outcome.diagnostics, hevents, Event.diagnostics_statement_cons]
      rw [segments_of_not_eof hc, List.flatMap_cons]
      cases hs : c.segment.statement with
      | some s =>
        have hy := yields_of_segment_statement hs
        have hsegment := segment_of_kept hy.value hy.diagnostics
        rw [List.filterMap_cons_some hs, congrArg Segment.events hsegment, hevents]
        exact .keep _ hbody (hdrawn ▸ hy.diagnostics) hlater
      | none =>
        have hd := (segment_statement_eq_none_iff c).mp hs
        have hsegment := segment_of_dropped (.inr hd)
        rw [List.filterMap_cons_none hs, congrArg Segment.events hsegment, hevents, hdrawn,
          List.append_assoc]
        exact .drop _ hbody (hdrawn ▸ hd) hlater

end Cursor

theorem Filter.filter_trace (events : List Event) :
    events.filter (atLeast .trace).shows = events := by
  simp [shows, Level.rank]

theorem Reading.log_ofSource {source : String} {lexemes : List Lexeme}
    (h : tokenize source = .ok lexemes) :
    (ofSource source).log = .tokenized source.utf8ByteSize lexemes.length ::
      (Cursor.ofLexemes lexemes).segments.flatMap Segment.events := by
  simp only [ofSource, Parser.ofSource, h, Except.map, Parser.read]
  split <;> rfl

/-- The log of a text agrees with what the text comes to. Every statement that begins is kept or
dropped. One is dropped for the diagnostics drawn since it began, of which there are some, and all
diagnostics are told in order and counted so. No expression begins beyond the limit on levels, and
one that begins at the limit draws its diagnostic at once. -/
theorem Reading.log_reconciles {source : String} {lexemes : List Lexeme}
    (h : tokenize source = .ok lexemes) :
    let log := (ofSource source).log.filter (Filter.atLeast .trace).shows
    let program := (Parser.ofLexemes lexemes).read.1
    let diagnostics := (Parser.ofLexemes lexemes).read.2.diagnostics
    parse source = (if diagnostics = [] then .ok program else .error diagnostics) ∧
    log.countP Event.isStatement =
      program.statements.length + log.countP Event.isDiscarding ∧
    (∀ before n after, log = before ++ .discarding n :: after →
      1 ≤ n ∧ ∃ earlier kind between, before = earlier ++ .statement kind :: between ∧
        (∀ event ∈ between, event.isStatement = false ∧ event.isDiscarding = false) ∧
        (Event.diagnostics between).length = n) ∧
    (log.filterMap Event.discarded?).sum = diagnostics.length ∧
    Event.diagnostics log = diagnostics ∧
    ∀ before kind bound depth after, log = before ++ .expression kind bound depth :: after →
      depth ≤ 256 ∧ (depth = 256 → ∃ found later, after = .diagnostic found :: later ∧
        found.reason.message = "expression nested too deeply") := by
  intro log program diagnostics
  let told := (Cursor.ofLexemes lexemes).segments.flatMap Segment.events
  have hlog : log = .tokenized source.utf8ByteSize lexemes.length :: told := by
    rw [← log_ofSource h]
    exact Filter.filter_trace _
  have hchronicle : Event.Chronicle program.statements.length told :=
    (Cursor.ofLexemes lexemes).chronicle_segments
  have hreconciled : Event.Reconciled log := by
    rw [hlog]
    exact .cons trivial hchronicle.reconciled
  refine ⟨?_, ?_, fun before n after he => ?_, ?_, ?_, fun before kind bound depth after he => ?_⟩
  · rw [parse_of_tokenize h, ← Parser.diagnostics_read]
    split
    · rename_i hnil
      exact (if_pos hnil).symm
    · rename_i hne
      exact (if_neg hne).symm
  · rw [hlog]
    exact hchronicle.countP_isStatement
  · exact hreconciled before _ after he
  · rw [hlog]
    exact hchronicle.sum_discarded
  · rw [hlog]
    rfl
  · obtain ⟨hle, hlimit⟩ := hreconciled before _ after he
    refine ⟨hle, fun hd => ?_⟩
    obtain ⟨location, later, rfl⟩ := hlimit hd
    exact ⟨⟨location, .tooDeep⟩, later, rfl, rfl⟩

theorem Reading.log_reconciles_dropped :
    let source := "a;9223372036854775808+(b;let"
    let log := (ofSource source).log.filter (Filter.atLeast .trace).shows
    let before : List Event := [.tokenized 28 9, .statement .identifier,
      .expression .identifier .lowest 0, .statement .integer, .expression .integer .lowest 0,
      .diagnostic ⟨⟨1, 3⟩, .unreadableInteger "'9223372036854775808'"⟩,
      .expression .lparen .sum 2, .expression .identifier .lowest 3,
      .diagnostic ⟨⟨1, 25⟩, .expected .rparen "';'"⟩]
    let after : List Event := [.statement .letKeyword,
      .diagnostic ⟨⟨1, 29⟩, .expected .identifier "end of input"⟩, .discarding 1]
    (∃ lexemes, tokenize source = .ok lexemes) ∧ log = before ++ .discarding 2 :: after ∧
      ∃ earlier kind between, before = earlier ++ .statement kind :: between ∧
        (∀ event ∈ between, event.isStatement = false ∧ event.isDiscarding = false) ∧
        (Event.diagnostics between).length = 2 := by
  intro source log before after
  have hlog : log = before ++ .discarding 2 :: after := by decide +kernel
  have hok : (tokenize source).isOk = true := by decide +kernel
  cases h : tokenize source with
  | error diagnostic =>
    rw [h] at hok
    cases hok
  | ok lexemes =>
    obtain ⟨-, -, hdropped, -⟩ := Reading.log_reconciles h
    exact ⟨⟨lexemes, rfl⟩, hlog, (hdropped before 2 after hlog).2⟩

end MonkeyFrontend
