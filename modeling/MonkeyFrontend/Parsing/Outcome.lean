import MonkeyFrontend.Event
import MonkeyFrontend.Parsing.Cursor

namespace MonkeyFrontend

/-- What reading from a cursor leads to: a value unless the reading gave up, the cursor where it
stopped, and what happened on the way. -/
structure Outcome (α : Type) where
  value : Option α
  cursor : Cursor
  events : List Event

namespace Outcome

variable {α β : Type}

def done (a : α) (c : Cursor) : Outcome α := ⟨some a, c, []⟩

def fail (diagnostic : Diagnostic) (c : Cursor) : Outcome α := ⟨none, c, [.diagnostic diagnostic]⟩

def after (event : Event) (o : Outcome α) : Outcome α :=
  { o with events := event :: o.events }

def andThen (o : Outcome α) (next : α → Cursor → Outcome β) : Outcome β :=
  match o.value with
  | none => ⟨none, o.cursor, o.events⟩
  | some a =>
    let p := next a o.cursor
    { p with events := o.events ++ p.events }

def diagnostics (o : Outcome α) : List Diagnostic :=
  Event.diagnostics o.events

theorem andThen_of_none {o : Outcome α} (h : o.value = none) (next : α → Cursor → Outcome β) :
    o.andThen next = ⟨none, o.cursor, o.events⟩ := by
  simp only [andThen, h]

theorem andThen_of_some {o : Outcome α} {a : α} (h : o.value = some a)
    (next : α → Cursor → Outcome β) :
    o.andThen next = { next a o.cursor with events := o.events ++ (next a o.cursor).events } := by
  simp only [andThen, h]

theorem reaches_andThen {c : Cursor} {o : Outcome α} {next : α → Cursor → Outcome β}
    (ho : c.Reaches o.cursor) (hn : ∀ (a : α) (d : Cursor), d.Reaches (next a d).cursor) :
    c.Reaches (o.andThen next).cursor := by
  unfold andThen
  split
  · exact ho
  · exact ho.trans (hn _ _)

end Outcome

namespace Cursor

def expect (kind : TokenKind) (c : Cursor) : Outcome Token :=
  if c.peek.kind = kind then .done c.peek.token c.advance
  else .fail ⟨c.peek.location, .expected kind c.peek.token.describe⟩ c

theorem reaches_expect (kind : TokenKind) (c : Cursor) : c.Reaches (c.expect kind).cursor := by
  unfold expect
  split
  · exact .advance c
  · exact .refl c

end Cursor

end MonkeyFrontend
