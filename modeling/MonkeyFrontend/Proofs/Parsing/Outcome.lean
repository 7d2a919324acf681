import MonkeyFrontend.Parsing.Outcome

namespace MonkeyFrontend

namespace Cursor

@[simp]
theorem current_cons (lexeme : Lexeme) (rest : List Lexeme) (finish : Location) :
    (Cursor.mk (lexeme :: rest) finish).current = lexeme := rfl

@[simp]
theorem advance_cons (lexeme : Lexeme) (rest : List Lexeme) (finish : Location) :
    (Cursor.mk (lexeme :: rest) finish).advance = ⟨rest, finish⟩ := rfl

@[simp]
theorem peek_cons (lexeme : Lexeme) (rest : List Lexeme) (finish : Location) :
    (Cursor.mk (lexeme :: rest) finish).peek = (Cursor.mk rest finish).current := rfl

end Cursor

namespace Outcome

variable {α β : Type}

@[simp]
theorem diagnostics_done (a : α) (c : Cursor) : (done a c).diagnostics = [] := rfl

@[simp]
theorem diagnostics_fail (diagnostic : Diagnostic) (c : Cursor) :
    (fail diagnostic c : Outcome α).diagnostics = [diagnostic] := rfl

theorem diagnostics_after (event : Event) (o : Outcome α) :
    (after event o).diagnostics = event.diagnostic?.toList ++ o.diagnostics := by
  cases h : event.diagnostic? <;> simp [diagnostics, after, Event.diagnostics, h]

theorem diagnostics_andThen_of_some {o : Outcome α} {a : α} (h : o.value = some a)
    (next : α → Cursor → Outcome β) :
    (o.andThen next).diagnostics = o.diagnostics ++ (next a o.cursor).diagnostics := by
  rw [andThen_of_some h]
  exact Event.diagnostics_append _ _

theorem diagnostics_andThen_of_none {o : Outcome α} (h : o.value = none)
    (next : α → Cursor → Outcome β) : (o.andThen next).diagnostics = o.diagnostics := by
  rw [andThen_of_none h]
  rfl

/-- The reading came to a value at a cursor and had nothing to complain about. -/
structure Yields (o : Outcome α) (a : α) (c : Cursor) : Prop where
  value : o.value = some a
  cursor : o.cursor = c
  diagnostics : o.diagnostics = []

theorem yields_done (a : α) (c : Cursor) : (done a c).Yields a c := ⟨rfl, rfl, rfl⟩

theorem yields_done_iff {a b : α} {c d : Cursor} : (done a c).Yields b d ↔ a = b ∧ c = d := by
  constructor
  · intro h
    exact ⟨Option.some.inj h.value, h.cursor⟩
  · rintro ⟨rfl, rfl⟩
    exact yields_done a c

theorem not_yields_fail {diagnostic : Diagnostic} {a : α} {c d : Cursor} :
    ¬ (fail diagnostic c).Yields a d := fun h => by cases h.value

theorem yields_after_iff {event : Event} (h : event.diagnostic? = none) {o : Outcome α} {a : α}
    {c : Cursor} : (after event o).Yields a c ↔ o.Yields a c := by
  have hd : (after event o).diagnostics = o.diagnostics := by simp [diagnostics_after, h]
  constructor
  · intro hy
    exact ⟨hy.value, hy.cursor, hd ▸ hy.diagnostics⟩
  · intro hy
    exact ⟨hy.value, hy.cursor, hd.trans hy.diagnostics⟩

theorem yields_andThen_iff {o : Outcome α} {next : α → Cursor → Outcome β} {b : β} {d : Cursor} :
    (o.andThen next).Yields b d ↔ ∃ a c, o.Yields a c ∧ (next a c).Yields b d := by
  constructor
  · intro h
    cases ho : o.value with
    | none =>
      have hv := h.value
      rw [andThen_of_none ho] at hv
      cases hv
    | some a =>
      have hd := h.diagnostics
      rw [diagnostics_andThen_of_some ho, List.append_eq_nil_iff] at hd
      have hv := h.value
      have hc := h.cursor
      rw [andThen_of_some ho] at hv hc
      exact ⟨a, o.cursor, ⟨ho, rfl, hd.1⟩, hv, hc, hd.2⟩
  · rintro ⟨a, c, ⟨hv, rfl, hd⟩, h⟩
    refine ⟨?_, ?_, ?_⟩
    · rw [andThen_of_some hv]
      exact h.value
    · rw [andThen_of_some hv]
      exact h.cursor
    · rw [diagnostics_andThen_of_some hv, hd, h.diagnostics]
      rfl

/-- Two readings tell the same, but for what they trace on the way. -/
structure Agrees (o p : Outcome α) : Prop where
  value : o.value = p.value
  cursor : o.cursor = p.cursor
  diagnostics : o.diagnostics = p.diagnostics

namespace Agrees

theorem trans {o p q : Outcome α} (h : o.Agrees p) (h' : p.Agrees q) : o.Agrees q :=
  ⟨h.value.trans h'.value, h.cursor.trans h'.cursor, h.diagnostics.trans h'.diagnostics⟩

theorem yields {o p : Outcome α} {a : α} {c : Cursor} (h : o.Agrees p) (hp : p.Yields a c) :
    o.Yields a c :=
  ⟨h.value.trans hp.value, h.cursor.trans hp.cursor, h.diagnostics.trans hp.diagnostics⟩

theorem andThen {o p : Outcome α} (h : o.Agrees p) (next : α → Cursor → Outcome β) :
    (o.andThen next).Agrees (p.andThen next) := by
  have hv := h.value
  cases hp : p.value with
  | none =>
    rw [hp] at hv
    have hd := h.diagnostics
    rw [← diagnostics_andThen_of_none hv next, ← diagnostics_andThen_of_none hp next] at hd
    rw [andThen_of_none hv, andThen_of_none hp] at hd ⊢
    exact ⟨rfl, h.cursor, hd⟩
  | some a =>
    rw [hp] at hv
    have hd : (o.andThen next).diagnostics = (p.andThen next).diagnostics := by
      rw [diagnostics_andThen_of_some hv, diagnostics_andThen_of_some hp, h.diagnostics, h.cursor]
    rw [andThen_of_some hv, andThen_of_some hp] at hd ⊢
    exact ⟨by rw [h.cursor], by rw [h.cursor], hd⟩

end Agrees

theorem agrees_after {event : Event} (h : event.diagnostic? = none) (o : Outcome α) :
    (after event o).Agrees o :=
  ⟨rfl, rfl, by simp [diagnostics_after, h]⟩

theorem Yields.andThen {o : Outcome α} {a : α} {c : Cursor} (h : o.Yields a c)
    (next : α → Cursor → Outcome β) : (o.andThen next).Agrees (next a c) := by
  obtain ⟨hv, rfl, hd⟩ := h
  refine ⟨?_, ?_, ?_⟩
  · rw [andThen_of_some hv]
  · rw [andThen_of_some hv]
  · rw [diagnostics_andThen_of_some hv, hd, List.nil_append]

/-- The reading gave up because it ran out of levels, and for no other reason. -/
def Overflows (o : Outcome α) : Prop :=
  o.value = none ∧ ∃ location, o.diagnostics = [⟨location, .tooDeep⟩]

theorem Agrees.overflows {o p : Outcome α} (h : o.Agrees p) (hp : p.Overflows) : o.Overflows := by
  obtain ⟨hv, location, hd⟩ := hp
  exact ⟨h.value.trans hv, location, h.diagnostics.trans hd⟩

theorem Overflows.andThen {o : Outcome α} (h : o.Overflows) (next : α → Cursor → Outcome β) :
    (o.andThen next).Overflows := by
  obtain ⟨hv, location, hd⟩ := h
  refine ⟨?_, location, ?_⟩
  · rw [andThen_of_none hv]
  · rw [diagnostics_andThen_of_none hv, hd]

end Outcome

end MonkeyFrontend
