import MonkeyFrontend.Parsing.Statement

namespace MonkeyFrontend

/-- What one statement's stretch of the input leads to: the statement if it is kept, what happened,
and the cursor from which the next statement is read. -/
structure Segment where
  statement : Option Statement
  events : List Event
  next : Cursor

def Segment.diagnostics (segment : Segment) : List Diagnostic :=
  Event.diagnostics segment.events

namespace Cursor

/-- Reads one statement and moves past it. A statement that drew a diagnostic is dropped, together
with all up to the end of a statement. -/
def segment (c : Cursor) : Segment :=
  let o := c.statement
  match o.value, o.diagnostics with
  | some s, [] => ⟨some s, o.events, o.cursor.advance⟩
  | _, diagnostics =>
    ⟨none, o.events ++ [.discarding diagnostics.length], o.cursor.recover.advance⟩

theorem kept_or_dropped (c : Cursor) :
    (∃ s, c.statement.value = some s ∧ c.statement.diagnostics = []) ∨
      (c.statement.value = none ∨ c.statement.diagnostics ≠ []) := by
  cases hv : c.statement.value with
  | none => exact .inr (.inl rfl)
  | some s =>
    by_cases hd : c.statement.diagnostics = []
    · exact .inl ⟨s, rfl, hd⟩
    · exact .inr (.inr hd)

theorem segment_of_kept {c : Cursor} {s : Statement} (hs : c.statement.value = some s)
    (hd : c.statement.diagnostics = []) :
    c.segment = ⟨some s, c.statement.events, c.statement.cursor.advance⟩ := by
  simp only [segment, hs, hd]

theorem segment_of_dropped {c : Cursor}
    (h : c.statement.value = none ∨ c.statement.diagnostics ≠ []) :
    c.segment = ⟨none, c.statement.events ++ [.discarding c.statement.diagnostics.length],
      c.statement.cursor.recover.advance⟩ := by
  unfold segment
  dsimp only
  split
  · rename_i hs hd
    rcases h with h | h
    · rw [hs] at h
      cases h
    · exact absurd hd h
  · rfl

theorem segment_diagnostics (c : Cursor) : c.segment.diagnostics = c.statement.diagnostics := by
  simp only [segment]
  split
  · rfl
  · exact (Event.diagnostics_append _ _).trans (List.append_nil _)

theorem reaches_segment (c : Cursor) : ∃ d, c.Reaches d ∧ c.segment.next = d.advance := by
  unfold segment
  dsimp only
  split
  · exact ⟨_, reaches_statement c, rfl⟩
  · exact ⟨_, (reaches_statement c).trans (.recover _), rfl⟩

theorem segment_length_lt {c : Cursor} (h : c.current.isEof = false) :
    c.segment.next.rest.length < c.rest.length := by
  obtain ⟨d, hd, hn⟩ := reaches_segment c
  have hle := hd.rest.length_le
  have hpos := List.length_pos_iff.2 (rest_ne_nil_of_not_eof h)
  rw [hn, advance, List.length_tail]
  omega

def segmentsBehind (done : List Segment) (c : Cursor) : List Segment :=
  if _h : c.current.isEof then done.reverse
  else segmentsBehind (c.segment :: done) c.segment.next
termination_by c.rest.length
decreasing_by exact segment_length_lt (by simpa using _h)

def segments (c : Cursor) : List Segment :=
  c.segmentsBehind []

theorem segmentsBehind_of_eof {c : Cursor} (h : c.current.isEof = true) (done : List Segment) :
    c.segmentsBehind done = done.reverse := by
  rw [segmentsBehind, dif_pos h]

theorem segmentsBehind_of_not_eof {c : Cursor} (h : c.current.isEof = false)
    (done : List Segment) :
    c.segmentsBehind done = c.segment.next.segmentsBehind (c.segment :: done) := by
  rw [segmentsBehind, dif_neg (by simp [h])]

theorem segmentsBehind_eq (done : List Segment) (c : Cursor) :
    c.segmentsBehind done = done.reverse ++ c.segments := by
  induction hn : c.rest.length using Nat.strongRecOn generalizing c done with
  | ind n ih =>
      cases h : c.current.isEof with
      | true => simp [segments, segmentsBehind_of_eof h]
      | false =>
          have hlt : c.segment.next.rest.length < n := hn ▸ segment_length_lt h
          rw [segments, segmentsBehind_of_not_eof h, segmentsBehind_of_not_eof h,
            ih _ hlt _ _ rfl, ih _ hlt _ _ rfl]
          simp

theorem segments_of_eof {c : Cursor} (h : c.current.isEof = true) : c.segments = [] :=
  segmentsBehind_of_eof h []

theorem segments_of_not_eof {c : Cursor} (h : c.current.isEof = false) :
    c.segments = c.segment :: c.segment.next.segments := by
  rw [segments, segmentsBehind_of_not_eof h, segmentsBehind_eq]
  rfl

end Cursor

end MonkeyFrontend
