import MonkeyFrontend.Proofs.Parsing.Locality
import MonkeyFrontend.Proofs.Parsing.Salvage

namespace MonkeyFrontend

/-- A statement that drew a diagnostic lacks its semicolon, so that recovery goes on past it. -/
def Segment.Breaks (stretch : List Lexeme) (segment : Segment) : Prop :=
  segment.diagnostics ≠ [] ∧ isTerminated stretch = false

instance (stretch : List Lexeme) (segment : Segment) : Decidable (segment.Breaks stretch) :=
  inferInstanceAs (Decidable (_ ∧ _))

def Ended (lexemes : List Lexeme) : Prop :=
  ∃ front eof, lexemes = front ++ [eof] ∧ eof.isEof = true ∧
    ∀ lexeme ∈ front, lexeme.isEof = false

namespace Ended

theorem endsOnce {lexemes : List Lexeme} (h : Ended lexemes) : EndsOnce lexemes := by
  obtain ⟨front, eof, rfl, -, hfront⟩ := h
  intro lexeme hm
  rw [List.dropLast_concat] at hm
  exact hfront lexeme hm

theorem fenced {c : Cursor} (h : Ended c.rest) : c.Fenced := by
  obtain ⟨front, eof, hrest, heof, -⟩ := h
  have hk : eof.kind = .eof := of_decide_eq_true heof
  exact ⟨eof, by simp [hrest], by simp [Cursor.endsStatement, hk]⟩

theorem of_append {stretch tail : List Lexeme} (h : Ended (stretch ++ tail))
    (hs : ∀ lexeme ∈ stretch, lexeme.isEof = false) : Ended tail := by
  obtain ⟨front, eof, hrest, heof, hfront⟩ := h
  obtain ⟨front', rfl, rfl⟩ | ⟨middle, rfl, hmiddle⟩ := List.append_eq_append_iff.mp hrest
  · exact ⟨front', eof, rfl, heof, fun lexeme hm => hfront lexeme (List.mem_append_right _ hm)⟩
  · cases middle with
    | nil => exact ⟨[], eof, hmiddle.symm, heof, by simp⟩
    | cons lexeme middle =>
      obtain ⟨rfl, -⟩ := List.cons.inj hmiddle
      have he := hs eof (by simp)
      rw [heof] at he
      cases he

end Ended

namespace Cursor

/-- The last statement before the end of input breaks. Recovery then ends at the end of input
itself, and what comes after that is read as if it had not been there. -/
def overruns (c : Cursor) : Bool :=
  ((Segment.stretches c.rest c.segments).zip c.segments).getLast?.any fun pair =>
    pair.2.Breaks pair.1

theorem overruns_of_eof {c : Cursor} (h : c.current.isEof = true) : c.overruns = false := by
  rw [overruns, segments_of_eof h]
  rfl

theorem overruns_of_last {c : Cursor} (h : c.current.isEof = false) {stretch ending : List Lexeme}
    (ht : c.Takes stretch ending) (hlast : c.segment.next.segments = []) :
    c.overruns = decide (c.segment.Breaks stretch) := by
  rw [overruns, segments_of_not_eof h, Segment.stretches, ht.take_eq, ht.filter_eq, hlast]
  rfl

theorem overruns_of_more {c : Cursor} (h : c.current.isEof = false)
    (hmore : c.segment.next.segments ≠ []) : c.overruns = c.segment.next.overruns := by
  rw [overruns, overruns, segments_of_not_eof h]
  cases hs : c.segment.next.segments with
  | nil => exact absurd hs hmore
  | cons segment segments => simp [Segment.stretches, List.getLast?_cons_cons]

theorem overruns_of_not_breaks {c : Cursor} (h : c.current.isEof = false)
    {stretch ending : List Lexeme} (ht : c.Takes stretch ending)
    (hb : ¬ c.segment.Breaks stretch) : c.overruns = c.segment.next.overruns := by
  by_cases hlast : c.segment.next.segments = []
  · rw [overruns_of_last h ht hlast, decide_eq_false hb, overruns, hlast]
    rfl
  · exact overruns_of_more h hlast

theorem exists_takes_ended {c : Cursor} (hc : c.current.isEof = false)
    (he : Ended c.rest) :
    ∃ stretch ending, c.Takes stretch ending ∧
      (c.segment.Breaks stretch → c.segment.next.rest = []) ∧
      (¬ c.segment.Breaks stretch → Ended c.segment.next.rest) := by
  by_cases h : c.statement.value = none ∨ c.statement.diagnostics ≠ []
  · obtain ⟨stretch, ending, ht⟩ := takes_of_dropped hc he.endsOnce h
    have hdiagnostics : c.segment.diagnostics ≠ [] := by
      rw [segment_diagnostics]
      exact h.elim (confined_statement c).explained id
    refine ⟨stretch, ending, ht, fun hb => ?_, fun hb => ?_⟩
    · refine (ht.accounts.dropped hdiagnostics).2.resolve_left ?_
      rintro ⟨lexeme, hlast, hk⟩
      have hterminated : isTerminated stretch = true := by simp [isTerminated, hlast, hk]
      rw [hb.2] at hterminated
      cases hterminated
    · have hterminated : isTerminated stretch = true := by
        simpa [Segment.Breaks, hdiagnostics] using hb
      have hrest := ht.rest
      rw [List.append_assoc] at hrest
      -- recovery ends at the semicolon of the statement
      have hnext : c.segment.next.rest = ending ++ c.segment.next.rest := by
        have hrecover : (recover ⟨stretch ++ (ending ++ c.segment.next.rest), c.finish⟩).advance =
            _ := recover_stretch ht.accounts.ne_nil ht.inside ht.accounts.semicolon
        rw [hterminated, if_pos rfl, ← hrest] at hrecover
        conv => lhs; rw [segment_of_dropped h, (confined_statement c).within.recover_eq]
        exact congrArg Cursor.rest hrecover
      rw [hnext]
      exact (hrest ▸ he).of_append ht.inside
  · simp only [not_or, Option.ne_none_iff_exists', not_not] at h
    obtain ⟨⟨s, hs⟩, hd⟩ := h
    obtain ⟨stretch, ht⟩ := takes_of_kept hs hd
    refine ⟨stretch, [], ht, fun hb => ?_, fun _ => ?_⟩
    · exact absurd ((segment_diagnostics c).trans hd) hb.1
    · have hrest := ht.rest
      rw [List.append_nil] at hrest
      exact (hrest ▸ he).of_append ht.inside

/-- What comes after the end of input is read after a last statement that breaks, and is not read
otherwise. -/
theorem segments_beyond (c : Cursor) (h : Ended c.rest) (beyond : List Lexeme)
    (finish : Location) :
    (c.extend beyond finish).segments =
      c.segments.map (fun segment => segment.extend beyond finish) ++
        if c.overruns then (Cursor.mk beyond finish).segments else [] := by
  induction hn : c.rest.length using Nat.strongRecOn generalizing c with
  | ind n ih =>
    have hcurrent := current_extend h.fenced.rest_ne_nil beyond finish
    cases hc : c.current.isEof with
    | true =>
      rw [segments_of_eof hc, overruns_of_eof hc, segments_of_eof (hcurrent ▸ hc)]
      rfl
    | false =>
      obtain ⟨stretch, ending, ht, hbroken, hwhole⟩ := exists_takes_ended hc h
      rw [segments_of_not_eof (hcurrent ▸ hc), segment_extend h.fenced, segments_of_not_eof hc,
        List.map_cons, List.cons_append]
      refine congrArg _ ?_
      by_cases hb : c.segment.Breaks stretch
      · have hnext := hbroken hb
        have hlast : c.segment.next.segments = [] :=
          segments_of_eof (by simp [current, hnext, Lexeme.isEof])
        rw [overruns_of_last hc ht hlast, decide_eq_true hb, hlast, if_pos rfl]
        simp [Segment.extend, extend, hnext]
      · have hlt : c.segment.next.rest.length < n := hn ▸ segment_length_lt hc
        rw [overruns_of_not_breaks hc ht hb]
        exact ih _ hlt _ (hwhole hb) rfl

end Cursor

namespace Parser

theorem segments_append_of_ended {lexemes : List Lexeme} (h : Ended lexemes)
    (beyond : List Lexeme) :
    ∃ finish, (Cursor.ofLexemes (lexemes ++ beyond)).segments =
      (Cursor.ofLexemes lexemes).segments.map (fun segment => segment.extend beyond finish) ++
        (Cursor.ofLexemes
          (if (Cursor.ofLexemes lexemes).overruns then beyond else [])).segments := by
  have hwhole : (Cursor.ofLexemes (lexemes ++ beyond)).segments = _ :=
    Cursor.segments_beyond (Cursor.ofLexemes lexemes) h beyond
      (Cursor.ofLexemes (lexemes ++ beyond)).finish
  refine ⟨_, hwhole.trans (congrArg _ ?_)⟩
  split
  · exact Cursor.segments_ofLexemes_append lexemes beyond
  · exact (Cursor.segments_of_eof rfl).symm

/-- The reading of some lexemes is followed by that of what comes after the end of input if the
reader steps over it. -/
theorem read_append_of_ended {lexemes : List Lexeme} (h : Ended lexemes) (beyond : List Lexeme) :
    let whole := (ofLexemes (lexemes ++ beyond)).read
    let within := (ofLexemes lexemes).read
    let after := (ofLexemes (if (Cursor.ofLexemes lexemes).overruns then beyond else [])).read
    whole.1.statements = within.1.statements ++ after.1.statements ∧
      whole.2.diagnostics = within.2.diagnostics ++ after.2.diagnostics := by
  obtain ⟨finish, hwhole⟩ := segments_append_of_ended h beyond
  constructor
  · simp only [read, ofLexemes, hwhole, List.filterMap_append, Segment.filterMap_statement_extend]
  · simp only [diagnostics_read, hwhole, List.flatMap_append, Segment.flatMap_diagnostics_extend]

/-- What comes after the first end of input makes no difference exactly if the last statement before
it drew no diagnostic or has its semicolon. After any other last statement, all of it is read. -/
theorem read_beyond_iff {lexemes : List Lexeme} (h : Ended lexemes) :
    ((∀ x y : List Lexeme,
      (ofLexemes (lexemes ++ x)).read.1 = (ofLexemes (lexemes ++ y)).read.1 ∧
        (ofLexemes (lexemes ++ x)).read.2.diagnostics =
          (ofLexemes (lexemes ++ y)).read.2.diagnostics) ↔
      (Cursor.ofLexemes lexemes).overruns = false) ∧
    ((Cursor.ofLexemes lexemes).overruns = true → ∀ beyond : List Lexeme,
      (ofLexemes (lexemes ++ beyond)).read.1.statements =
          (ofLexemes lexemes).read.1.statements ++ (ofLexemes beyond).read.1.statements ∧
        (ofLexemes (lexemes ++ beyond)).read.2.diagnostics =
          (ofLexemes lexemes).read.2.diagnostics ++ (ofLexemes beyond).read.2.diagnostics) := by
  have hread (beyond : List Lexeme) := read_append_of_ended h beyond
  cases ho : (Cursor.ofLexemes lexemes).overruns with
  | true =>
    simp only [ho, if_true] at hread
    refine ⟨iff_of_false (fun hsame => ?_) Bool.true_eq_false.mp, fun _ => hread⟩
    -- a semicolon is a statement of its own
    let semicolon : Lexeme := ⟨.start, ⟨.semicolon, .text ";"⟩⟩
    have hone : (ofLexemes [semicolon]).read.1.statements = [.expression semicolon.token none] := by
      decide +kernel
    have hnone : (ofLexemes []).read.1.statements = [] := by decide +kernel
    have hstatements := congrArg Program.statements (hsame [semicolon] []).1
    rw [(hread [semicolon]).1, (hread []).1, hone, hnone] at hstatements
    simp at hstatements
  | false =>
    simp only [ho] at hread
    refine ⟨iff_of_true (fun x y => ?_) rfl, fun hn => by cases hn⟩
    have hx := hread x
    have hy := hread y
    exact ⟨congrArg Program.mk (hx.1.trans hy.1.symm), hx.2.trans hy.2.symm⟩

theorem read_beyond_iff_terminated :
    let lexemes : List Lexeme := [⟨⟨1, 1⟩, ⟨.letKeyword, .text "let"⟩⟩,
      ⟨⟨1, 5⟩, ⟨.semicolon, .text ";"⟩⟩, .finish ⟨1, 6⟩]
    Ended lexemes ∧ (ofLexemes lexemes).read.2.diagnostics ≠ [] ∧
      ∀ x y : List Lexeme,
        (ofLexemes (lexemes ++ x)).read.1 = (ofLexemes (lexemes ++ y)).read.1 := by
  intro lexemes
  have h : Ended lexemes := ⟨lexemes.dropLast, .finish ⟨1, 6⟩, rfl, rfl, by decide⟩
  have ho : (Cursor.ofLexemes lexemes).overruns = false := by decide +kernel
  exact ⟨h, by decide +kernel, fun x y => ((read_beyond_iff h).1.mpr ho x y).1⟩

/-- After a let that breaks off at the end of input, a name behind the end of input is read as a
statement. -/
theorem read_beyond_broken_let :
    let lexemes : List Lexeme := [⟨⟨1, 1⟩, ⟨.letKeyword, .text "let"⟩⟩, .finish ⟨1, 4⟩]
    Ended lexemes ∧
      ¬ ∀ x y : List Lexeme,
        (ofLexemes (lexemes ++ x)).read.1 = (ofLexemes (lexemes ++ y)).read.1 ∧
          (ofLexemes (lexemes ++ x)).read.2.diagnostics =
            (ofLexemes (lexemes ++ y)).read.2.diagnostics := by
  intro lexemes
  refine ⟨⟨lexemes.dropLast, .finish ⟨1, 4⟩, rfl, rfl, by decide⟩, fun hsame => ?_⟩
  let name : Lexeme := ⟨⟨1, 5⟩, ⟨.identifier, .text "x"⟩⟩
  have hread : (ofLexemes (lexemes ++ [name])).read.1 ≠ (ofLexemes (lexemes ++ [])).read.1 := by
    decide +kernel
  exact hread (hsame [name] []).1

end Parser

end MonkeyFrontend
