import MonkeyFrontend.Proofs.Parsing.Chronicle
import MonkeyFrontend.Proofs.Parsing.SourceOrder
import MonkeyFrontend.Proofs.Parsing.Termination

namespace MonkeyFrontend

namespace Cursor

theorem segment_kept_add_discarding (c : Cursor) :
    c.segment.statement.toList.length + c.segment.events.countP Event.isDiscarding = 1 := by
  have hnone : c.statement.events.countP Event.isDiscarding = 0 := by
    obtain ⟨body, hbody, hevents⟩ := c.exists_course
    rw [hevents]
    exact hbody.countP_isDiscarding
  obtain ⟨s, hs, hd⟩ | h := c.kept_or_dropped
  · rw [segment_of_kept hs hd, hnone]
    rfl
  · rw [segment_of_dropped h, List.countP_append, hnone]
    rfl

theorem statements_add_discarding (c : Cursor) :
    (c.segments.filterMap Segment.statement).length +
      (c.segments.flatMap Segment.events).countP Event.isDiscarding = c.segments.length := by
  have hone : ∀ segment ∈ c.segments, segment.statement.toList.length +
      segment.events.countP Event.isDiscarding = 1 := by
    intro segment hm
    obtain ⟨d, -, rfl⟩ := exists_of_mem_segments hm
    exact segment_kept_add_discarding d
  generalize c.segments = segments at hone ⊢
  induction segments with
  | nil => rfl
  | cons segment segments ih =>
    rw [List.forall_mem_cons] at hone
    have hfirst := hone.1
    have hrest := ih hone.2
    rw [List.flatMap_cons, List.countP_append, List.length_cons]
    cases hs : segment.statement with
    | none =>
      rw [hs] at hfirst
      rw [List.filterMap_cons_none hs]
      simp only [Option.toList_none, List.length_nil] at hfirst
      omega
    | some s =>
      rw [hs] at hfirst
      rw [List.filterMap_cons_some hs, List.length_cons]
      simp only [Option.toList_some, List.length_singleton] at hfirst
      omega

end Cursor

/-- The number of lexemes that are no ends of input. -/
def stock (lexemes : List Lexeme) : Nat := lexemes.countP fun lexeme => !lexeme.isEof

theorem stock_append (front rest : List Lexeme) :
    stock (front ++ rest) = stock front + stock rest := List.countP_append

theorem stock_le_of_suffix {rest lexemes : List Lexeme} (h : rest <:+ lexemes) :
    stock rest ≤ stock lexemes := h.sublist.countP_le

theorem complaints_length_eq (taken : List Lexeme) :
    (complaints taken).length = taken.countP Lexeme.isUnreadable := by
  rw [complaints, List.length_map, List.countP_eq_length_filter]

theorem complaints_le_stock (taken : List Lexeme) : (complaints taken).length ≤ stock taken := by
  rw [complaints_length_eq]
  apply List.countP_mono_left
  intro lexeme _ hu
  rw [Lexeme.isEof_of_kind (Lexeme.isUnreadable_iff.mp hu).1 (by decide)]
  rfl

namespace Cursor

variable {c : Cursor}

theorem stock_of_not_eof (h : c.current.isEof = false) :
    stock c.rest = stock c.advance.rest + 1 := by
  rw [rest_eq_cons h]
  exact List.countP_cons_of_pos (by simp [h])

/-- A statement that starts with an integer is not given up if no operator comes next. -/
theorem lt_peek_of_none (hk : c.current.kind = .integer) (hv : c.statement.value = none) :
    Precedence.lowest < c.peek.kind.precedence := by
  by_contra hlt
  obtain ⟨hvalue, hcursor, -, -⟩ := integer_eq c hk
  have hoperand (inner : Precedence → Cursor → Outcome Expression) :
      operand inner c = c.integer := by
    have hk : c.current.token.kind = .integer := hk
    simp only [operand, hk]
  have hstatement : c.statement.value = c.expressionStatement.value := by
    simp only [statement, hk, Outcome.after]
  have hwhole : c.wholeExpression.value =
      some (.integer c.current.token c.current.token.literal.integer?) := by
    rw [wholeExpression, levelLimit, expression, hoperand]
    simp only [Outcome.after, Outcome.value_andThen, hvalue, hcursor, Option.bind_some,
      climb_of_not_lt hlt, Outcome.done]
  rw [hstatement, expressionStatement, Outcome.value_andThen, hwhole] at hv
  cases hv

theorem exists_readable_of_none (h : c.current.isEof = false) (hv : c.statement.value = none) :
    ∃ lexeme ∈ c.rest.takeWhile fun lexeme => !lexeme.isEof, lexeme.isUnreadable = false := by
  by_cases hk : c.current.kind = .integer
  · have hlt := lt_peek_of_none hk hv
    have hpeek : c.advance.current.isEof = false := isEof_of_not_ends (not_ends_of_lt hlt)
    have hoperator : c.peek.kind ≠ .integer := fun he => kind_not_mem_of_lt hlt (by simp [he])
    refine ⟨c.peek, ?_, Lexeme.isUnreadable_of_kind hoperator⟩
    rw [rest_eq_cons h, rest_eq_cons hpeek]
    simp [h, hpeek, peek]
  · refine ⟨c.current, ?_, Lexeme.isUnreadable_of_kind hk⟩
    rw [rest_eq_cons h]
    simp [h]

theorem complaints_lt_stock {stop : Cursor} {taken : List Lexeme} (h : c.current.isEof = false)
    (hv : c.statement.value = none) (hahead : c.rest = taken ++ stop.rest)
    (hwithin : c.Within stop) (hstop : stop.current.isEof = true) :
    (complaints taken).length < stock taken := by
  obtain ⟨⟨front, hfront, hinside⟩, -⟩ := hwithin
  have hfront : front = taken := List.append_cancel_right (hfront.symm.trans hahead)
  have htaken : ∀ lexeme ∈ taken, (!lexeme.isEof) = true := by
    intro lexeme hm
    rw [isEof_of_not_ends (hinside lexeme (hfront ▸ hm))]
    rfl
  have hnone : stop.rest.takeWhile (fun lexeme => !lexeme.isEof) = [] := by
    obtain ⟨rest, finish⟩ := stop
    cases rest with
    | nil => rfl
    | cons lexeme rest => exact List.takeWhile_cons_of_neg (by simpa [current] using hstop)
  have hahead : c.rest.takeWhile (fun lexeme => !lexeme.isEof) = taken := by
    rw [hahead, List.takeWhile_append_of_pos htaken, hnone, List.append_nil]
  have hstock : stock taken = taken.length := List.countP_eq_length.mpr htaken
  obtain ⟨lexeme, hm, hreadable⟩ := exists_readable_of_none h hv
  rw [hahead] at hm
  rw [complaints_length_eq, hstock]
  apply Nat.lt_of_le_of_ne List.countP_le_length
  intro hall
  rw [List.countP_eq_length.mp hall lexeme hm] at hreadable
  cases hreadable

/-- Each diagnostic of a statement is charged to a lexeme of its own: a complaint to the integer,
and the one with which the statement is given up to the lexeme there. If that one is an end of
input, a lexeme before it is free. -/
theorem statement_charges (h : c.current.isEof = false) :
    c.statement.diagnostics.length + stock c.segment.next.rest ≤ stock c.rest := by
  obtain ⟨taken, fatal, ht, -⟩ := concludes_statement c
  have hlength : c.statement.diagnostics.length =
      (complaints taken).length + fatal.toList.length := by
    rw [ht.diagnostics, List.length_append]
  have hstock : stock c.rest = stock taken + stock (c.statement.cursor.beyond fatal).rest :=
    (congrArg stock ht.ahead).trans (stock_append _ _)
  rw [hlength, hstock]
  cases fatal with
  | none =>
    exact Nat.add_le_add (complaints_le_stock taken) (stock_le_of_suffix c.segment_next_suffix)
  | some diagnostic =>
    obtain ⟨hwithin, hnext⟩ := within_beyond ht
    have hnext := stock_le_of_suffix hnext
    cases hstop : (c.statement.cursor.beyond (some diagnostic)).current.isEof with
    | false =>
      have hcomplaints := complaints_le_stock taken
      rw [stock_of_not_eof hstop, Option.toList_some, List.length_singleton]
      omega
    | true =>
      have hcomplaints := complaints_lt_stock h (ht.value.mpr rfl) ht.ahead hwithin hstop
      have hadvance := stock_le_of_suffix
        (Reaches.advance (c.statement.cursor.beyond (some diagnostic))).rest
      rw [Option.toList_some, List.length_singleton]
      omega

theorem stock_segment_lt (h : c.current.isEof = false) :
    stock c.segment.next.rest < stock c.rest := by
  obtain ⟨d, hd, hnext⟩ := reaches_segment c
  have hsuffix : c.segment.next.rest <:+ c.current :: c.advance.rest := by
    rw [← rest_eq_cons h, hnext]
    exact (hd.trans (.advance d)).rest
  rw [stock_of_not_eof h, Nat.lt_succ_iff]
  obtain hall | hrest := List.suffix_cons_iff.mp hsuffix
  · have hlt := segment_length_lt h
    rw [hall, ← rest_eq_cons h] at hlt
    exact absurd hlt (Nat.lt_irrefl _)
  · exact stock_le_of_suffix hrest

theorem segments_within_stock (c : Cursor) :
    c.segments.length ≤ stock c.rest ∧ c.diagnostics.length ≤ stock c.rest := by
  induction hn : c.rest.length using Nat.strongRecOn generalizing c with
  | ind n ih =>
    cases hc : c.current.isEof with
    | true =>
      rw [segments_of_eof hc, diagnostics_of_eof hc]
      exact ⟨Nat.zero_le _, Nat.zero_le _⟩
    | false =>
      have hlt : c.segment.next.rest.length < n := hn ▸ segment_length_lt hc
      obtain ⟨hsegments, hdiagnostics⟩ := ih _ hlt c.segment.next rfl
      have hfirst := stock_segment_lt hc
      have hcharges := statement_charges hc
      rw [segments_of_not_eof hc, diagnostics_of_not_eof hc, List.length_cons, List.length_append]
      omega

end Cursor

/-- Reading a program comes to an end, whatever the lexemes are. Moving to the end of a statement
stops when the lexemes are used up at the latest, and the whole run takes no more than fifteen steps
for each lexeme and one. Neither the statements, kept or dropped, nor the diagnostics outnumber the
lexemes that are no ends of input. -/
theorem Parser.read_within_budget (lexemes : List Lexeme) :
    let parser := ofLexemes lexemes
    (∀ c : Cursor, ∃ k ≤ c.rest.length, Cursor.advance^[k] c = c.recover ∧
      Cursor.endsStatement c.recover.current = true ∧
      ∀ j < k, Cursor.endsStatement (Cursor.advance^[j] c).current = false) ∧
    Machine.step^[15 * lexemes.length + 1] (.ofParser parser) =
      ⟨parser.read.2.cursor, 0, parser.read.2.log, parser.read.1.statements, [], .halt⟩ ∧
    parser.read.1.statements.length + parser.read.2.log.countP Event.isDiscarding ≤
      stock lexemes ∧
    parser.read.2.diagnostics.length ≤ stock lexemes := by
  intro parser
  obtain ⟨hsegments, hdiagnostics⟩ := (Cursor.ofLexemes lexemes).segments_within_stock
  refine ⟨Cursor.exists_iterate_recover, Machine.iterate_ofParser parser, ?_, ?_⟩
  · exact (Cursor.statements_add_discarding _).trans_le hsegments
  · rw [diagnostics_read]
    exact hdiagnostics

end MonkeyFrontend
