import MonkeyFrontend.Proofs.Lexeme.Layout
import MonkeyFrontend.Proofs.Parsing.Diagnosis
import MonkeyFrontend.Proofs.Parsing.Viability
import MonkeyFrontend.Proofs.RoundTrip

namespace MonkeyFrontend

namespace Location

/-- Places in the order of a text: by line, and by column in a line. -/
instance : LT Location where
  lt l m := l.line < m.line ∨ l.line = m.line ∧ l.column < m.column

theorem lt_def {l m : Location} :
    l < m ↔ l.line < m.line ∨ l.line = m.line ∧ l.column < m.column := Iff.rfl

theorem lt_trans {l m n : Location} (h : l < m) (h' : m < n) : l < n := by
  rw [lt_def] at *
  omega

theorem lt_step (l : Location) (c : Char) : l < l.step c := by
  rw [lt_def, step]
  split
  · exact .inl (Nat.lt_succ_self _)
  · exact .inr ⟨rfl, Nat.lt_succ_self _⟩

theorem lt_after (l : Location) {text : List Char} (h : text ≠ []) : l < l.after text := by
  induction text generalizing l with
  | nil => exact absurd rfl h
  | cons c text ih =>
    rw [after_cons]
    cases text with
    | nil => exact lt_step l c
    | cons d text => exact lt_trans (lt_step l c) (ih _ (by simp))

end Location

theorem pairwise_of_scan (location : Location) (cs : List Char) {lexemes : List Lexeme}
    (h : scan location cs [] = .ok lexemes) :
    (∀ lexeme ∈ lexemes, ∀ l < location, l < lexeme.location) ∧
      lexemes.Pairwise fun first second => first.location < second.location := by
  induction hn : cs.length using Nat.strongRecOn generalizing location cs lexemes with
  | ind n ih =>
    cases cs with
    | nil =>
      rw [scan_nil] at h
      cases h
      simp [Lexeme.finish]
    | cons c rest =>
      cases hb : isBlank c with
      | true =>
        rw [scan_blank hb] at h
        obtain ⟨hafter, hpairs⟩ := ih rest.length (by simp [← hn]) _ rest h rfl
        refine ⟨fun lexeme hm l hl => hafter lexeme hm l ?_, hpairs⟩
        exact Location.lt_trans hl (Location.lt_step location c)
      | false =>
        cases hcut : Cut.ofText? (c :: rest) with
        | none =>
          rw [scan_stray hb hcut] at h
          cases h
        | some cut =>
          rw [scan_cut hb hcut, scan_done] at h
          cases hs : scan (location.after cut.text) cut.rest [] with
          | error d =>
            rw [hs] at h
            cases h
          | ok later =>
            rw [hs] at h
            cases h
            have hlt : cut.rest.length < n := hn ▸ Cut.rest_length_lt_of_ofText? hcut
            obtain ⟨hafter, hpairs⟩ := ih _ hlt _ _ hs rfl
            have hnext := location.lt_after (Cut.text_ne_nil_of_ofText? hcut)
            refine ⟨fun lexeme hm l hl => ?_, ?_⟩
            · obtain rfl | hm := List.mem_cons.mp hm
              · exact hl
              · exact hafter lexeme hm l (Location.lt_trans hl hnext)
            · exact .cons (fun lexeme hm => hafter lexeme hm location hnext) hpairs

theorem ended_of_tokenize {source : String} {lexemes : List Lexeme}
    (h : tokenize source = .ok lexemes) : Ended lexemes := by
  obtain ⟨pieces, final, hlayout, rfl⟩ := exists_layout_of_scan [] source.toList h
  refine ⟨pieces.map Piece.lexeme, _, rfl, rfl, fun lexeme hm => ?_⟩
  obtain ⟨piece, hp, rfl⟩ := List.mem_map.mp hm
  exact decide_eq_false (hlayout.spelling hp).kind_ne_eof

namespace Cursor

def Shut (c : Cursor) : Prop :=
  ∀ lexeme, c.rest.getLast? = some lexeme → endsStatement lexeme = true

theorem Shut.fenced {c : Cursor} (h : c.Shut) (hne : c.rest ≠ []) : c.Fenced :=
  ⟨c.rest.getLast hne, List.getLast_mem hne, h _ (List.getLast?_eq_some_getLast hne)⟩

theorem Shut.of_suffix {c d : Cursor} (h : c.Shut) (hs : d.rest <:+ c.rest) : d.Shut := by
  obtain ⟨front, hfront⟩ := hs
  intro lexeme hl
  apply h lexeme
  rw [← hfront, List.getLast?_append, hl]
  rfl

theorem recover_advance_suffix (c : Cursor) : c.recover.advance.rest <:+ c.advance.rest := by
  obtain ⟨rest, finish⟩ := c
  cases rest with
  | nil => exact List.suffix_refl []
  | cons lexeme rest =>
    by_cases h : endsStatement lexeme = true
    · have hrecover := recover_of_ends (c := ⟨lexeme :: rest, finish⟩) h
      exact hrecover.symm ▸ List.suffix_refl rest
    · have hrecover : (Cursor.mk (lexeme :: rest) finish).recover.rest =
          rest.dropWhile fun lexeme => !endsStatement lexeme := by simp [recover, h]
      rw [advance, hrecover]
      exact (List.tail_suffix _).trans (List.dropWhile_suffix _)

theorem sublist_complaints (taken : List Lexeme) :
    ((complaints taken).map Diagnostic.location).Sublist (taken.map Lexeme.location) := by
  rw [complaints, List.map_map]
  exact List.filter_sublist.map Lexeme.location

theorem segment_next_suffix (c : Cursor) :
    c.segment.next.rest <:+ c.statement.cursor.advance.rest := by
  obtain ⟨s, hs, hd⟩ | h := c.kept_or_dropped
  · exact (segment_of_kept hs hd).symm ▸ List.suffix_refl _
  · rw [segment_of_dropped h]
    exact recover_advance_suffix _

/-- A statement that is given up is over behind the lexeme at which it was given up. -/
theorem within_beyond {c : Cursor} {taken : List Lexeme} {diagnostic : Diagnostic}
    (h : c.statement.TakesUp c.rest taken (some diagnostic)) :
    c.Within (c.statement.cursor.beyond (some diagnostic)) ∧
      c.segment.next.rest <:+ (c.statement.cursor.beyond (some diagnostic)).advance.rest := by
  have hwithin := (confined_statement c).within
  have hnext : c.segment.next = c.statement.cursor.recover.advance := by
    rw [segment_of_dropped (.inl (h.value.mpr rfl))]
  cases ha : diagnostic.reason.isAhead with
  | true =>
    have hbeyond : c.statement.cursor.beyond (some diagnostic) = c.statement.cursor.advance := by
      simp [beyond, ha]
    have hstep := Within.advance (h.inside diagnostic rfl ha)
    rw [hbeyond, hnext, ← hstep.recover_eq]
    exact ⟨hwithin.trans hstep, recover_advance_suffix _⟩
  | false =>
    have hbeyond : c.statement.cursor.beyond (some diagnostic) = c.statement.cursor := by
      simp [beyond, ha]
    rw [hbeyond, hnext]
    exact ⟨hwithin, recover_advance_suffix _⟩

/-- The diagnostics of a statement are about lexemes that the next statement comes after. -/
theorem exists_sublist_of_statement {c : Cursor} (h : c.Fenced) :
    ∃ front, c.rest = front ++ c.segment.next.rest ∧
      (c.statement.diagnostics.map Diagnostic.location).Sublist (front.map Lexeme.location) := by
  obtain ⟨taken, fatal, ht, -⟩ := concludes_statement c
  cases fatal with
  | none =>
    obtain ⟨skipped, hskipped⟩ := c.segment_next_suffix
    refine ⟨taken ++ skipped, ?_, ?_⟩
    · rw [List.append_assoc, hskipped]
      exact ht.ahead
    · rw [ht.diagnostics, Option.toList_none, List.append_nil, List.map_append]
      exact (sublist_complaints taken).trans (List.sublist_append_left _ _)
  | some diagnostic =>
    obtain ⟨hwithin, skipped, hskipped⟩ := within_beyond ht
    have hahead := ht.ahead
    have hrefused := ht.refused diagnostic rfl
    generalize c.statement.cursor.beyond (some diagnostic) = stop
      at hwithin hskipped hahead hrefused
    have hstop : stop.rest = stop.current :: stop.advance.rest := by
      obtain ⟨rest, finish⟩ := stop
      cases rest with
      | nil => exact absurd rfl (hwithin.fenced h).rest_ne_nil
      | cons lexeme rest => rfl
    have hlocation : diagnostic.location = stop.current.location := by cases hrefused <;> rfl
    refine ⟨taken ++ stop.current :: skipped, ?_, ?_⟩
    · rw [hahead, hstop, ← hskipped]
      simp
    · rw [ht.diagnostics, List.map_append, List.map_append, List.map_cons, ← hlocation]
      refine (sublist_complaints taken).append ?_
      exact List.Sublist.cons_cons _ (List.nil_sublist _)

theorem sublist_diagnostics (c : Cursor) (h : c.Shut) :
    (c.diagnostics.map Diagnostic.location).Sublist (c.rest.map Lexeme.location) := by
  induction hn : c.rest.length using Nat.strongRecOn generalizing c with
  | ind n ih =>
    cases hc : c.current.isEof with
    | true =>
      rw [diagnostics_of_eof hc]
      exact List.nil_sublist _
    | false =>
      obtain ⟨front, hfront, hsub⟩ :=
        exists_sublist_of_statement (h.fenced (rest_ne_nil_of_not_eof hc))
      have hlt : c.segment.next.rest.length < n := hn ▸ segment_length_lt hc
      have hnext := ih _ hlt c.segment.next (h.of_suffix ⟨front, hfront.symm⟩) rfl
      rw [diagnostics_of_not_eof hc, hfront, List.map_append, List.map_append]
      exact hsub.append hnext

theorem shut_of_ended {lexemes : List Lexeme} (h : Ended lexemes) : (ofLexemes lexemes).Shut := by
  obtain ⟨front, eof, rfl, heof, -⟩ := h
  have hk : eof.kind = .eof := of_decide_eq_true heof
  intro lexeme hl
  have hlast : (front ++ [eof]).getLast? = some lexeme := hl
  rw [List.getLast?_concat, Option.some.injEq] at hlast
  rw [← hlast, endsStatement, hk]
  rfl

end Cursor

theorem parse_of_stray {source : String} {diagnostic : Diagnostic}
    (h : tokenize source = .error diagnostic) : parse source = .error [diagnostic] := by
  simp [parse, Reading.ofSource, Parser.ofSource, h, Except.map]

/-- The diagnostics of a text come in its order, no two at one place. If it can be cut into lexemes,
they are at places of lexemes. -/
theorem parse_diagnostics_ordered {source : String} {diagnostics : List Diagnostic}
    (h : parse source = .error diagnostics) :
    (diagnostics.Pairwise fun first second => first.location < second.location) ∧
      ∀ lexemes, tokenize source = .ok lexemes →
        ∀ diagnostic ∈ diagnostics, ∃ lexeme ∈ lexemes, lexeme.location = diagnostic.location := by
  cases ht : tokenize source with
  | error diagnostic =>
    rw [parse_of_stray ht] at h
    cases h
    exact ⟨List.pairwise_singleton _ _, fun lexemes hl => by cases hl⟩
  | ok lexemes =>
    have hd : (Cursor.ofLexemes lexemes).diagnostics = diagnostics := by
      rw [parse_of_tokenize ht] at h
      split at h
      · cases h
      · exact Except.error.inj h
    have hsub : ((Cursor.ofLexemes lexemes).diagnostics.map Diagnostic.location).Sublist
        (lexemes.map Lexeme.location) :=
      Cursor.sublist_diagnostics _ (Cursor.shut_of_ended (ended_of_tokenize ht))
    have hpairs := (pairwise_of_scan .start source.toList ht).2
    rw [hd] at hsub
    constructor
    · exact List.pairwise_map.mp ((List.pairwise_map.mpr hpairs).sublist hsub)
    · intro others hl diagnostic hm
      rw [← Except.ok.inj hl]
      exact List.mem_map.mp (hsub.subset (List.mem_map_of_mem hm))

theorem parse_diagnostics_ordered_lines :
    let source := "9223372036854775808 + (a;\nlet "
    let diagnostics : List Diagnostic := [⟨⟨1, 1⟩, .unreadableInteger "'9223372036854775808'"⟩,
      ⟨⟨1, 25⟩, .expected .rparen "';'"⟩, ⟨⟨2, 5⟩, .expected .identifier "end of input"⟩]
    parse source = .error diagnostics ∧
      (diagnostics.Pairwise fun first second => first.location < second.location) ∧
      ∀ lexemes, tokenize source = .ok lexemes →
        ∀ diagnostic ∈ diagnostics, ∃ lexeme ∈ lexemes, lexeme.location = diagnostic.location := by
  intro source diagnostics
  have h : parse source = .error diagnostics := by decide +kernel
  exact ⟨h, parse_diagnostics_ordered h⟩

end MonkeyFrontend
