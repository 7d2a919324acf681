import Mathlib.Data.List.Forall2
import MonkeyFrontend.Parsing.Program
import MonkeyFrontend.Proofs.Parsing.Soundness

namespace MonkeyFrontend

def EndsOnce (lexemes : List Lexeme) : Prop :=
  ∀ lexeme ∈ lexemes.dropLast, lexeme.isEof = false

instance (lexemes : List Lexeme) : Decidable (EndsOnce lexemes) :=
  inferInstanceAs (Decidable (∀ lexeme ∈ lexemes.dropLast, lexeme.isEof = false))

theorem EndsOnce.of_append {front rest : List Lexeme} (h : EndsOnce (front ++ rest)) :
    EndsOnce rest := by
  intro lexeme hm
  cases rest with
  | nil => cases hm
  | cons head rest =>
    apply h lexeme
    rw [List.dropLast_append_of_ne_nil (by simp)]
    exact List.mem_append_right front hm

theorem EndsOnce.eq_nil {lexeme : Lexeme} {rest : List Lexeme} (h : EndsOnce (lexeme :: rest))
    (he : lexeme.isEof = true) : rest = [] := by
  cases rest with
  | nil => rfl
  | cons head rest =>
    have hl := h lexeme (by simp [List.dropLast])
    rw [he] at hl
    cases hl

namespace Segment

def stretches : List Lexeme → List Segment → List (List Lexeme)
  | _, [] => []
  | rest, segment :: segments =>
    ((rest.take (rest.length - segment.next.rest.length)).filter fun lexeme => !lexeme.isEof) ::
      stretches segment.next.rest segments

/-- What a segment makes of the lexemes that it takes up. Without diagnostics they derive the
statement that is kept; otherwise none is kept and all up to the end of a statement is gone. -/
structure Accounts (stretch : List Lexeme) (segment : Segment) : Prop where
  ne_nil : stretch ≠ []
  semicolon : ∀ lexeme ∈ stretch.dropLast, lexeme.kind ≠ .semicolon
  kept : segment.diagnostics = [] →
    ∃ sentence : Sentence, sentence.lexemes = stretch ∧ segment.statement = some sentence.tree
  dropped : segment.diagnostics ≠ [] → segment.statement = none ∧
    ((∃ lexeme, stretch.getLast? = some lexeme ∧ lexeme.kind = .semicolon) ∨
      segment.next.rest = [])

end Segment

namespace Cursor

open Outcome

theorem recover_rest (c : Cursor) :
    c.recover.rest = [] ∨ ∃ lexeme tail, c.recover.rest = lexeme :: tail ∧
      endsStatement lexeme = true := by
  have h := List.head?_dropWhile_not (fun lexeme => !endsStatement lexeme) c.rest
  cases hr : c.recover.rest with
  | nil => exact .inl rfl
  | cons lexeme tail =>
    have hd : c.rest.dropWhile (fun lexeme => !endsStatement lexeme) = lexeme :: tail := hr
    rw [hd] at h
    exact .inr ⟨lexeme, tail, rfl, by simpa using h⟩

theorem kind_ne_semicolon {lexeme : Lexeme} (h : endsStatement lexeme = false) :
    lexeme.kind ≠ .semicolon := by
  simp only [endsStatement, Bool.or_eq_false_iff] at h
  simpa using h.1

/-- The lexemes up to the next segment are those that the segment accounts for, and perhaps an end
of input after them. -/
structure Takes (c : Cursor) (stretch ending : List Lexeme) : Prop where
  rest : c.rest = stretch ++ ending ++ c.segment.next.rest
  inside : ∀ lexeme ∈ stretch, lexeme.isEof = false
  outside : ∀ lexeme ∈ ending, lexeme.isEof = true
  accounts : c.segment.Accounts stretch

theorem takes_of_kept {c : Cursor} {s : Statement} (hv : c.statement.value = some s)
    (hd : c.statement.diagnostics = []) : ∃ stretch, c.Takes stretch [] := by
  obtain ⟨sentence, ⟨last, rest, hc, hlast⟩, rfl⟩ := derives_statement ⟨hv, rfl, hd⟩
  obtain ⟨front, hfront, hnot⟩ := (confined_statement c).within.rest
  have hl : sentence.lexemes = front ++ [last] := by
    rw [hc, hlast] at hfront
    have hl : sentence.lexemes ++ rest = (front ++ [last]) ++ rest := by simpa using hfront
    exact List.append_cancel_right hl
  have hnext : c.segment.next.rest = rest := by
    rw [segment_of_kept hv hd, hlast]
    rfl
  refine ⟨sentence.lexemes, ?_, ?_, ?_, ?_⟩
  · rw [hnext, hc, List.append_nil]
  · intro lexeme hm
    simpa [Lexeme.isEof] using sentence.kind_ne_eof lexeme hm
  · simp
  · refine ⟨by simp [hl], ?_, ?_, ?_⟩
    · rw [hl, List.dropLast_concat]
      exact fun lexeme hm => kind_ne_semicolon (hnot lexeme hm)
    · intro _
      exact ⟨sentence, rfl, by rw [segment_of_kept hv hd]⟩
    · intro hn
      exact absurd ((segment_diagnostics c).trans hd) hn

theorem takes_of_dropped {c : Cursor} (hc : c.current.isEof = false) (he : EndsOnce c.rest)
    (h : c.statement.value = none ∨ c.statement.diagnostics ≠ []) :
    ∃ stretch ending, c.Takes stretch ending := by
  have hdiagnostics : c.segment.diagnostics ≠ [] := by
    rw [segment_diagnostics]
    exact h.elim (confined_statement c).explained id
  have hnone : c.segment.statement = none := by rw [segment_of_dropped h]
  have hnext : c.segment.next.rest = c.statement.cursor.recover.rest.tail := by
    rw [segment_of_dropped h]
    rfl
  obtain ⟨front, hfront, hnot⟩ := ((confined_statement c).within.trans (.recover _)).rest
  have hinside : ∀ lexeme ∈ front, lexeme.isEof = false :=
    fun lexeme hm => isEof_of_not_ends (hnot lexeme hm)
  have haccounts (stretch : List Lexeme) (hne : stretch ≠ [])
      (hs : ∀ lexeme ∈ stretch.dropLast, lexeme.kind ≠ .semicolon)
      (hend : (∃ lexeme, stretch.getLast? = some lexeme ∧ lexeme.kind = .semicolon) ∨
        c.segment.next.rest = []) : c.segment.Accounts stretch :=
    ⟨hne, hs, fun hd => absurd hd hdiagnostics, fun _ => ⟨hnone, hend⟩⟩
  have hfs : ∀ lexeme ∈ front.dropLast, lexeme.kind ≠ .semicolon :=
    fun lexeme hm => kind_ne_semicolon (hnot lexeme (List.dropLast_subset front hm))
  obtain hr | ⟨lexeme, tail, hr, hends⟩ := recover_rest c.statement.cursor
  · rw [hr] at hfront hnext
    have hne : front ≠ [] := by
      rintro rfl
      exact rest_ne_nil_of_not_eof hc hfront
    refine ⟨front, [], ?_, hinside, by simp, haccounts front hne hfs (.inr hnext)⟩
    rw [hnext, hfront]
    simp
  · rw [hr] at hfront hnext
    by_cases heof : lexeme.isEof = true
    · have hne : front ≠ [] := by
        rintro rfl
        simp [current, hfront, heof] at hc
      have htail : tail = [] := (hfront ▸ he).of_append.eq_nil heof
      refine ⟨front, [lexeme], ?_, hinside, by simp [heof], haccounts front hne hfs (.inr ?_)⟩
      · rw [hnext, hfront]
        simp
      · rw [hnext, htail]
        rfl
    · have hsemi : lexeme.kind = .semicolon := by
        simp only [endsStatement, Bool.or_eq_true, decide_eq_true_eq] at hends
        exact hends.resolve_right fun hk => heof (by simp [Lexeme.isEof, hk])
      refine ⟨front ++ [lexeme], [], ?_, ?_, by simp, haccounts _ (by simp) ?_ (.inl ?_)⟩
      · rw [hnext, hfront]
        simp
      · intro other hm
        obtain hm | hm := List.mem_append.mp hm
        · exact hinside other hm
        · rw [List.mem_singleton.mp hm]
          simpa using heof
      · rw [List.dropLast_concat]
        exact fun other hm => kind_ne_semicolon (hnot other hm)
      · exact ⟨lexeme, List.getLast?_concat, hsemi⟩

theorem exists_takes {c : Cursor} (hc : c.current.isEof = false) (he : EndsOnce c.rest) :
    ∃ stretch ending, c.Takes stretch ending := by
  cases hv : c.statement.value with
  | none => exact takes_of_dropped hc he (.inl hv)
  | some s =>
    by_cases hd : c.statement.diagnostics = []
    · obtain ⟨stretch, h⟩ := takes_of_kept hv hd
      exact ⟨stretch, [], h⟩
    · exact takes_of_dropped hc he (.inr hd)

theorem Takes.filter_eq {c : Cursor} {stretch ending : List Lexeme} (h : c.Takes stretch ending) :
    (stretch ++ ending).filter (fun lexeme => !lexeme.isEof) = stretch := by
  have hin : stretch.filter (fun lexeme => !lexeme.isEof) = stretch :=
    List.filter_eq_self.mpr fun lexeme hm => by simp [h.inside lexeme hm]
  have hout : ending.filter (fun lexeme => !lexeme.isEof) = [] :=
    List.filter_eq_nil_iff.mpr fun lexeme hm => by simp [h.outside lexeme hm]
  rw [List.filter_append, hin, hout, List.append_nil]

theorem Takes.take_eq {c : Cursor} {stretch ending : List Lexeme} (h : c.Takes stretch ending) :
    c.rest.take (c.rest.length - c.segment.next.rest.length) = stretch ++ ending := by
  rw [h.rest, List.length_append, Nat.add_sub_cancel, List.take_left]

theorem filter_rest_of_eof {c : Cursor} (hc : c.current.isEof = true) (he : EndsOnce c.rest) :
    c.rest.filter (fun lexeme => !lexeme.isEof) = [] := by
  obtain ⟨rest, finish⟩ := c
  cases rest with
  | nil => rfl
  | cons lexeme rest =>
    obtain rfl := he.eq_nil hc
    have hl : lexeme.isEof = true := hc
    simp [hl]

/-- The segments of a run, one after another, account for all that comes before the end. -/
theorem segments_account (c : Cursor) (he : EndsOnce c.rest) :
    (Segment.stretches c.rest c.segments).flatten =
        c.rest.filter (fun lexeme => !lexeme.isEof) ∧
      List.Forall₂ (fun stretch segment => segment.Accounts stretch)
        (Segment.stretches c.rest c.segments) c.segments := by
  induction hn : c.rest.length using Nat.strongRecOn generalizing c with
  | ind n ih =>
    cases hc : c.current.isEof with
    | true =>
      rw [segments_of_eof hc, filter_rest_of_eof hc he]
      exact ⟨rfl, .nil⟩
    | false =>
      obtain ⟨stretch, ending, h⟩ := exists_takes hc he
      have hlt : c.segment.next.rest.length < n := hn ▸ segment_length_lt hc
      have he' : EndsOnce c.segment.next.rest := (h.rest ▸ he).of_append
      obtain ⟨hflat, hall⟩ := ih _ hlt _ he' rfl
      rw [segments_of_not_eof hc, Segment.stretches, h.take_eq, h.filter_eq]
      refine ⟨?_, .cons h.accounts hall⟩
      rw [List.flatten_cons, hflat]
      conv => rhs; rw [h.rest, List.filter_append, h.filter_eq]

end Cursor

theorem Segment.statements_of_accounts {stretches : List (List Lexeme)} {segments : List Segment}
    (h : List.Forall₂ (fun stretch segment => segment.Accounts stretch) stretches segments) :
    (segments.filterMap Segment.statement).map some =
      (segments.filter fun segment => segment.diagnostics = []).map Segment.statement := by
  induction h with
  | nil => rfl
  | @cons stretch segment stretches segments ha _ ih =>
    by_cases hd : segment.diagnostics = []
    · obtain ⟨sentence, -, hs⟩ := ha.kept hd
      simp [hd, hs, ih]
    · obtain ⟨hs, -⟩ := ha.dropped hd
      simp [hd, hs, ih]

/-- A run splits the lexemes before the end into stretches, one for each segment. The program has
the statements of those that drew no diagnostic, and these are derived from their stretches. -/
theorem Parser.read_accounts (lexemes : List Lexeme) (h : EndsOnce lexemes) :
    let segments := (Cursor.ofLexemes lexemes).segments
    let stretches := Segment.stretches lexemes segments
    stretches.flatten = lexemes.filter (fun lexeme => !lexeme.isEof) ∧
      List.Forall₂ (fun stretch segment => segment.Accounts stretch) stretches segments ∧
      (Parser.ofLexemes lexemes).read.1.statements.map some =
        (segments.filter fun segment => segment.diagnostics = []).map Segment.statement ∧
      (Parser.ofLexemes lexemes).read.2.diagnostics = segments.flatMap Segment.diagnostics := by
  obtain ⟨hflat, hall⟩ := (Cursor.ofLexemes lexemes).segments_account h
  exact ⟨hflat, hall, Segment.statements_of_accounts hall, Parser.diagnostics_read lexemes⟩

theorem Parser.read_accounts_stray_sign :
    let lexemes : List Lexeme := [⟨⟨1, 1⟩, ⟨.letKeyword, .text "let"⟩⟩,
      ⟨⟨1, 5⟩, ⟨.assign, .text "="⟩⟩, ⟨⟨1, 6⟩, ⟨.semicolon, .text ";"⟩⟩,
      ⟨⟨1, 8⟩, ⟨.identifier, .text "x"⟩⟩, ⟨⟨1, 9⟩, .eof⟩]
    EndsOnce lexemes ∧
      (Segment.stretches lexemes (Cursor.ofLexemes lexemes).segments).flatten =
        lexemes.dropLast :=
  ⟨by decide, (Parser.read_accounts _ (by decide)).1⟩

end MonkeyFrontend
