import MonkeyFrontend.Proofs.Parsing.Acceptance
import MonkeyFrontend.Proofs.Parsing.Lookahead
import MonkeyFrontend.Proofs.Parsing.Overrun

namespace MonkeyFrontend

namespace Cursor

open Outcome

theorem overSemicolon_behind {c : Cursor} (h : c.current.kind ≠ .semicolon) (last : Lexeme) :
    (c.behind [last]).overSemicolon = c.behind [last] :=
  if_neg h

theorem finishes_close (make : Expression → Statement) :
    Finishes closers [.eof] (closeStatement make) [] := by
  refine ⟨by simp, fun c hc => List.mem_cons_of_mem _ hc, fun value last c hc => ?_⟩
  have hover := overSemicolon_behind (c := c) (by simp [List.mem_singleton.mp hc]) last
  exact ⟨make value, last, .of_eq (congrArg _ hover)⟩

theorem resolves_close (s : Statement) (last : Lexeme) (c : Cursor) :
    Resolves [.eof] (fun e => .done s (e.behind [last]).overSemicolon) c := by
  by_cases h : c.current.kind = .semicolon
  · obtain ⟨d, hd⟩ := exists_behind (Lexeme.isEof_of_kind h (by decide))
    generalize c.current = semicolon at h hd
    subst hd
    refine (Resolves.done s semicolon d).shift (by simp [Lexeme.isEof, h]) fun e => ?_
    have hover : ((e.behind [semicolon]).behind [last]).overSemicolon = e.behind [semicolon] :=
      if_pos h
    exact .of_eq (congrArg _ hover)
  · refine ⟨[], c, rfl, by simp, .reads s last fun d hd => ?_⟩
    have hnot : d.current.kind ≠ .semicolon := by
      obtain hd | hd := hd
      · exact hd ▸ h
      · simp [List.mem_singleton.mp hd]
    exact .of_eq (congrArg _ (overSemicolon_behind hnot last))

theorem resolves_value (make : Expression → Statement) (c : Cursor) :
    Resolves [.eof] (fun c => c.wholeExpression.andThen (closeStatement make)) c :=
  ((resolves_expression_climb levelLimit).1 .lowest c).andThen (by simp [closers])
    (finishes_close make) fun value last d => resolves_close (make value) last d

theorem completes_value (make : Expression → Statement) :
    Completes [.eof] (fun c => c.wholeExpression.andThen (closeStatement make)) [] := by
  refine ⟨[someName], by decide, fun c hc => ?_⟩
  have hlowest : c.current.kind.precedence = .lowest := by
    rw [List.mem_singleton.mp hc]
    rfl
  have hvalue :=
    wholeExpression_yields (Phrase.whole (.identifier someName rfl)) hlowest (by decide)
  obtain ⟨s, last, hs⟩ := (finishes_close make).yields _ _ c hc
  exact ⟨s, last, (hvalue.andThen _).yields hs⟩

theorem not_yields_of_eof {c d : Cursor} {e : Expression} (h : c.current.kind = .eof) :
    ¬ c.wholeExpression.Yields e d := by
  intro hy
  obtain ⟨rest, finish⟩ := c
  obtain ⟨p, tail, rfl, -, -⟩ := derives_wholeExpression hy
  rw [current_lexemes] at h
  exact p.kind_not_mem_outer p.first (List.head_mem _) (by simp [h, Stratum.outer])

def someSign : Lexeme := ⟨.start, ⟨.assign, .text "="⟩⟩

theorem resolves_letBinding (keyword : Lexeme) (c : Cursor) :
    Resolves [.eof] (fun e => (e.behind [keyword]).letBinding) c := by
  let make (name : Token) (value : Expression) : Statement :=
    .letBinding keyword.token ⟨name, name.literal⟩ (some value)
  change Resolves [.eof] (fun e => ((e.behind [keyword]).expect .identifier).andThen fun name d =>
    (d.expect .assign).andThen fun _ d =>
      d.advance.wholeExpression.andThen (closeStatement (make name))) c
  refine .expect (by decide) (rfl : someName.kind = _) ?_ (fun name _ d => ?_) keyword c
  · exact .expect (by decide) (rfl : someSign.kind = _) (completes_value (make someName.token))
      someName
  · exact .expect (by decide) (rfl : someSign.kind = _) (completes_value (make name.token))
      (fun _ _ d => resolves_value (make name.token) d) name d

theorem returnValue_of_eof {c : Cursor} (h : c.current.kind = .eof) (keyword : Lexeme) :
    (c.behind [keyword]).returnValue =
      .done (.returnValue keyword.token none) (c.behind [keyword]).overSemicolon :=
  returnValue_of_ends (by simp [endsStatement, h]) keyword

theorem completes_returnValue (keyword : Lexeme) :
    Completes [.eof] (fun e => (e.behind [keyword]).returnValue) [] := by
  refine ⟨[], by simp, fun c hc => ⟨.returnValue keyword.token none, keyword, ?_⟩⟩
  have heof := List.mem_singleton.mp hc
  have hover := overSemicolon_behind (c := c) (by simp [heof]) keyword
  exact .of_eq ((returnValue_of_eof heof keyword).trans (congrArg _ hover))

theorem resolves_returnValue (keyword : Lexeme) (c : Cursor) :
    Resolves [.eof] (fun e => (e.behind [keyword]).returnValue) c := by
  cases h : endsStatement c.current with
  | true =>
    refine .of_current (fun d hd => ?_) (fun d e s hk hy => ?_) (completes_returnValue keyword)
      (resolves_close (.returnValue keyword.token none) keyword c)
    · exact .of_eq (returnValue_of_ends (hd ▸ h) keyword)
    · exact returnValue_of_eof (List.mem_singleton.mp hk) keyword ▸ hy
  | false =>
    refine .of_current (fun d hd => ?_) (fun d e s hk hy => ?_) (completes_returnValue keyword)
      (resolves_value (fun value => .returnValue keyword.token (some value)) c)
    · have hnot : ¬ endsStatement (d.behind [keyword]).peek = true := by
        have hpeek : (d.behind [keyword]).peek = c.current := hd
        simp [hpeek, h]
      exact .of_eq (if_neg hnot)
    · obtain ⟨value, d', hvalue, -⟩ := yields_andThen_iff.mp hy
      exact absurd hvalue (not_yields_of_eof (List.mem_singleton.mp hk))

theorem statement_of_other {c : Cursor}
    (h : c.current.kind ∉ [.letKeyword, .returnKeyword, .semicolon]) :
    c.statement.Agrees c.expressionStatement := by
  simp only [List.mem_cons, List.not_mem_nil, or_false, not_or] at h
  apply (agrees_after rfl _).trans
  split
  · exact absurd ‹_› h.1
  · exact absurd ‹_› h.2.1
  · exact absurd ‹_› h.2.2
  · exact .of_eq rfl

theorem completes_statement : Completes [.eof] statement [] := by
  refine ⟨[someName], by decide, fun c hc => ?_⟩
  let sentence : Sentence := .expression (Phrase.whole (.identifier someName rfl)) none
  have hsuits : sentence.terminator.Suits c := fun _ => List.mem_singleton.mp hc
  have hlevels : ∀ p ∈ sentence.value?, p.levels ≤ levelLimit := by
    rintro p ⟨⟩
    decide
  obtain ⟨last, hlast⟩ := statement_yields hsuits hlevels
  exact ⟨sentence.tree, last, hlast⟩

theorem resolves_expressionStatement {c : Cursor}
    (h : c.current.kind ∉ [.letKeyword, .returnKeyword, .semicolon]) :
    Resolves [.eof] statement c := by
  refine .of_current (fun d hd => ?_) (fun d e s hk hy => ?_) completes_statement
    (resolves_value (fun value => .expression c.current.token (some value)) c)
  · refine (statement_of_other (hd ▸ h)).trans (.of_eq ?_)
    rw [← hd]
    rfl
  · obtain ⟨value, d', hvalue, -⟩ := yields_andThen_iff.mp hy
    exact absurd hvalue (not_yields_of_eof (List.mem_singleton.mp hk))

theorem resolves_statement (c : Cursor) : Resolves [.eof] statement c := by
  by_cases h : c.current.kind ∉ [.letKeyword, .returnKeyword, .semicolon]
  · exact resolves_expressionStatement h
  · simp only [List.mem_cons, List.not_mem_nil, or_false, Decidable.not_not] at h
    have hnot : c.current.isEof = false := by
      obtain h | h | h := h <;> exact Lexeme.isEof_of_kind h (by decide)
    obtain ⟨d, hd⟩ := exists_behind hnot
    generalize c.current = lexeme at h hnot hd
    subst hd
    have hfront : ∀ l ∈ [lexeme], l.isEof = false := by simpa using hnot
    obtain h | h | h := h
    · exact (resolves_letBinding lexeme d).shift hfront fun e => statement_of_let h _ _
    · exact (resolves_returnValue lexeme d).shift hfront fun e => statement_of_return h _ _
    · exact (Resolves.done _ lexeme d).shift hfront fun e => statement_of_semicolon h _ _

def diagnostics (c : Cursor) : List Diagnostic := c.segments.flatMap Segment.diagnostics

theorem diagnostics_of_eof {c : Cursor} (h : c.current.isEof = true) : c.diagnostics = [] := by
  rw [diagnostics, segments_of_eof h]
  rfl

theorem diagnostics_of_not_eof {c : Cursor} (h : c.current.isEof = false) :
    c.diagnostics = c.statement.diagnostics ++ c.segment.next.diagnostics := by
  rw [diagnostics, segments_of_not_eof h, List.flatMap_cons, segment_diagnostics]
  rfl

theorem diagnostics_of_yields {c d : Cursor} {s : Statement} {last : Lexeme}
    (h : c.current.isEof = false) (hy : c.statement.Yields s (d.behind [last])) :
    c.diagnostics = d.diagnostics := by
  have hnext : c.segment.next = d := by
    rw [segment_of_kept hy.value hy.diagnostics, hy.cursor]
    rfl
  rw [diagnostics_of_not_eof h, hy.diagnostics, hnext]
  rfl

/-- A run that has come so far draws its first diagnostic at the next lexeme, whatever comes after
that. If the lexeme is misplaced, other lexemes could have brought the run to the end of input. -/
structure Halts (front : List Lexeme) (follow : Lexeme) (diagnostic : Diagnostic) : Prop where
  inside : ∀ lexeme ∈ front, lexeme.isEof = false
  location : diagnostic.location = follow.location
  first : ∀ c : Cursor, c.current = follow →
    (c.behind front).diagnostics.head? = some diagnostic
  viable : diagnostic.reason.isMisplaced = true →
    ∃ ending : List Lexeme, (∀ lexeme ∈ ending, lexeme.isEof = false) ∧
      (front = [] → ending = []) ∧
      ∀ c : Cursor, c.current.kind = .eof → (c.behind (front ++ ending)).diagnostics = []

theorem isEof_behind {front : List Lexeme} (h : ∀ lexeme ∈ front, lexeme.isEof = false)
    (hne : front ≠ []) (c : Cursor) : (c.behind front).current.isEof = false := by
  cases front with
  | nil => exact absurd rfl hne
  | cons lexeme front => exact h lexeme List.mem_cons_self

theorem halts_of_stalls {front : List Lexeme} {c : Cursor} {diagnostic : Diagnostic}
    (hf : ∀ lexeme ∈ front, lexeme.isEof = false) (hc : (c.behind front).current.isEof = false)
    (hl : diagnostic.location = c.current.location)
    (hs : Stalls statement front c.current diagnostic)
    (hm : diagnostic.reason.isMisplaced = true → Completes [.eof] statement front) :
    Halts front c.current diagnostic := by
  refine ⟨hf, hl, fun d hd => ?_, fun hreason => ?_⟩
  · have hnot : (d.behind front).current.isEof = false := current_behind hd front ▸ hc
    rw [diagnostics_of_not_eof hnot, List.head?_append, hs d hd]
    rfl
  · by_cases hnil : front = []
    · -- nothing of the statement has been read, and the input may end before it
      subst hnil
      exact ⟨[], by simp, fun _ => rfl, fun d hd => diagnostics_of_eof (decide_eq_true hd)⟩
    · obtain ⟨ending, hinside, hyields⟩ := hm hreason
      refine ⟨ending, hinside, fun hn => absurd hn hnil, fun d hd => ?_⟩
      obtain ⟨s, last, hy⟩ := hyields d (List.mem_singleton.mpr hd)
      have hnot : (d.behind (front ++ ending)).current.isEof = false := by
        rw [behind_append]
        exact isEof_behind hf hnil _
      rw [diagnostics_of_yields hnot hy]
      exact diagnostics_of_eof (decide_eq_true hd)

theorem ne_nil_of_reads {front : List Lexeme} {follow last : Lexeme} {s : Statement}
    (h : Reads [.eof] statement front follow s last) : front ≠ [] := by
  rintro rfl
  have hy := h ⟨[], .start⟩ (.inr List.mem_cons_self)
  obtain ⟨sentence, ⟨_, rest, hrest, -⟩, -⟩ := derives_statement hy
  exact sentence.lexemes_ne_nil (List.append_eq_nil_iff.mp hrest.symm).1

/-- A statement that is read in front of a run leaves its first diagnostic as it is. -/
theorem Halts.behind {front front' : List Lexeme} {c : Cursor} {diagnostic : Diagnostic}
    {s : Statement} {last : Lexeme} (h : Halts front' c.current diagnostic)
    (hf : ∀ lexeme ∈ front, lexeme.isEof = false)
    (hr : Reads [.eof] statement front (c.behind front').current s last) :
    Halts (front ++ front') c.current diagnostic := by
  have hne := ne_nil_of_reads hr
  have hskip {d : Cursor} (hd : d.current = (c.behind front').current ∨ d.current.kind = .eof) :
      (d.behind front).diagnostics = d.diagnostics :=
    diagnostics_of_yields (isEof_behind hf hne d) (hr d (hd.imp_right List.mem_singleton.mpr))
  refine ⟨List.forall_mem_append.mpr ⟨hf, h.inside⟩, h.location, fun d hd => ?_, fun hm => ?_⟩
  · rw [behind_append, hskip (.inl (current_behind hd front'))]
    exact h.first d hd
  · obtain ⟨ending, hinside, hnil, hend⟩ := h.viable hm
    refine ⟨ending, hinside, fun hn => absurd (List.append_eq_nil_iff.mp hn).1 hne, fun d hd => ?_⟩
    rw [List.append_assoc, behind_append, hskip]
    · exact hend d hd
    · by_cases hfront : front' = []
      · rw [hfront, hnil hfront]
        exact .inr hd
      · rw [behind_append]
        exact .inl (current_behind_of_ne_nil hfront _ _)

/-- A run that draws a diagnostic halts where it draws the first. -/
theorem exists_halts {c : Cursor} {diagnostic : Diagnostic}
    (h : c.diagnostics.head? = some diagnostic) :
    ∃ (front : List Lexeme) (d : Cursor), c = d.behind front ∧
      Halts front d.current diagnostic := by
  induction hn : c.rest.length using Nat.strongRecOn generalizing c with
  | ind n ih =>
    cases hc : c.current.isEof with
    | true =>
      rw [diagnostics_of_eof hc] at h
      cases h
    | false =>
      obtain ⟨front, d, rfl, hfront, hd⟩ := resolves_statement c
      cases hd with
      | reads s last hr =>
        have hne := ne_nil_of_reads hr
        rw [diagnostics_of_yields hc (hr d (.inl rfl))] at h
        have hlt : d.rest.length < n := by
          have hpos := List.length_pos_iff.mpr hne
          rw [← hn, Cursor.behind, List.length_append]
          omega
        obtain ⟨front', e, rfl, he⟩ := ih _ hlt h rfl
        exact ⟨front ++ front', e, (behind_append _ _ _).symm, he.behind hfront hr⟩
      | stalls diagnostic' hl hs hm =>
        have hhalts := halts_of_stalls hfront hc hl hs hm
        obtain rfl : diagnostic' = diagnostic :=
          Option.some.inj ((hhalts.first d rfl).symm.trans h)
        exact ⟨front, d, rfl, hhalts⟩

theorem exists_halts_at {lexemes : List Lexeme} {diagnostic : Diagnostic} (he : Ended lexemes)
    (h : (ofLexemes lexemes).diagnostics.head? = some diagnostic) :
    ∃ (front : List Lexeme) (follow : Lexeme) (tail : List Lexeme),
      lexemes = front ++ follow :: tail ∧ Halts front follow diagnostic := by
  obtain ⟨front, ⟨rest, finish⟩, hc, hd⟩ := exists_halts h
  have hrest : lexemes = front ++ rest := congrArg Cursor.rest hc
  cases rest with
  | nil =>
    obtain ⟨body, eof, rfl, heof, -⟩ := he
    have hinside := hd.inside eof (by simp [← (List.append_nil front ▸ hrest)])
    rw [heof] at hinside
    cases hinside
  | cons follow tail => exact ⟨front, follow, tail, hrest, hd⟩

end Cursor

namespace Parser

theorem index_eq_length {front tail : List Lexeme} {follow lexeme : Lexeme} {i : Nat}
    (hnodup : ((front ++ follow :: tail).map Lexeme.location).Nodup)
    (hi : (front ++ follow :: tail)[i]? = some lexeme) (hl : follow.location = lexeme.location) :
    i = front.length := by
  have hlt : i < ((front ++ follow :: tail).map Lexeme.location).length := by
    rw [List.length_map]
    exact (List.getElem?_eq_some_iff.mp hi).1
  refine (List.getElem?_inj hlt hnodup).mp ?_
  rw [List.getElem?_map, hi, List.getElem?_map, List.getElem?_append_right (Nat.le_refl _)]
  simp [hl]

/-- The first diagnostic is drawn as soon as the lexemes up to its place call for it. Where a lexeme
is misplaced, those before it begin a program that is read without a diagnostic. -/
theorem first_diagnostic_viable {lexemes : List Lexeme} {i : Nat} {lexeme : Lexeme}
    {diagnostic : Diagnostic} (hnodup : (lexemes.map Lexeme.location).Nodup)
    (hended : Ended lexemes)
    (hfirst : (ofLexemes lexemes).read.2.diagnostics.head? = some diagnostic)
    (hi : lexemes[i]? = some lexeme) (hl : diagnostic.location = lexeme.location) :
    (∀ other : List Lexeme, other.take (i + 1) = lexemes.take (i + 1) →
      (ofLexemes other).read.2.diagnostics.head? = some diagnostic) ∧
    (diagnostic.reason.isMisplaced = true →
      ∃ continuation : List Lexeme, (∀ other ∈ continuation, other.isEof = false) ∧
        ∀ eof : Lexeme, eof.isEof = true →
          (ofLexemes (lexemes.take i ++ continuation ++ [eof])).read.2.diagnostics = []) := by
  rw [diagnostics_read] at hfirst
  obtain ⟨front, follow, tail, rfl, hhalts⟩ := Cursor.exists_halts_at hended hfirst
  obtain rfl := index_eq_length hnodup hi (hhalts.location.symm.trans hl)
  constructor
  · intro other hother
    have hsplit : other = front ++ follow :: other.drop (front.length + 1) := by
      rw [List.take_length_add_append] at hother
      conv => lhs; rw [← List.take_append_drop (front.length + 1) other, hother]
      simp
    rw [diagnostics_read, hsplit]
    exact hhalts.first ⟨_, _⟩ rfl
  · intro hm
    obtain ⟨ending, hinside, -, hend⟩ := hhalts.viable hm
    refine ⟨ending, hinside, fun eof heof => ?_⟩
    rw [diagnostics_read, List.take_left]
    exact hend ⟨[eof], _⟩ (of_decide_eq_true heof)

theorem first_diagnostic_viable_open_group :
    let lexemes : List Lexeme := [⟨⟨1, 1⟩, ⟨.lparen, .text "("⟩⟩,
      ⟨⟨1, 2⟩, ⟨.identifier, .text "a"⟩⟩, ⟨⟨1, 3⟩, ⟨.semicolon, .text ";"⟩⟩, .finish ⟨1, 4⟩]
    let diagnostic : Diagnostic := ⟨⟨1, 3⟩, .expected .rparen "';'"⟩
    (lexemes.map Lexeme.location).Nodup ∧ Ended lexemes ∧
      (ofLexemes lexemes).read.2.diagnostics.head? = some diagnostic ∧
      (∀ other : List Lexeme, other.take 3 = lexemes.take 3 →
        (ofLexemes other).read.2.diagnostics.head? = some diagnostic) ∧
      ∃ continuation : List Lexeme, ∀ eof : Lexeme, eof.isEof = true →
        (ofLexemes (lexemes.take 2 ++ continuation ++ [eof])).read.2.diagnostics = [] := by
  intro lexemes diagnostic
  have hnodup : (lexemes.map Lexeme.location).Nodup := by decide
  have hended : Ended lexemes := ⟨lexemes.dropLast, .finish ⟨1, 4⟩, rfl, rfl, by decide⟩
  have hfirst : (ofLexemes lexemes).read.2.diagnostics.head? = some diagnostic := by
    decide +kernel
  obtain ⟨hsame, hviable⟩ := first_diagnostic_viable (i := 2) hnodup hended hfirst rfl rfl
  obtain ⟨continuation, -, hread⟩ := hviable rfl
  exact ⟨hnodup, hended, hfirst, hsame, continuation, hread⟩

end Parser

end MonkeyFrontend
