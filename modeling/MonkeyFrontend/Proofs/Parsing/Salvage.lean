import Mathlib.Data.List.SplitLengths
import MonkeyFrontend.Proofs.Parsing.Acceptance
import MonkeyFrontend.Proofs.Parsing.Mending
import MonkeyFrontend.Proofs.Parsing.Recovery

namespace MonkeyFrontend

def isDamaged (stretch : List Lexeme) : Bool := stretch.any Lexeme.isUnreadable

def isTerminated (stretch : List Lexeme) : Bool :=
  stretch.getLast?.any fun lexeme => lexeme.kind = .semicolon

/-- What is left of statements that come with the lexemes they take up. One that is damaged is
dropped with its diagnostics, and so are those after it up to the next semicolon, of which nothing
is said. -/
def salvage (skipping : Bool) : List (List Lexeme × Statement) → List Statement × List Diagnostic
  | [] => ([], [])
  | (stretch, s) :: pairs =>
    if skipping then salvage (!isTerminated stretch) pairs
    else if isDamaged stretch then
      let (statements, diagnostics) := salvage (!isTerminated stretch) pairs
      (statements, complaints stretch ++ diagnostics)
    else
      let (statements, diagnostics) := salvage false pairs
      (s :: statements, diagnostics)

def undamaged (pairs : List (List Lexeme × Statement)) : List Statement × List Diagnostic :=
  ((pairs.filter fun pair => !isDamaged pair.1).map Prod.snd,
    pairs.flatMap fun pair => complaints pair.1)

theorem complaints_eq_nil_iff {stretch : List Lexeme} :
    complaints stretch = [] ↔ isDamaged stretch = false := by
  simp [complaints, isDamaged, List.filter_eq_nil_iff]

section

variable {stretch : List Lexeme} {s : Statement} {pairs : List (List Lexeme × Statement)}

theorem salvage_skipping :
    salvage true ((stretch, s) :: pairs) = salvage (!isTerminated stretch) pairs := by
  simp only [salvage, if_pos]

theorem salvage_damaged (h : isDamaged stretch = true) :
    salvage false ((stretch, s) :: pairs) =
      ((salvage (!isTerminated stretch) pairs).1,
        complaints stretch ++ (salvage (!isTerminated stretch) pairs).2) := by
  simp [salvage, h]

theorem salvage_intact (h : isDamaged stretch = false) :
    salvage false ((stretch, s) :: pairs) =
      (s :: (salvage false pairs).1, (salvage false pairs).2) := by
  simp [salvage, h]

theorem undamaged_damaged (h : isDamaged stretch = true) :
    undamaged ((stretch, s) :: pairs) =
      ((undamaged pairs).1, complaints stretch ++ (undamaged pairs).2) := by
  simp [undamaged, h]

theorem undamaged_intact (h : isDamaged stretch = false) :
    undamaged ((stretch, s) :: pairs) = (s :: (undamaged pairs).1, (undamaged pairs).2) := by
  simp [undamaged, h, complaints_eq_nil_iff.mpr h]

end

def weight (results : List Statement × List Diagnostic) : Nat :=
  results.1.length + results.2.length

theorem weight_undamaged_lt (pair : List Lexeme × Statement)
    (pairs : List (List Lexeme × Statement)) :
    weight (undamaged pairs) < weight (undamaged (pair :: pairs)) := by
  obtain ⟨stretch, s⟩ := pair
  cases h : isDamaged stretch with
  | false =>
    rw [undamaged_intact h]
    simp only [weight, List.length_cons]
    omega
  | true =>
    have hpos : 0 < (complaints stretch).length := by
      rw [List.length_pos_iff, ne_eq, complaints_eq_nil_iff, h]
      decide
    rw [undamaged_damaged h]
    simp only [weight, List.length_append]
    omega

theorem weight_salvage_le (skipping : Bool) (pairs : List (List Lexeme × Statement)) :
    weight (salvage skipping pairs) ≤ weight (undamaged pairs) := by
  induction pairs generalizing skipping with
  | nil => exact Nat.le_refl 0
  | cons pair pairs ih =>
    obtain ⟨stretch, s⟩ := pair
    cases skipping with
    | true =>
      rw [salvage_skipping]
      exact Nat.le_trans (ih _) (Nat.le_of_lt (weight_undamaged_lt _ pairs))
    | false =>
      cases h : isDamaged stretch with
      | false =>
        have hle := ih false
        rw [salvage_intact h, undamaged_intact h]
        simp only [weight, List.length_cons] at hle ⊢
        omega
      | true =>
        have hle := ih (!isTerminated stretch)
        rw [salvage_damaged h, undamaged_damaged h]
        simp only [weight, List.length_append] at hle ⊢
        omega

theorem salvage_skipping_ne {pairs : List (List Lexeme × Statement)} (h : pairs ≠ []) :
    salvage true pairs ≠ undamaged pairs := by
  cases pairs with
  | nil => exact absurd rfl h
  | cons pair pairs =>
    intro heq
    -- whatever is skipped, a statement or its diagnostics are missing then
    have hlt := weight_undamaged_lt pair pairs
    have hle := weight_salvage_le (!isTerminated pair.1) pairs
    rw [← heq, salvage_skipping] at hlt
    omega

/-- Each damaged statement costs itself alone exactly if it ends with a semicolon or is the last. -/
theorem salvage_eq_undamaged_iff (pairs : List (List Lexeme × Statement)) :
    salvage false pairs = undamaged pairs ↔
      ∀ stretch ∈ (pairs.map Prod.fst).dropLast, isDamaged stretch = true →
        isTerminated stretch = true := by
  induction pairs with
  | nil => simp [salvage, undamaged]
  | cons pair pairs ih =>
    obtain ⟨stretch, s⟩ := pair
    cases h : isDamaged stretch with
    | false =>
      rw [salvage_intact h, undamaged_intact h, Prod.mk.injEq, List.cons.injEq, eq_self, true_and,
        ← Prod.ext_iff, ih]
      cases pairs with
      | nil => simp
      | cons pair pairs => simp [h]
    | true =>
      rw [salvage_damaged h, undamaged_damaged h, Prod.mk.injEq, List.append_cancel_left_eq,
        ← Prod.ext_iff]
      cases pairs with
      | nil => simp [salvage, undamaged]
      | cons pair pairs =>
        cases ht : isTerminated stretch with
        | true => simp [ih, ht]
        | false => simp [salvage_skipping_ne (List.cons_ne_nil pair pairs), h, ht]

namespace Cursor

theorem recover_of_ends {c : Cursor} (h : endsStatement c.current = true) : c.recover = c := by
  obtain ⟨rest, finish⟩ := c
  cases rest with
  | nil => rfl
  | cons lexeme rest =>
    rw [current_cons] at h
    simp [recover, h]

/-- Recovery from anywhere in a statement leads past it, and on unless it is terminated. -/
theorem recover_stretch {stretch tail : List Lexeme} {finish : Location} (hne : stretch ≠ [])
    (heof : ∀ lexeme ∈ stretch, lexeme.isEof = false)
    (hsemi : ∀ lexeme ∈ stretch.dropLast, lexeme.kind ≠ .semicolon) :
    (Cursor.mk (stretch ++ tail) finish).recover.advance =
      if isTerminated stretch then ⟨tail, finish⟩ else (Cursor.mk tail finish).recover.advance := by
  obtain rfl | ⟨front, last, rfl⟩ := stretch.eq_nil_or_concat
  · exact absurd rfl hne
  simp only [List.concat_eq_append] at heof hsemi ⊢
  have hnot (lexeme : Lexeme) (he : lexeme.isEof = false) (hs : lexeme.kind ≠ .semicolon) :
      endsStatement lexeme = false := by
    simp only [endsStatement, Bool.or_eq_false_iff, decide_eq_false_iff_not]
    exact ⟨hs, of_decide_eq_false he⟩
  have hfront : (Cursor.mk (front ++ [last] ++ tail) finish).Within ⟨last :: tail, finish⟩ := by
    refine ⟨⟨front, by simp, fun lexeme hm => hnot lexeme ?_ ?_⟩, rfl⟩
    · exact heof lexeme (List.mem_append_left _ hm)
    · exact hsemi lexeme (by rwa [List.dropLast_concat])
  have hterminated : isTerminated (front ++ [last]) = decide (last.kind = .semicolon) := by
    simp [isTerminated]
  rw [← hfront.recover_eq, hterminated]
  by_cases hlast : last.kind = .semicolon
  · have hends : endsStatement (Cursor.mk (last :: tail) finish).current = true := by
      simp [endsStatement, hlast]
    rw [recover_of_ends hends]
    simp [hlast]
  · have hends : endsStatement (Cursor.mk (last :: tail) finish).current = false :=
      hnot last (heof last (by simp)) hlast
    rw [← (Within.advance hends).recover_eq]
    simp [hlast]

theorem kinds_of_mended {stretch stretch' : List Lexeme}
    (h : List.Forall₂ Lexeme.MendedBy stretch stretch') {P : TokenKind → Prop}
    (hP : ∀ lexeme ∈ stretch', P lexeme.kind) : ∀ lexeme ∈ stretch, P lexeme.kind := by
  induction h with
  | nil => simp
  | cons hfirst _ ih =>
    rw [List.forall_mem_cons] at hP ⊢
    exact ⟨hfirst.kind_eq ▸ hP.1, ih hP.2⟩

theorem Mends.exists_append {c c' : Cursor} (h : c.Mends c') {front' rest' : List Lexeme}
    (hc' : c'.rest = front' ++ rest') :
    ∃ front rest, c.rest = front ++ rest ∧ List.Forall₂ Lexeme.MendedBy front front' ∧
      List.Forall₂ Lexeme.MendedBy rest rest' := by
  have hmends : List.Forall₂ Lexeme.MendedBy c.rest (front' ++ rest') := hc' ▸ h
  exact ⟨_, _, (List.take_append_drop _ _).symm, List.forall₂_take_append _ _ _ hmends,
    List.forall₂_drop_append _ _ _ hmends⟩

theorem Reaches.eq_of_length {c d : Cursor} (h : c.Reaches d) {tail : List Lexeme}
    (ht : tail <:+ c.rest) (hl : d.rest.length = tail.length) : d = ⟨tail, c.finish⟩ := by
  have hrest := (List.suffix_of_suffix_length_le h.rest ht hl.le).eq_of_length hl
  have hfinish := h.finish
  obtain ⟨rest, finish⟩ := d
  subst hrest hfinish
  rfl

/-- A statement that is kept once all is mended, and what becomes of it before that. -/
structure Parallel (c c' : Cursor) (stretch tail : List Lexeme) (s : Statement) : Prop where
  rest : c.rest = stretch ++ tail
  mends : (Cursor.mk tail c.finish).Mends c'.segment.next
  mended : c'.segment.statement = some s
  stretches : ∀ segments, ((Segment.stretches c'.rest (c'.segment :: segments)).map
    List.length).splitLengths c.rest = stretch :: ((Segment.stretches c'.segment.next.rest
      segments).map List.length).splitLengths tail
  diagnostics : c.segment.diagnostics = complaints stretch
  kept : isDamaged stretch = false →
    c.segment.statement = some s ∧ c.segment.next = ⟨tail, c.finish⟩
  dropped : isDamaged stretch = true →
    c.segment.statement = none ∧ c.segment.next = c.recover.advance
  recover : c.recover.advance =
    if isTerminated stretch then ⟨tail, c.finish⟩ else (Cursor.mk tail c.finish).recover.advance

theorem exists_parallel {c c' : Cursor} (h : c.Mends c') (hd : c'.segment.diagnostics = []) :
    ∃ stretch tail s, c.Parallel c' stretch tail s := by
  rw [segment_diagnostics] at hd
  obtain ⟨s, hs⟩ : ∃ s, c'.statement.value = some s := by
    cases hv : c'.statement.value with
    | none => exact absurd hd ((confined_statement c').explained hv)
    | some s => exact ⟨s, rfl⟩
  obtain ⟨stretch', ht⟩ := takes_of_kept hs hd
  have hnext : c'.segment.next = c'.statement.cursor.advance := by rw [segment_of_kept hs hd]
  have hrest : c'.rest = stretch' ++ c'.segment.next.rest := by simpa using ht.rest
  obtain ⟨stretch, tail, hc, hstretch, htail⟩ := h.exists_append hrest
  have hfollows := follows_statement h ⟨hs, rfl, hd⟩
  -- both runs have left the same number of lexemes, which tells where this one has come
  have hafter : c.statement.cursor.advance = ⟨tail, c.finish⟩ := by
    apply ((reaches_statement c).trans (.advance _)).eq_of_length ⟨stretch, hc.symm⟩
    rw [hfollows.cursor.advance.length_eq, ← hnext, htail.length_eq]
  have hdiagnostics : c.statement.diagnostics = complaints stretch := by
    have hall := hfollows.diagnostics
    rw [hafter, hc, complaints_append] at hall
    exact List.append_cancel_right hall
  refine ⟨stretch, tail, s, hc, htail, by rw [segment_of_kept hs hd], fun segments => ?_,
    (segment_diagnostics c).trans hdiagnostics, fun hintact => ?_, fun hdamaged => ?_, ?_⟩
  · rw [Segment.stretches, ht.take_eq, ht.filter_eq, List.map_cons, List.splitLengths_cons,
      ← hstretch.length_eq, hc, List.take_left, List.drop_left]
  · obtain ⟨a, ha, heq⟩ := hfollows.value
    have hnone := hdiagnostics.trans (complaints_eq_nil_iff.mpr hintact)
    rw [segment_of_kept ha hnone, hafter, heq trivial hnone]
    exact ⟨rfl, rfl⟩
  · have hsome : c.statement.diagnostics ≠ [] := by
      rw [hdiagnostics, ne_eq, complaints_eq_nil_iff, hdamaged]
      decide
    rw [segment_of_dropped (.inr hsome), (confined_statement c).within.recover_eq]
    exact ⟨rfl, rfl⟩
  · obtain ⟨rest, finish⟩ := c
    obtain rfl : rest = stretch ++ tail := hc
    apply recover_stretch
    · rintro rfl
      exact ht.accounts.ne_nil (List.forall₂_nil_left_iff.mp hstretch)
    · have heof := kinds_of_mended (P := (· ≠ .eof)) hstretch fun lexeme hm =>
        of_decide_eq_false (ht.inside lexeme hm)
      exact fun lexeme hm => decide_eq_false (heof lexeme hm)
    · apply kinds_of_mended (P := (· ≠ .semicolon)) _ ht.accounts.semicolon
      rw [List.dropLast_eq_take, List.dropLast_eq_take, hstretch.length_eq]
      exact List.forall₂_take _ hstretch

end Cursor

def Segment.results (segments : List Segment) : List Statement × List Diagnostic :=
  (segments.filterMap Segment.statement, segments.flatMap Segment.diagnostics)

namespace Cursor

/-- The statements of a mended run, each with the lexemes that it takes up before they are mended,
and what is left of them then. -/
structure Salvages (c c' : Cursor) (pairs : List (List Lexeme × Statement)) : Prop where
  stretches : pairs.map Prod.fst =
    ((Segment.stretches c'.rest c'.segments).map List.length).splitLengths c.rest
  statements : pairs.map Prod.snd = c'.segments.filterMap Segment.statement
  complaints : complaints c.rest = pairs.flatMap fun pair => complaints pair.1
  reading : Segment.results c.segments = salvage false pairs
  skipping : Segment.results c.recover.advance.segments = salvage true pairs

theorem salvages_of_eof {c c' : Cursor} (h : c.Mends c') (he : EndsOnce c.rest)
    (hc' : c'.current.isEof = true) : c.Salvages c' [] := by
  have hc : c.current.isEof = true := by
    rw [Lexeme.isEof, h.kind_eq]
    exact hc'
  have hends : endsStatement c.current = true := by
    simp only [Lexeme.isEof, decide_eq_true_eq] at hc
    simp [endsStatement, hc]
  obtain ⟨rest, finish⟩ := c
  have hlast : (Cursor.mk rest finish).advance.rest = [] := by
    cases rest with
    | nil => rfl
    | cons lexeme rest => exact he.eq_nil hc
  have hdone : (Cursor.mk rest finish).recover.advance.current.isEof = true := by
    rw [recover_of_ends hends, current, hlast]
    rfl
  have hsilent : complaints rest = [] := by
    rw [← h.complaints_advance fun hk => ?_, hlast]
    · rfl
    · simp [Lexeme.isEof, hk] at hc'
  refine ⟨?_, ?_, hsilent, ?_, ?_⟩
  · rw [segments_of_eof hc']
    rfl
  · rw [segments_of_eof hc']
    rfl
  · rw [segments_of_eof hc]
    rfl
  · rw [segments_of_eof hdone]
    rfl

theorem salvages_cons {c c' : Cursor} {stretch tail : List Lexeme} {s : Statement}
    {pairs : List (List Lexeme × Statement)} (hc : c.current.isEof = false)
    (hc' : c'.current.isEof = false) (hp : c.Parallel c' stretch tail s)
    (h : (Cursor.mk tail c.finish).Salvages c'.segment.next pairs) :
    c.Salvages c' ((stretch, s) :: pairs) := by
  -- recovery ends at the same place, whether it starts at the statement or further back
  have hskip : Segment.results c.recover.advance.segments =
      salvage (!isTerminated stretch) pairs := by
    rw [hp.recover]
    cases isTerminated stretch with
    | true => exact h.reading
    | false => exact h.skipping
  refine ⟨?_, ?_, ?_, ?_, hskip.trans salvage_skipping.symm⟩
  · rw [segments_of_not_eof hc', hp.stretches, List.map_cons, h.stretches]
  · rw [segments_of_not_eof hc', List.map_cons, List.filterMap_cons, hp.mended, h.statements]
  · rw [hp.rest, complaints_append, List.flatMap_cons, ← h.complaints]
  · rw [segments_of_not_eof hc, Segment.results, List.filterMap_cons, List.flatMap_cons,
      hp.diagnostics]
    cases hd : isDamaged stretch with
    | false =>
      obtain ⟨hkept, hnext⟩ := hp.kept hd
      rw [salvage_intact hd, ← h.reading, hkept, hnext, complaints_eq_nil_iff.mpr hd]
      rfl
    | true =>
      obtain ⟨hdropped, hnext⟩ := hp.dropped hd
      rw [salvage_damaged hd, ← hskip, hdropped, hnext]
      rfl

/-- What is left of a run that would draw no diagnostic if all was mended. -/
theorem exists_salvages (c c' : Cursor) (h : c.Mends c') (he : EndsOnce c.rest)
    (hd : ∀ segment ∈ c'.segments, segment.diagnostics = []) :
    ∃ pairs, c.Salvages c' pairs := by
  induction hn : c'.rest.length using Nat.strongRecOn generalizing c c' with
  | ind n ih =>
    cases hc' : c'.current.isEof with
    | true => exact ⟨[], salvages_of_eof h he hc'⟩
    | false =>
      have hc : c.current.isEof = false := by
        rw [Lexeme.isEof, h.kind_eq]
        exact hc'
      rw [segments_of_not_eof hc', List.forall_mem_cons] at hd
      obtain ⟨stretch, tail, s, hp⟩ := exists_parallel h hd.1
      have he' : EndsOnce (Cursor.mk tail c.finish).rest := (hp.rest ▸ he).of_append
      obtain ⟨pairs, hpairs⟩ := ih _ (hn ▸ segment_length_lt hc') _ _ hp.mends he' hd.2 rfl
      exact ⟨_, salvages_cons hc hc' hp hpairs⟩

end Cursor

def Parser.stretches (damaged mended : List Lexeme) : List (List Lexeme) :=
  ((Segment.stretches mended (Cursor.ofLexemes mended).segments).map List.length).splitLengths
    damaged

/-- Integers that cannot be read draw one diagnostic each, in order, and cost the statements that
they stand in and no others. -/
def Parser.Spares (damaged mended : List Lexeme) : Prop :=
  (Parser.ofLexemes damaged).read.1.statements =
      (((Parser.stretches damaged mended).zip (Parser.ofLexemes mended).read.1.statements).filter
        fun pair => !isDamaged pair.1).map Prod.snd ∧
    (Parser.ofLexemes damaged).read.2.diagnostics =
      (damaged.filter Lexeme.isUnreadable).map Lexeme.complaint

instance (damaged mended : List Lexeme) : Decidable (Parser.Spares damaged mended) :=
  inferInstanceAs (Decidable (_ ∧ _))

/-- If a run would draw no diagnostic with all integers mended, those that cannot be read cost
nothing but the statements that they stand in exactly if each of these ends with a semicolon or is
the last. -/
theorem Parser.spares_iff {damaged mended : List Lexeme}
    (h : List.Forall₂ Lexeme.MendedBy damaged mended) (he : EndsOnce damaged)
    (hd : (Parser.ofLexemes mended).read.2.diagnostics = []) :
    Parser.Spares damaged mended ↔
      ∀ stretch ∈ (Parser.stretches damaged mended).dropLast, isDamaged stretch = true →
        isTerminated stretch = true := by
  have hsilent : ∀ segment ∈ (Cursor.ofLexemes mended).segments, segment.diagnostics = [] := by
    rwa [Parser.diagnostics_read, List.flatMap_eq_nil_iff] at hd
  obtain ⟨pairs, hpairs⟩ :=
    (Cursor.ofLexemes damaged).exists_salvages (.ofLexemes mended) h he hsilent
  have hstretches : pairs.map Prod.fst = Parser.stretches damaged mended := hpairs.stretches
  have hzip := List.zip_of_prod hstretches hpairs.statements
  have hcomplaints : (damaged.filter Lexeme.isUnreadable).map Lexeme.complaint =
      (undamaged pairs).2 := hpairs.complaints
  have hundamaged : (((Parser.stretches damaged mended).zip
      (Parser.ofLexemes mended).read.1.statements).filter fun pair => !isDamaged pair.1).map
        Prod.snd = (undamaged pairs).1 := by
    rw [hzip]
    rfl
  rw [Parser.Spares, Parser.diagnostics_read, hcomplaints, hundamaged, ← hstretches,
    ← salvage_eq_undamaged_iff, ← hpairs.reading, Prod.ext_iff]
  exact Iff.rfl

def letInteger (text : String) : List Lexeme :=
  [⟨⟨1, 1⟩, ⟨.letKeyword, .text "let"⟩⟩, ⟨⟨1, 5⟩, ⟨.identifier, .text "x"⟩⟩,
    ⟨⟨1, 7⟩, ⟨.assign, .text "="⟩⟩, ⟨⟨1, 9⟩, ⟨.integer, .text text⟩⟩]

theorem mendedBy_letInteger (rest : List Lexeme)
    (h : ∀ lexeme ∈ rest, lexeme.isUnreadable = false) :
    List.Forall₂ Lexeme.MendedBy (letInteger "99999999999999999999" ++ rest)
      (letInteger "1" ++ rest) := by
  refine .cons rfl (.cons rfl (.cons rfl (.cons ?_ ?_)))
  · decide
  · exact List.forall₂_same.mpr fun lexeme hm => by simp [Lexeme.MendedBy, h lexeme hm]

theorem Parser.spares_iff_terminated :
    let rest : List Lexeme := [⟨⟨1, 29⟩, ⟨.semicolon, .text ";"⟩⟩,
      ⟨⟨1, 31⟩, ⟨.identifier, .text "y"⟩⟩, .finish ⟨1, 32⟩]
    let damaged := letInteger "99999999999999999999" ++ rest
    let mended := letInteger "1" ++ rest
    List.Forall₂ Lexeme.MendedBy damaged mended ∧ EndsOnce damaged ∧
      (Parser.ofLexemes mended).read.2.diagnostics = [] ∧ Parser.Spares damaged mended := by
  intro rest damaged mended
  have h : List.Forall₂ Lexeme.MendedBy damaged mended := mendedBy_letInteger rest (by decide)
  have he : EndsOnce damaged := by decide
  have hd : (Parser.ofLexemes mended).read.2.diagnostics = [] := by decide +kernel
  exact ⟨h, he, hd, (Parser.spares_iff h he hd).mpr (by decide +kernel)⟩

/-- A let without a semicolon whose integer cannot be read costs the let after it too. -/
theorem Parser.not_spares_unterminated :
    let rest : List Lexeme := [⟨⟨1, 30⟩, ⟨.letKeyword, .text "let"⟩⟩,
      ⟨⟨1, 34⟩, ⟨.identifier, .text "y"⟩⟩, ⟨⟨1, 36⟩, ⟨.assign, .text "="⟩⟩,
      ⟨⟨1, 38⟩, ⟨.integer, .text "2"⟩⟩, ⟨⟨1, 39⟩, ⟨.semicolon, .text ";"⟩⟩, .finish ⟨1, 40⟩]
    let damaged := letInteger "99999999999999999999" ++ rest
    let mended := letInteger "1" ++ rest
    List.Forall₂ Lexeme.MendedBy damaged mended ∧ EndsOnce damaged ∧
      (Parser.ofLexemes mended).read.2.diagnostics = [] ∧
      (Parser.ofLexemes damaged).read.1.statements = [] ∧ ¬ Parser.Spares damaged mended := by
  intro rest damaged mended
  have h : List.Forall₂ Lexeme.MendedBy damaged mended := mendedBy_letInteger rest (by decide)
  exact ⟨h, by decide, by decide +kernel, by decide +kernel, by decide +kernel⟩

end MonkeyFrontend
