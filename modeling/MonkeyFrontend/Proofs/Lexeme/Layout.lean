import Mathlib.Data.List.Induction
import MonkeyFrontend.Proofs.Lexeme.Spelling

namespace MonkeyFrontend

def Location.behind (text : List Char) : Location :=
  ⟨1 + text.count '\n', 1 + (text.reverse.takeWhile (· ≠ '\n')).length⟩

theorem Location.start_after (text : List Char) : start.after text = behind text := by
  induction text using List.reverseRecOn with
  | nil => rfl
  | append_singleton text c ih =>
    rw [after_append, ih, after_cons, after_nil, step]
    by_cases hc : c = '\n'
    · simp [behind, hc, Nat.add_assoc]
    · simp [behind, hc, Nat.add_comm]

theorem Location.behind_append (text more : List Char) :
    behind (text ++ more) = (behind text).after more := by
  rw [← start_after, ← start_after, after_append]

namespace Spelling

theorem cut_self {kind : TokenKind} {text : List Char} (h : Spelling kind text) :
    Cut.ofText? text = some ⟨kind, text, []⟩ := by
  have hcut : Cut.ofText? (text ++ []) = some ⟨kind, text, []⟩ := h.cut (by simp)
  rwa [List.append_nil] at hcut

theorem kind_unique {kind kind' : TokenKind} {text : List Char} (h : Spelling kind text)
    (h' : Spelling kind' text) : kind = kind' := by
  have hcut := h.cut_self
  rw [h'.cut_self] at hcut
  injection hcut with hcut
  injection hcut with hkind
  exact hkind.symm

/-- A token that no part of what follows clings to is a longest one. -/
theorem length_le {kind kind' : TokenKind} {text text' rest : List Char} (h : Spelling kind text)
    (hr : ∀ d ∈ rest.head?, kind.clings d = false) (h' : Spelling kind' text')
    (hp : text' <+: text ++ rest) : text'.length ≤ text.length := by
  by_contra hlt
  obtain ⟨more, rfl⟩ : text <+: text' :=
    List.prefix_of_prefix_length_le (List.prefix_append text rest) hp (by omega)
  obtain ⟨tail, rfl⟩ : more <+: rest := (List.prefix_append_right_inj text).mp hp
  cases more with
  | nil => simp at hlt
  | cons d more =>
    -- the longer token would be cut off whole, and the shorter one is
    have hcut : Cut.ofText? (text ++ d :: more) = some ⟨kind, text, d :: more⟩ :=
      h.cut fun e he => hr e (by simpa using he)
    rw [h'.cut_self] at hcut
    injection hcut with hcut
    injection hcut with _ _ hrest
    cases hrest

end Spelling

theorem head?_dropWhile_eq_false {p : Char → Bool} {cs : List Char} :
    ∀ d ∈ (cs.dropWhile p).head?, p d = false := by
  intro d hd
  have h := List.head?_dropWhile_not p cs
  rw [hd] at h
  simpa using h

namespace Cut

theorem spelling_run {kindOf : List Char → TokenKind} {p : Char → Bool} {c : Char} {cs : List Char}
    (hs : Spelling (kindOf (c :: cs.takeWhile p)) (c :: cs.takeWhile p))
    (hp : (kindOf (c :: cs.takeWhile p)).clings = p) :
    Spelling (run kindOf p c cs).kind (run kindOf p c cs).text ∧
      ∀ d ∈ (run kindOf p c cs).rest.head?, (run kindOf p c cs).kind.clings d = false := by
  refine ⟨hs, fun d hd => ?_⟩
  have hclings : (run kindOf p c cs).kind.clings = p := hp
  rw [hclings]
  exact head?_dropWhile_eq_false d hd

theorem spelling_pair {alone withEquals : TokenKind} {c : Char} {cs : List Char}
    (ha : Spelling alone [c]) (he : Spelling withEquals [c, '='])
    (hac : alone.clings = fun d => d = '=') (hec : withEquals.clings = fun _ => false) :
    Spelling (pair alone withEquals c cs).kind (pair alone withEquals c cs).text ∧
      ∀ d ∈ (pair alone withEquals c cs).rest.head?,
        (pair alone withEquals c cs).kind.clings d = false := by
  unfold pair
  split
  · exact ⟨he, fun d hd => by rw [hec]⟩
  · rename_i hne
    refine ⟨ha, fun d hd => ?_⟩
    rw [hac]
    apply decide_eq_false
    rintro rfl
    obtain ⟨tail, rfl⟩ := List.head?_eq_some_iff.mp hd
    exact hne tail rfl

theorem spelling_word {c : Char} (hc : isWordStart c = true) (cs : List Char) :
    Spelling (wordKind (String.ofList (c :: cs.takeWhile isWordChar)))
      (c :: cs.takeWhile isWordChar) :=
  .word hc fun _ hd => List.all_eq_true.mp List.all_takeWhile _ hd

theorem spelling_number {c : Char} (hc : c.isDigit = true) (cs : List Char) :
    Spelling .integer (c :: cs.takeWhile Char.isDigit) := by
  refine .number (List.cons_ne_nil _ _) (List.forall_mem_cons.mpr ⟨isDigit_iff.mp hc, ?_⟩)
  exact fun d hd => isDigit_iff.mp (List.all_eq_true.mp List.all_takeWhile d hd)

theorem clings_symbol {c : Char} {kind : TokenKind} (h : symbolKind? c = some kind) (d : Char) :
    kind.clings d = false := by
  unfold symbolKind? at h
  repeat' split at h
  all_goals cases h
  all_goals rfl

theorem spelling_of_ofText? {cs : List Char} {cut : Cut} (h : ofText? cs = some cut) :
    Spelling cut.kind cut.text ∧ ∀ d ∈ cut.rest.head?, cut.kind.clings d = false := by
  cases cs with
  | nil => cases h
  | cons c cs =>
    simp only [ofText?] at h
    split at h
    · rename_i hc
      cases h
      exact spelling_run (spelling_word hc cs) (clings_wordKind _)
    split at h
    · rename_i hc
      cases h
      exact spelling_run (spelling_number hc cs) clings_integer
    split at h
    · rename_i hc
      cases h
      subst hc
      exact spelling_pair (.fixed (by decide)) (.fixed (by decide)) rfl rfl
    split at h
    · rename_i hc
      cases h
      subst hc
      exact spelling_pair (.fixed (by decide)) (.fixed (by decide)) rfl rfl
    obtain ⟨kind, hk, rfl⟩ := Option.map_eq_some_iff.mp h
    exact ⟨.symbol hk, fun d _ => clings_symbol hk d⟩

end Cut

structure Piece where
  blank : List Char
  location : Location
  kind : TokenKind
  text : List Char

namespace Piece

def chars (piece : Piece) : List Char := piece.blank ++ piece.text

def lexeme (piece : Piece) : Lexeme :=
  ⟨piece.location, ⟨piece.kind, .text (String.ofList piece.text)⟩⟩

/-- A piece is right where it stands. Its kind is the only one that its text has, no longer token
starts where it does, and its place is counted from the start of the text. -/
structure Fits (before after : List Char) (piece : Piece) : Prop where
  blank : ∀ c ∈ piece.blank, IsBlank c
  kind : ∀ kind, Spelling kind piece.text ↔ kind = piece.kind
  apart : ∀ c ∈ after.head?, piece.kind.clings c = false
  longest : ∀ kind text, Spelling kind text → text <+: piece.text ++ after →
    text.length ≤ piece.text.length
  location : piece.location = .behind (before ++ piece.blank)

theorem Fits.of_cut {before blank cs : List Char} {cut : Cut}
    (hb : ∀ c ∈ blank, IsBlank c) (h : Cut.ofText? cs = some cut) :
    Fits before cut.rest ⟨blank, .behind (before ++ blank), cut.kind, cut.text⟩ := by
  obtain ⟨hspelling, hapart⟩ := Cut.spelling_of_ofText? h
  refine ⟨hb, fun kind => ⟨fun hk => hk.kind_unique hspelling, fun hk => hk ▸ hspelling⟩, hapart,
    fun kind text ht hp => hspelling.length_le hapart ht hp, rfl⟩

end Piece

/-- After some text, the next characters are made up of pieces that are right where they stand, and
blanks at the end. -/
structure Layout (before cs : List Char) (pieces : List Piece) (final : List Char) : Prop where
  chars : cs = pieces.flatMap Piece.chars ++ final
  blank : ∀ c ∈ final, IsBlank c
  fits : ∀ front piece back, pieces = front ++ piece :: back →
    piece.Fits (before ++ front.flatMap Piece.chars) (back.flatMap Piece.chars ++ final)

namespace Layout

theorem spelling {before cs final : List Char} {pieces : List Piece} {piece : Piece}
    (h : Layout before cs pieces final) (hp : piece ∈ pieces) : Spelling piece.kind piece.text := by
  obtain ⟨front, back, hsplit⟩ := List.append_of_mem hp
  exact ((h.fits front piece back hsplit).kind piece.kind).mpr rfl

theorem nil {before final : List Char} (h : ∀ c ∈ final, IsBlank c) :
    Layout before final [] final := by
  refine ⟨rfl, h, fun front piece back he => ?_⟩
  simp at he

theorem cons {before cs final : List Char} {piece : Piece} {pieces : List Piece}
    (hp : piece.Fits before cs) (h : Layout (before ++ piece.chars) cs pieces final) :
    Layout before (piece.chars ++ cs) (piece :: pieces) final := by
  refine ⟨?_, h.blank, fun front other back he => ?_⟩
  · rw [h.chars, List.flatMap_cons, List.append_assoc]
  · cases front with
    | nil =>
      obtain ⟨rfl, rfl⟩ := List.cons.inj he
      rw [List.flatMap_nil, List.append_nil, ← h.chars]
      exact hp
    | cons first front =>
      obtain ⟨rfl, hpieces⟩ := List.cons.inj he
      rw [List.flatMap_cons, ← List.append_assoc]
      exact h.fits front other back hpieces

end Layout

theorem scan_blanks {blank : List Char} (h : ∀ c ∈ blank, IsBlank c) (location : Location)
    (cs : List Char) (done : List Lexeme) :
    scan location (blank ++ cs) done = scan (location.after blank) cs done := by
  induction blank generalizing location with
  | nil => rfl
  | cons c blank ih =>
    have hc : isBlank c = true := isBlank_iff.mpr (h c List.mem_cons_self)
    rw [List.cons_append, scan_blank hc, Location.after_cons]
    exact ih (fun d hd => h d (List.mem_cons_of_mem c hd)) _

theorem exists_layout_of_scan (before cs : List Char) {lexemes : List Lexeme}
    (h : scan (.behind before) cs [] = .ok lexemes) :
    ∃ pieces final, Layout before cs pieces final ∧
      lexemes = pieces.map Piece.lexeme ++ [.finish (.behind (before ++ cs))] := by
  induction hn : cs.length using Nat.strongRecOn generalizing before cs lexemes with
  | ind n ih =>
    -- a step takes all the blanks and the token after them, and not one character
    obtain ⟨blank, rest, rfl, hblank, hrest⟩ : ∃ blank rest, cs = blank ++ rest ∧
        (∀ c ∈ blank, IsBlank c) ∧ ∀ c ∈ rest.head?, isBlank c = false :=
      ⟨cs.takeWhile isBlank, cs.dropWhile isBlank, List.takeWhile_append_dropWhile.symm,
        fun c hc => isBlank_iff.mp (List.all_eq_true.mp List.all_takeWhile c hc),
        head?_dropWhile_eq_false⟩
    rw [scan_blanks hblank, ← Location.behind_append] at h
    cases rest with
    | nil =>
      rw [scan_nil] at h
      cases h
      rw [List.append_nil]
      exact ⟨[], blank, .nil hblank, rfl⟩
    | cons c rest =>
      have hc : isBlank c = false := hrest c rfl
      cases hcut : Cut.ofText? (c :: rest) with
      | none =>
        rw [scan_stray hc hcut] at h
        cases h
      | some cut =>
        have htext := Cut.text_rest_of_ofText? hcut
        let piece : Piece := ⟨blank, .behind (before ++ blank), cut.kind, cut.text⟩
        have hchars : before ++ blank ++ cut.text = before ++ piece.chars := List.append_assoc ..
        rw [scan_cut hc hcut, scan_done, ← Location.behind_append, hchars] at h
        cases hs : scan (.behind (before ++ piece.chars)) cut.rest [] with
        | error d =>
          rw [hs] at h
          cases h
        | ok later =>
          rw [hs] at h
          cases h
          have hlt : cut.rest.length < n := by
            have hlt := Cut.rest_length_lt_of_ofText? hcut
            rw [← hn, List.length_append]
            omega
          obtain ⟨pieces, final, hlayout, rfl⟩ := ih _ hlt _ _ hs rfl
          have hpiece : piece.chars ++ cut.rest = blank ++ (c :: rest) := by
            rw [Piece.chars, List.append_assoc, htext]
          refine ⟨piece :: pieces, final, ?_, ?_⟩
          · rw [← hpiece]
            exact .cons (.of_cut hblank hcut) hlayout
          · rw [← htext]
            simp [piece, Piece.lexeme, Piece.chars, Cut.token]

/-- The lexemes of a text are its pieces, from which it can be put together again, and the end. -/
theorem tokenize_layout {source : String} {lexemes : List Lexeme}
    (h : tokenize source = .ok lexemes) :
    ∃ pieces final, Layout [] source.toList pieces final ∧
      lexemes = pieces.map Piece.lexeme ++ [.finish (.behind source.toList)] ∧
      ∀ piece ∈ pieces, piece.lexeme.isEof = false := by
  obtain ⟨pieces, final, hlayout, hlexemes⟩ := exists_layout_of_scan [] source.toList h
  exact ⟨pieces, final, hlayout, hlexemes,
    fun piece hp => decide_eq_false (hlayout.spelling hp).kind_ne_eof⟩

theorem tokenize_layout_lines :
    let lexemes : List Lexeme := [⟨⟨1, 1⟩, ⟨.letKeyword, .text "let"⟩⟩,
      ⟨⟨1, 5⟩, ⟨.identifier, .text "a"⟩⟩, ⟨⟨2, 2⟩, ⟨.notEq, .text "!="⟩⟩,
      ⟨⟨2, 5⟩, ⟨.integer, .text "12"⟩⟩, .finish ⟨2, 7⟩]
    tokenize "let a\n\t!= 12" = .ok lexemes ∧
      ∃ pieces final, Layout [] "let a\n\t!= 12".toList pieces final ∧
        lexemes = pieces.map Piece.lexeme ++ [.finish (.behind "let a\n\t!= 12".toList)] := by
  intro lexemes
  have h : tokenize "let a\n\t!= 12" = .ok lexemes := by decide +kernel
  obtain ⟨pieces, final, hlayout, hlexemes, -⟩ := tokenize_layout h
  exact ⟨h, pieces, final, hlayout, hlexemes⟩

end MonkeyFrontend
