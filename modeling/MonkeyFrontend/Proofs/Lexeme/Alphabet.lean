import MonkeyFrontend.Proofs.Lexeme.Lexed

namespace MonkeyFrontend

def isLegal (c : Char) : Bool :=
  ('a' ≤ c ∧ c ≤ 'z') ∨ ('A' ≤ c ∧ c ≤ 'Z') ∨ ('0' ≤ c ∧ c ≤ '9') ∨
    c ∈ ['_', '=', '!', '+', '-', '*', '/', '<', '>', ';', '(', ')', ' ', '\t', '\r', '\n']

theorem isSome_symbolKind? (c : Char) :
    (symbolKind? c).isSome = true ↔ c ∈ ['+', '-', '*', '/', '<', '>', ';', '(', ')'] := by
  unfold symbolKind?
  repeat' split
  all_goals simp_all

theorem Cut.isSome_ofText?_singleton (c : Char) :
    (ofText? [c]).isSome = true ↔ isWordStart c = true ∨ c.isDigit = true ∨ c = '=' ∨ c = '!' ∨
      (symbolKind? c).isSome = true := by
  simp only [ofText?]
  repeat' split
  all_goals simp_all

theorem isAccepted_eq_isLegal (c : Char) : isAccepted c = isLegal c := by
  rw [Bool.eq_iff_iff]
  simp only [isAccepted, Bool.or_eq_true, Cut.isSome_ofText?_singleton, isSome_symbolKind?,
    isWordStart_iff, isDigit_iff, isBlank_iff, isLegal, IsLetter, IsDigit, IsBlank,
    decide_eq_true_eq, List.mem_cons, List.not_mem_nil, or_false]
  grind

theorem IsWordPart.isLegal {c : Char} (h : IsWordPart c) : isLegal c = true := by
  simp only [MonkeyFrontend.isLegal, List.mem_cons, decide_eq_true_eq]
  obtain (h | h | h) | h := h
  · exact .inl h
  · exact .inr (.inl h)
  · exact .inr (.inr (.inr (.inl h)))
  · exact .inr (.inr (.inl h))

theorem TokenKind.isLegal_of_clings {kind : TokenKind} {c : Char} (h : kind.clings c = true) :
    isLegal c = true := by
  have hcases : IsWordPart c ∨ IsDigit c ∨ c = '=' := by
    cases kind <;> simp_all [clings]
  obtain h | h | rfl := hcases
  · exact h.isLegal
  · exact IsWordPart.isLegal (.inr h)
  · rfl

/-- A text is cut apart in front of what can cling to no token, and what follows is then cut from
the place after the text. -/
theorem Lexed.scan_append {l : Location} {cs back : List Char} {lexemes : List Lexeme}
    (h : Lexed l cs lexemes) (hb : ∀ d ∈ back.head?, ∀ kind : TokenKind, kind.clings d = false)
    (done : List Lexeme) :
    MonkeyFrontend.scan l (cs ++ back) done =
      MonkeyFrontend.scan (l.after cs) back (lexemes.reverse ++ done) := by
  induction h generalizing done with
  | nil l => rfl
  | blank hc h ih =>
    rw [List.cons_append, scan_blank (isBlank_iff.mpr hc), ih, Location.after_cons]
  | @token l kind text cs lexemes hs hr h ih =>
    have hapart : ∀ d ∈ (cs ++ back).head?, kind.clings d = false := by
      intro d hd
      cases cs with
      | nil => exact hb d hd kind
      | cons c cs => exact hr d hd
    have hcut := hs.cut hapart
    cases text with
    | nil => exact absurd rfl hs.ne_nil
    | cons c text =>
      have hscan : MonkeyFrontend.scan l (c :: text ++ (cs ++ back)) done = _ :=
        scan_cut hs.not_blank hcut l done
      rw [List.append_assoc, hscan, ih, Location.after_append]
      simp [Cut.token]

structure FirstIllegal (cs front : List Char) (c : Char) : Prop where
  split : ∃ back, cs = front ++ c :: back
  legal : ∀ a ∈ front, isLegal a = true
  illegal : isLegal c = false

theorem legal_or_firstIllegal (cs : List Char) :
    (∀ c ∈ cs, isLegal c = true) ∨ ∃ front c, FirstIllegal cs front c := by
  have hfront : ∀ a ∈ cs.takeWhile isLegal, isLegal a = true :=
    fun a ha => List.all_eq_true.mp List.all_takeWhile a ha
  have hsplit : cs = cs.takeWhile isLegal ++ cs.dropWhile isLegal :=
    List.takeWhile_append_dropWhile.symm
  cases hrest : cs.dropWhile isLegal with
  | nil =>
    rw [hrest, List.append_nil] at hsplit
    exact .inl (hsplit ▸ hfront)
  | cons c back =>
    have hc : isLegal c = false := head?_dropWhile_eq_false c (by rw [hrest]; rfl)
    rw [hrest] at hsplit
    exact .inr ⟨_, c, ⟨back, hsplit⟩, hfront, hc⟩

theorem exists_lexed_of_legal (l : Location) {cs : List Char} (h : ∀ c ∈ cs, isLegal c = true) :
    ∃ lexemes, Lexed l cs lexemes := by
  apply exists_lexed
  intro c hc
  rw [isAccepted_eq_isLegal, h c hc]

theorem exists_tokenize_of_legal {source : String} (h : ∀ c ∈ source.toList, isLegal c = true) :
    ∃ lexemes, tokenize source = .ok lexemes := by
  obtain ⟨lexemes, hlexed⟩ := exists_lexed_of_legal .start h
  exact ⟨_, hlexed.tokenize⟩

/-- The first character that is not legal is met as itself, whatever the token before it. -/
theorem FirstIllegal.scan {cs front : List Char} {c : Char} (h : FirstIllegal cs front c)
    (l : Location) : scan l cs [] = .error ⟨l.after front, .strayCharacter c⟩ := by
  obtain ⟨⟨back, rfl⟩, hf, hc⟩ := h
  have hrefused : isAccepted c = false := (isAccepted_eq_isLegal c).trans hc
  rw [isAccepted, Bool.or_eq_false_iff] at hrefused
  obtain ⟨hblank, hcut⟩ := hrefused
  obtain ⟨lexemes, hlexed⟩ := exists_lexed_of_legal l hf
  have hapart : ∀ d ∈ (c :: back).head?, ∀ kind : TokenKind, kind.clings d = false := by
    intro d hd kind
    obtain rfl : c = d := by simpa using hd
    rw [← Bool.not_eq_true]
    intro hclings
    rw [kind.isLegal_of_clings hclings] at hc
    cases hc
  rw [hlexed.scan_append hapart]
  apply scan_stray hblank
  rw [← Option.not_isSome_iff_eq_none, Cut.isSome_ofText?, hcut]
  decide

theorem FirstIllegal.tokenize {source : String} {front : List Char} {c : Char}
    (h : FirstIllegal source.toList front c) :
    tokenize source = .error ⟨.behind front, .strayCharacter c⟩ := by
  rw [MonkeyFrontend.tokenize, h.scan, Location.start_after]

/-- A text cannot be cut exactly if a character in it is not legal. The first of these is then told,
with its own line and column. -/
theorem tokenize_eq_error_iff (source : String) :
    ((∃ diagnostic, tokenize source = .error diagnostic) ↔
      ∃ c ∈ source.toList, isLegal c = false) ∧
    ∀ diagnostic, tokenize source = .error diagnostic ↔
      ∃ front c, FirstIllegal source.toList front c ∧
        diagnostic = ⟨.behind front, .strayCharacter c⟩ ∧
        diagnostic.report = ⟨1 + front.count '\n',
          1 + (front.reverse.takeWhile (· ≠ '\n')).length,
          "unexpected character: " ++ c.toString⟩ := by
  refine ⟨⟨?_, ?_⟩, fun diagnostic => ⟨?_, ?_⟩⟩
  · rintro ⟨diagnostic, he⟩
    obtain hlegal | ⟨front, c, h⟩ := legal_or_firstIllegal source.toList
    · obtain ⟨lexemes, hok⟩ := exists_tokenize_of_legal hlegal
      rw [hok] at he
      cases he
    · obtain ⟨back, hs⟩ := h.split
      exact ⟨c, hs ▸ List.mem_append_right front List.mem_cons_self, h.illegal⟩
  · rintro ⟨c, hm, hc⟩
    obtain hlegal | ⟨front, first, h⟩ := legal_or_firstIllegal source.toList
    · rw [hlegal c hm] at hc
      cases hc
    · exact ⟨_, h.tokenize⟩
  · intro he
    obtain hlegal | ⟨front, c, h⟩ := legal_or_firstIllegal source.toList
    · obtain ⟨lexemes, hok⟩ := exists_tokenize_of_legal hlegal
      rw [hok] at he
      cases he
    · rw [h.tokenize] at he
      obtain rfl := Except.error.inj he
      exact ⟨front, c, h, rfl, rfl⟩
  · rintro ⟨front, c, h, rfl, -⟩
    exact h.tokenize

/-- A letter that is not in the alphabet, right behind one half of an operator. -/
example : tokenize "a =\n\tb !é" = .error ⟨⟨2, 5⟩, .strayCharacter 'é'⟩ := by decide +kernel

end MonkeyFrontend
