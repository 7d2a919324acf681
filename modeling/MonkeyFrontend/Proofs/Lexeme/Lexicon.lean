import MonkeyFrontend.Lexeme.Cut

namespace MonkeyFrontend

def IsBlank (c : Char) : Prop := c ∈ [' ', '\t', '\r', '\n']

/-- The underscore counts as a letter. -/
def IsLetter (c : Char) : Prop := ('a' ≤ c ∧ c ≤ 'z') ∨ ('A' ≤ c ∧ c ≤ 'Z') ∨ c = '_'

def IsDigit (c : Char) : Prop := '0' ≤ c ∧ c ≤ '9'

def IsWordPart (c : Char) : Prop := IsLetter c ∨ IsDigit c

instance : DecidablePred IsBlank := fun c => inferInstanceAs (Decidable (c ∈ _))

instance : DecidablePred IsLetter := fun _ => inferInstanceAs (Decidable (_ ∨ _))

instance : DecidablePred IsDigit := fun _ => inferInstanceAs (Decidable (_ ∧ _))

instance : DecidablePred IsWordPart := fun _ => inferInstanceAs (Decidable (_ ∨ _))

def IsName (word : String) : Prop :=
  (∃ c cs, word.toList = c :: cs ∧ IsLetter c ∧ ∀ d ∈ cs, IsWordPart d) ∧
    word ∉ ["let", "return", "true", "false"]

def fixedTokens : List (TokenKind × String) :=
  [(.letKeyword, "let"), (.returnKeyword, "return"), (.trueKeyword, "true"),
    (.falseKeyword, "false"), (.assign, "="), (.plus, "+"), (.minus, "-"), (.bang, "!"),
    (.asterisk, "*"), (.slash, "/"), (.lt, "<"), (.gt, ">"), (.eq, "=="), (.notEq, "!="),
    (.semicolon, ";"), (.lparen, "("), (.rparen, ")")]

/-- The texts that are tokens of a kind. Nothing here is taken from the scanner, whose own tables
are proved below to say the same. -/
inductive Spelling : TokenKind → List Char → Prop where
  | name {text : List Char} (h : IsName (String.ofList text)) : Spelling .identifier text
  | number {text : List Char} (hne : text ≠ []) (h : ∀ d ∈ text, IsDigit d) :
      Spelling .integer text
  | fixed {kind : TokenKind} {text : List Char} (h : (kind, String.ofList text) ∈ fixedTokens) :
      Spelling kind text

/-- Whether a character right after a token of a kind would become a part of it. -/
def TokenKind.clings : TokenKind → Char → Bool
  | letKeyword | returnKeyword | trueKeyword | falseKeyword | identifier => fun c => IsWordPart c
  | integer => fun c => IsDigit c
  | assign | bang => fun c => c = '='
  | _ => fun _ => false

theorem IsName.exists_cons {text : List Char} (h : IsName (String.ofList text)) :
    ∃ c cs, text = c :: cs ∧ IsLetter c ∧ ∀ d ∈ cs, IsWordPart d := by
  obtain ⟨⟨c, cs, hw, hc, hcs⟩, -⟩ := h
  rw [String.toList_ofList] at hw
  exact ⟨c, cs, hw, hc, hcs⟩

theorem IsDigit.not_isLetter {c : Char} (h : IsDigit c) : ¬ IsLetter c := by
  rintro (⟨hl, -⟩ | ⟨hu, -⟩ | rfl)
  · exact absurd (Char.le_trans hl h.2) (by decide)
  · exact absurd (Char.le_trans hu h.2) (by decide)
  · exact absurd h (by decide)

theorem IsWordPart.not_isBlank {c : Char} (h : IsWordPart c) : ¬ IsBlank c := by
  intro hb
  simp only [IsBlank, List.mem_cons, List.not_mem_nil, or_false] at hb
  revert h
  obtain rfl | rfl | rfl | rfl := hb
  all_goals decide

theorem isBlank_iff {c : Char} : isBlank c = true ↔ IsBlank c := by
  simp [isBlank, IsBlank, or_assoc]

theorem isAlpha_iff {c : Char} :
    c.isAlpha = true ↔ ('a' ≤ c ∧ c ≤ 'z') ∨ ('A' ≤ c ∧ c ≤ 'Z') := by
  have hupper : c.isUpper = true ↔ 'A' ≤ c ∧ c ≤ 'Z' := decide_eq_true_iff
  have hlower : c.isLower = true ↔ 'a' ≤ c ∧ c ≤ 'z' :=
    Bool.and_eq_true_iff.trans (and_congr decide_eq_true_iff decide_eq_true_iff)
  rw [← hupper, ← hlower, or_comm]
  exact Bool.or_eq_true_iff

theorem isDigit_iff {c : Char} : c.isDigit = true ↔ IsDigit c := by
  simp [Char.isDigit, IsDigit, Char.le_def]

theorem isWordStart_iff {c : Char} : isWordStart c = true ↔ IsLetter c := by
  rw [isWordStart, Bool.or_eq_true, isAlpha_iff, decide_eq_true_eq, or_assoc, IsLetter]

theorem isWordChar_iff {c : Char} : isWordChar c = true ↔ IsWordPart c := by
  rw [isWordChar, Char.isAlphanum, IsWordPart, ← isWordStart_iff, ← isDigit_iff, isWordStart]
  simp only [Bool.or_eq_true, or_right_comm]

theorem clings_wordKind (word : String) : (wordKind word).clings = isWordChar := by
  have hword : isWordChar = fun c => decide (IsWordPart c) :=
    funext fun c => Bool.eq_iff_iff.mpr (isWordChar_iff.trans decide_eq_true_iff.symm)
  rw [hword]
  unfold wordKind
  repeat' split
  all_goals rfl

theorem clings_integer : TokenKind.integer.clings = Char.isDigit :=
  funext fun _ => Bool.eq_iff_iff.mpr (decide_eq_true_iff.trans isDigit_iff.symm)

theorem wordKind_of_isName {word : String} (h : IsName word) : wordKind word = .identifier := by
  obtain ⟨-, hk⟩ := h
  simp only [List.mem_cons, List.not_mem_nil, or_false, not_or] at hk
  simp [wordKind, hk]

theorem fixedTokens_kind : ∀ entry ∈ fixedTokens,
    entry.1 ≠ .identifier ∧ entry.1 ≠ .integer ∧ entry.1 ≠ .eof ∧
      ∀ other ∈ fixedTokens, other.1 = entry.1 → other.2 = entry.2 := by
  decide

theorem mem_fixedTokens_of_keyword :
    ∀ word ∈ ["let", "return", "true", "false"], (wordKind word, word) ∈ fixedTokens := by
  decide

namespace Spelling

theorem of_fixed {kind : TokenKind} {text : String} (h : (kind, text) ∈ fixedTokens) :
    Spelling kind text.toList := by
  rw [← String.ofList_toList (s := text)] at h
  exact .fixed h

theorem of_isName {word : String} (h : IsName word) : Spelling .identifier word.toList := by
  rw [← String.ofList_toList (s := word)] at h
  exact .name h

theorem isName {text : List Char} (h : Spelling .identifier text) :
    IsName (String.ofList text) := by
  cases h with
  | name h => exact h
  | fixed h => exact absurd rfl (fixedTokens_kind _ h).1

theorem isDigit {text : List Char} (h : Spelling .integer text) : ∀ d ∈ text, IsDigit d := by
  cases h with
  | number hne h => exact h
  | fixed h => exact absurd rfl (fixedTokens_kind _ h).2.1

theorem eq_of_fixed {kind : TokenKind} {text : List Char} (h : Spelling kind text) {fixed : String}
    (hf : (kind, fixed) ∈ fixedTokens) : String.ofList text = fixed := by
  obtain ⟨hidentifier, hinteger, -, hunique⟩ := fixedTokens_kind _ hf
  cases h with
  | name h => exact absurd rfl hidentifier
  | number hne h => exact absurd rfl hinteger
  | fixed h => exact hunique _ h rfl

theorem kind_ne_eof {kind : TokenKind} {text : List Char} (h : Spelling kind text) :
    kind ≠ .eof := by
  cases h with
  | name h => decide
  | number hne h => decide
  | fixed h => exact (fixedTokens_kind _ h).2.2.1

/-- The scanner's words are names and keywords. -/
theorem word {c : Char} {cs : List Char} (hc : isWordStart c = true)
    (hcs : ∀ d ∈ cs, isWordChar d = true) :
    Spelling (wordKind (String.ofList (c :: cs))) (c :: cs) := by
  by_cases hk : String.ofList (c :: cs) ∈ ["let", "return", "true", "false"]
  · exact .fixed (mem_fixedTokens_of_keyword _ hk)
  · have hname : IsName (String.ofList (c :: cs)) :=
      ⟨⟨c, cs, String.toList_ofList, isWordStart_iff.mp hc,
        fun d hd => isWordChar_iff.mp (hcs d hd)⟩, hk⟩
    rw [wordKind_of_isName hname]
    exact .name hname

theorem symbol {c : Char} {kind : TokenKind} (h : symbolKind? c = some kind) :
    Spelling kind [c] := by
  unfold symbolKind? at h
  repeat' split at h
  all_goals cases h
  all_goals
    subst c
    exact .fixed (by decide)

end Spelling

end MonkeyFrontend
