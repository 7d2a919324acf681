import MonkeyFrontend.Lexeme.Scan
import MonkeyFrontend.Proofs.Lexeme.Lexicon

namespace MonkeyFrontend

theorem takeWhile_run {p : Char → Bool} {cs rest : List Char} (hcs : ∀ d ∈ cs, p d = true)
    (hr : ∀ d ∈ rest.head?, p d = false) : (cs ++ rest).takeWhile p = cs := by
  rw [List.takeWhile_append_of_pos hcs]
  cases rest with
  | nil => simp
  | cons d rest => simp [hr d rfl]

theorem dropWhile_run {p : Char → Bool} {cs rest : List Char} (hcs : ∀ d ∈ cs, p d = true)
    (hr : ∀ d ∈ rest.head?, p d = false) : (cs ++ rest).dropWhile p = rest := by
  rw [List.dropWhile_append_of_pos hcs]
  cases rest with
  | nil => rfl
  | cons d rest => simp [hr d rfl]

theorem pair_alone {alone withEquals : TokenKind} {c : Char} {rest : List Char}
    (hr : ∀ d ∈ rest.head?, (decide (d = '=')) = false) :
    Cut.pair alone withEquals c rest = ⟨alone, [c], rest⟩ := by
  unfold Cut.pair
  split
  · have := hr '=' rfl
    simp at this
  · rfl

theorem Cut.ofText?_word {c : Char} {cs rest : List Char} (hc : isWordStart c = true)
    (hcs : ∀ d ∈ cs, isWordChar d = true) (hr : ∀ d ∈ rest.head?, isWordChar d = false) :
    ofText? (c :: cs ++ rest) = some ⟨wordKind (String.ofList (c :: cs)), c :: cs, rest⟩ := by
  rw [List.cons_append, ofText?, if_pos hc, run, takeWhile_run hcs hr, dropWhile_run hcs hr]

theorem Cut.ofText?_number {c : Char} {cs rest : List Char} (hc : c.isDigit = true)
    (hcs : ∀ d ∈ cs, d.isDigit = true) (hr : ∀ d ∈ rest.head?, d.isDigit = false) :
    ofText? (c :: cs ++ rest) = some ⟨.integer, c :: cs, rest⟩ := by
  have hword : ¬ isWordStart c = true := fun h =>
    (isDigit_iff.mp hc).not_isLetter (isWordStart_iff.mp h)
  rw [List.cons_append, ofText?, if_neg hword, if_pos hc, run, takeWhile_run hcs hr,
    dropWhile_run hcs hr]

theorem Cut.ofText?_keyword (word : String) (c : Char) (cs : List Char) {rest : List Char}
    (hw : word.toList = c :: cs) (hc : isWordStart c = true) (hcs : cs.all isWordChar = true)
    (hr : ∀ d ∈ rest.head?, (wordKind word).clings d = false) :
    ofText? (word.toList ++ rest) = some ⟨wordKind word, word.toList, rest⟩ := by
  rw [clings_wordKind] at hr
  rw [hw, ofText?_word hc (List.all_eq_true.mp hcs) hr, ← hw, String.ofList_toList]

theorem Cut.ofText?_fixed : ∀ entry ∈ fixedTokens, ∀ rest : List Char,
    (∀ d ∈ rest.head?, entry.1.clings d = false) →
      ofText? (entry.2.toList ++ rest) = some ⟨entry.1, entry.2.toList, rest⟩ := by
  simp only [fixedTokens, List.forall_mem_cons]
  -- a keyword is cut as a word, `=` and `!` depend on what follows, and the others do not
  exact ⟨fun _ hr => ofText?_keyword "let" 'l' ['e', 't'] rfl rfl rfl hr,
    fun _ hr => ofText?_keyword "return" 'r' ['e', 't', 'u', 'r', 'n'] rfl rfl rfl hr,
    fun _ hr => ofText?_keyword "true" 't' ['r', 'u', 'e'] rfl rfl rfl hr,
    fun _ hr => ofText?_keyword "false" 'f' ['a', 'l', 's', 'e'] rfl rfl rfl hr,
    fun _ hr => congrArg some (pair_alone hr), fun _ _ => rfl, fun _ _ => rfl,
    fun _ hr => congrArg some (pair_alone hr), fun _ _ => rfl, fun _ _ => rfl, fun _ _ => rfl,
    fun _ _ => rfl, fun _ _ => rfl, fun _ _ => rfl, fun _ _ => rfl, fun _ _ => rfl,
    fun _ _ => rfl, by simp⟩

namespace Spelling

/-- A token is cut off whole, whatever follows, unless that would become a part of it. -/
theorem cut {kind : TokenKind} {text : List Char} (h : Spelling kind text) {rest : List Char}
    (hr : ∀ d ∈ rest.head?, kind.clings d = false) :
    Cut.ofText? (text ++ rest) = some ⟨kind, text, rest⟩ := by
  cases h with
  | name h =>
    have hkind := wordKind_of_isName h
    obtain ⟨c, cs, rfl, hc, hcs⟩ := h.exists_cons
    rw [← hkind, clings_wordKind] at hr
    rw [Cut.ofText?_word (isWordStart_iff.mpr hc) (fun d hd => isWordChar_iff.mpr (hcs d hd)) hr,
      hkind]
  | number hne h =>
    obtain ⟨c, cs, rfl⟩ := List.exists_cons_of_ne_nil hne
    rw [List.forall_mem_cons] at h
    rw [clings_integer] at hr
    exact Cut.ofText?_number (isDigit_iff.mpr h.1) (fun d hd => isDigit_iff.mpr (h.2 d hd)) hr
  | fixed h =>
    have hcut : Cut.ofText? ((String.ofList text).toList ++ rest) = _ :=
      Cut.ofText?_fixed _ h rest hr
    rwa [String.toList_ofList] at hcut

theorem not_isBlank {kind : TokenKind} {text : List Char} (h : Spelling kind text) :
    ∀ c ∈ text, ¬ IsBlank c := by
  cases h with
  | name h =>
    obtain ⟨c, cs, rfl, hc, hcs⟩ := h.exists_cons
    exact List.forall_mem_cons.mpr
      ⟨IsWordPart.not_isBlank (.inl hc), fun d hd => (hcs d hd).not_isBlank⟩
  | number hne h => exact fun d hd => IsWordPart.not_isBlank (.inr (h d hd))
  | fixed h =>
    have hfixed : ∀ entry ∈ fixedTokens, (entry.2.toList.all fun c => ¬ IsBlank c) = true := by
      decide
    have hall := hfixed _ h
    rw [String.toList_ofList] at hall
    exact fun c hc => of_decide_eq_true (List.all_eq_true.mp hall c hc)

theorem not_blank {kind : TokenKind} {c : Char} {cs : List Char} (h : Spelling kind (c :: cs)) :
    isBlank c = false := by
  rw [← Bool.not_eq_true, isBlank_iff]
  exact h.not_isBlank c List.mem_cons_self

theorem ne_nil {kind : TokenKind} {text : List Char} (h : Spelling kind text) : text ≠ [] := by
  rintro rfl
  cases h with
  | name h =>
    obtain ⟨c, cs, hnil, -⟩ := h.exists_cons
    cases hnil
  | number hne h => exact hne rfl
  | fixed h =>
    have hne : ∀ entry ∈ fixedTokens, entry.2 ≠ "" := by decide
    exact hne _ h rfl

end Spelling

/-- In front of the rest, a text is cut into these tokens. -/
def Scans (text : List Char) (tokens : List Token) (rest : List Char) : Prop :=
  ∀ (location : Location) (done : List Lexeme), ∃ lexemes : List Lexeme,
    lexemes.map Lexeme.token = tokens ∧
      scan location (text ++ rest) done =
        scan (location.after text) rest (lexemes.reverse ++ done)

namespace Scans

theorem nil (rest : List Char) : Scans [] [] rest :=
  fun _ _ => ⟨[], rfl, rfl⟩

theorem append {text text' rest : List Char} {tokens tokens' : List Token}
    (h : Scans text tokens (text' ++ rest)) (h' : Scans text' tokens' rest) :
    Scans (text ++ text') (tokens ++ tokens') rest := by
  intro location done
  obtain ⟨lexemes, ht, hs⟩ := h location done
  obtain ⟨lexemes', ht', hs'⟩ := h' (location.after text) (lexemes.reverse ++ done)
  refine ⟨lexemes ++ lexemes', ?_, ?_⟩
  · rw [List.map_append, ht, ht']
  · rw [List.append_assoc, hs, hs', Location.after_append, List.reverse_append, List.append_assoc]

theorem blank {c : Char} (h : IsBlank c) (rest : List Char) : Scans [c] [] rest := by
  intro location done
  exact ⟨[], rfl, scan_blank (isBlank_iff.mpr h) location rest done⟩

theorem token {kind : TokenKind} (text : String) {rest : List Char}
    (h : Spelling kind text.toList) (hr : ∀ d ∈ rest.head?, kind.clings d = false) :
    Scans text.toList [⟨kind, .text text⟩] rest := by
  intro location done
  have hcut := h.cut hr
  refine ⟨[⟨location, ⟨kind, .text text⟩⟩], rfl, ?_⟩
  cases hl : text.toList with
  | nil => exact absurd hl h.ne_nil
  | cons c cs =>
    rw [hl] at h hcut
    have hscan := scan_cut h.not_blank hcut location done
    rwa [Cut.token, ← hl, String.ofList_toList, hl] at hscan

end Scans

theorem tokenize_of_scans {source : String} {tokens : List Token}
    (h : Scans source.toList tokens []) :
    ∃ lexemes location, tokenize source = .ok (lexemes ++ [.finish location]) ∧
      lexemes.map Lexeme.token = tokens := by
  obtain ⟨lexemes, ht, hs⟩ := h .start []
  refine ⟨lexemes, Location.start.after source.toList, ?_, ht⟩
  rw [List.append_nil, scan_nil] at hs
  rw [tokenize, hs]
  simp

end MonkeyFrontend
