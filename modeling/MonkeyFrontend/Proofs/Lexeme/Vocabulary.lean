import Mathlib.Data.List.Chain
import MonkeyFrontend.Proofs.Lexeme.Layout
import MonkeyFrontend.Proofs.Tree.Canonical

namespace MonkeyFrontend

inductive Token.Proper : Token → Prop where
  | spelled {kind : TokenKind} {text : String} (h : Spelling kind text.toList) :
      Proper ⟨kind, .text text⟩

namespace Token

theorem Proper.exists_text {token : Token} (h : token.Proper) :
    ∃ text : String, token = ⟨token.kind, .text text⟩ ∧ Spelling token.kind text.toList := by
  cases h with
  | @spelled kind text h => exact ⟨text, rfl, h⟩

theorem Proper.eq_of_fixed {token : Token} (h : token.Proper) {text : String}
    (hf : (token.kind, text) ∈ fixedTokens) : token = ⟨token.kind, .text text⟩ := by
  obtain ⟨text', ht, hs⟩ := h.exists_text
  have hfixed := hs.eq_of_fixed hf
  rw [String.ofList_toList] at hfixed
  rwa [hfixed] at ht

theorem Proper.exists_name {token : Token} (h : token.Proper) (hk : token.kind = .identifier) :
    ∃ word, token = ⟨.identifier, .text word⟩ ∧ IsName word := by
  obtain ⟨word, ht, hs⟩ := h.exists_text
  rw [hk] at ht hs
  have hname := hs.isName
  rw [String.ofList_toList] at hname
  exact ⟨word, ht, hname⟩

theorem Proper.exists_digits {token : Token} (h : token.Proper) (hk : token.kind = .integer) :
    ∃ digits, token = ⟨.integer, .text digits⟩ ∧ ∀ d ∈ digits.toList, d.isDigit = true := by
  obtain ⟨digits, ht, hs⟩ := h.exists_text
  rw [hk] at ht hs
  exact ⟨digits, ht, fun d hd => isDigit_iff.mpr (hs.isDigit d hd)⟩

end Token

theorem proper_of_tokenize {source : String} {lexemes : List Lexeme}
    (h : tokenize source = .ok lexemes) :
    ∀ lexeme ∈ lexemes, lexeme.isEof = false → lexeme.token.Proper := by
  obtain ⟨pieces, final, hlayout, rfl⟩ := exists_layout_of_scan [] source.toList h
  intro lexeme hm he
  obtain hm | hm := List.mem_append.mp hm
  · obtain ⟨piece, hp, rfl⟩ := List.mem_map.mp hm
    apply Token.Proper.spelled
    rw [String.toList_ofList]
    exact hlayout.spelling hp
  · rw [List.mem_singleton.mp hm] at he
    cases he

theorem TokenKind.clings_of_blank {c : Char} (h : IsBlank c) (kind : TokenKind) :
    kind.clings c = false := by
  simp only [IsBlank, List.mem_cons, List.not_mem_nil, or_false] at h
  obtain rfl | rfl | rfl | rfl := h
  all_goals cases kind <;> rfl

abbrev Blanks := { cs : List Char // ∀ c ∈ cs, IsBlank c }

structure Spaced where
  token : Token
  proper : token.Proper
  blanks : Blanks

namespace Spaced

def text (item : Spaced) : List Char := item.token.literal.render.toList

def chars (item : Spaced) : List Char := item.text ++ item.blanks.val

/-- Two tokens can be told from each other: blanks stand between them, or else the second does not
start with a character that would become a part of the first. -/
def Apart (first second : Spaced) : Prop :=
  first.blanks.val = [] → ∀ c ∈ second.text.head?, first.token.kind.clings c = false

theorem spelling (item : Spaced) : Spelling item.token.kind item.text := by
  obtain ⟨text, ht, hs⟩ := item.proper.exists_text
  rw [Spaced.text, ht]
  exact hs

theorem token_eq (item : Spaced) :
    item.token = ⟨item.token.kind, .text (String.ofList item.text)⟩ := by
  obtain ⟨text, ht, -⟩ := item.proper.exists_text
  rw [Spaced.text, ht]
  simp [Literal.render]

theorem head?_chars (item : Spaced) (rest : List Char) :
    (item.chars ++ rest).head? = item.text.head? := by
  cases ht : item.text with
  | nil => exact absurd ht item.spelling.ne_nil
  | cons c cs => simp [chars, ht]

theorem forall_apart_iff {first : Spaced} {rest : List Spaced} :
    (∀ second ∈ rest.head?, first.Apart second) ↔
      ∀ d ∈ (first.blanks.val ++ rest.flatMap chars).head?, first.token.kind.clings d = false := by
  cases hb : first.blanks.val with
  | cons c cs =>
    have hc : IsBlank c := first.blanks.property c (by simp [hb])
    refine iff_of_true (fun second _ hn => ?_) (fun d hd => ?_)
    · cases hb.symm.trans hn
    · obtain rfl : c = d := Option.some.inj hd
      exact TokenKind.clings_of_blank hc _
  | nil =>
    cases rest with
    | nil => simp
    | cons second rest =>
      rw [List.nil_append, List.flatMap_cons, head?_chars]
      simp [Apart, hb]

theorem scans_token (item : Spaced) {rest : List Char}
    (h : ∀ d ∈ (item.blanks.val ++ rest).head?, item.token.kind.clings d = false) :
    Scans item.chars [item.token] rest := by
  have hspelling : Spelling item.token.kind (String.ofList item.text).toList := by
    rw [String.toList_ofList]
    exact item.spelling
  have htoken := Scans.token (String.ofList item.text) hspelling h
  rw [← token_eq, String.toList_ofList] at htoken
  have hblanks : Scans item.blanks.val [] rest :=
    fun location done => ⟨[], rfl, scan_blanks item.blanks.property location rest done⟩
  exact htoken.append hblanks

theorem scans {items : List Spaced} (h : items.IsChain Apart) :
    Scans (items.flatMap chars) (items.map token) [] := by
  induction items with
  | nil => exact .nil []
  | cons first rest ih =>
    obtain ⟨hfirst, hrest⟩ := List.isChain_cons.mp h
    rw [forall_apart_iff] at hfirst
    apply (scans_token first _).append (ih hrest)
    rwa [List.append_nil]

/-- If the first token that is cut from a text is the one that was set there, nothing that follows
became a part of it. -/
theorem clings_of_scan {first : Spaced} {rest : List Char} {location : Location}
    {lexemes : List Lexeme} {tokens : List Token}
    (h : scan location (first.chars ++ rest) [] = .ok lexemes)
    (ht : lexemes.map Lexeme.token = first.token :: tokens) :
    (∀ d ∈ (first.blanks.val ++ rest).head?, first.token.kind.clings d = false) ∧
      ∃ place later, scan place rest [] = .ok later ∧ later.map Lexeme.token = tokens := by
  have hspelling := first.spelling
  cases hf : first.text with
  | nil => exact absurd hf hspelling.ne_nil
  | cons c cs =>
    rw [hf] at hspelling
    rw [chars, hf, List.append_assoc, List.cons_append] at h
    cases hcut : Cut.ofText? (c :: (cs ++ (first.blanks.val ++ rest))) with
    | none =>
      rw [scan_stray hspelling.not_blank hcut] at h
      cases h
    | some cut =>
      rw [scan_cut hspelling.not_blank hcut, scan_done] at h
      cases hs : scan (location.after cut.text) cut.rest [] with
      | error d =>
        rw [hs] at h
        cases h
      | ok later =>
        rw [hs] at h
        cases h
        obtain ⟨htoken, hlater⟩ := List.cons.inj ht
        -- the token that was cut has the text of the one that was set, so the rest is the same too
        rw [first.token_eq, Cut.token, hf] at htoken
        injection htoken with hkind hliteral
        injection hliteral with hliteral
        have htext : cut.text = c :: cs := String.ofList_injective hliteral
        have hrest : cut.rest = first.blanks.val ++ rest := by
          have hall := Cut.text_rest_of_ofText? hcut
          rw [htext] at hall
          exact List.append_cancel_left hall
        rw [hrest, scan_blanks first.blanks.property] at hs
        refine ⟨fun d hd => ?_, _, later, hs, hlater⟩
        rw [← hkind]
        exact (Cut.spelling_of_ofText? hcut).2 d (hrest ▸ hd)

theorem isChain_of_scan {items : List Spaced} {location : Location} {lexemes : List Lexeme}
    (h : scan location (items.flatMap chars) [] = .ok lexemes)
    (ht : lexemes.map Lexeme.token = items.map token ++ [.eof]) : items.IsChain Apart := by
  induction items generalizing location lexemes with
  | nil => exact .nil
  | cons first rest ih =>
    obtain ⟨hfirst, place, later, hlater, htokens⟩ := clings_of_scan h ht
    exact List.isChain_cons.mpr ⟨forall_apart_iff.mpr hfirst, ih hlater htokens⟩

end Spaced

/-- Tokens of the language that are set in a text, with blanks between them, are what the text is
cut into exactly if each can be told from the next. -/
theorem tokenize_spaced_iff (before : Blanks) (items : List Spaced) :
    (∃ lexemes,
      tokenize (String.ofList (before.val ++ items.flatMap Spaced.chars)) = .ok lexemes ∧
        lexemes.map Lexeme.token = items.map Spaced.token ++ [.eof]) ↔
      items.IsChain Spaced.Apart := by
  rw [tokenize, String.toList_ofList, scan_blanks before.property]
  constructor
  · rintro ⟨lexemes, hs, ht⟩
    exact Spaced.isChain_of_scan hs ht
  · intro hc
    obtain ⟨lexemes, ht, hs⟩ := Spaced.scans hc (Location.start.after before.val) []
    rw [List.append_nil, List.append_nil, scan_nil] at hs
    refine ⟨_, hs, ?_⟩
    simp [ht, Lexeme.finish]

end MonkeyFrontend
