import MonkeyFrontend.Token

namespace MonkeyFrontend

def isWordStart (c : Char) : Bool :=
  c.isAlpha || c = '_'

def isWordChar (c : Char) : Bool :=
  c.isAlphanum || c = '_'

def isBlank (c : Char) : Bool :=
  c = ' ' || c = '\t' || c = '\r' || c = '\n'

def wordKind (word : String) : TokenKind :=
  if word = "let" then .letKeyword
  else if word = "return" then .returnKeyword
  else if word = "true" then .trueKeyword
  else if word = "false" then .falseKeyword
  else .identifier

def symbolKind? (c : Char) : Option TokenKind :=
  if c = '+' then some .plus
  else if c = '-' then some .minus
  else if c = '*' then some .asterisk
  else if c = '/' then some .slash
  else if c = '<' then some .lt
  else if c = '>' then some .gt
  else if c = ';' then some .semicolon
  else if c = '(' then some .lparen
  else if c = ')' then some .rparen
  else none

structure Cut where
  kind : TokenKind
  text : List Char
  rest : List Char

namespace Cut

def token (cut : Cut) : Token :=
  ⟨cut.kind, .text (String.ofList cut.text)⟩

def run (kindOf : List Char → TokenKind) (p : Char → Bool) (c : Char) (cs : List Char) : Cut :=
  let text := c :: cs.takeWhile p
  ⟨kindOf text, text, cs.dropWhile p⟩

def pair (alone withEquals : TokenKind) (c : Char) : List Char → Cut
  | '=' :: cs => ⟨withEquals, [c, '='], cs⟩
  | cs => ⟨alone, [c], cs⟩

/-- The longest token at the front of a text, if one can start there. -/
def ofText? : List Char → Option Cut
  | [] => none
  | c :: cs =>
    if isWordStart c then some (run (fun word => wordKind (String.ofList word)) isWordChar c cs)
    else if c.isDigit then some (run (fun _ => .integer) Char.isDigit c cs)
    else if c = '=' then some (pair .assign .eq c cs)
    else if c = '!' then some (pair .bang .notEq c cs)
    else (symbolKind? c).map fun kind => ⟨kind, [c], cs⟩

theorem run_text_rest (kindOf : List Char → TokenKind) (p : Char → Bool) (c : Char)
    (cs : List Char) : (run kindOf p c cs).text ++ (run kindOf p c cs).rest = c :: cs := by
  simp [run]

theorem pair_text_rest (alone withEquals : TokenKind) (c : Char) (cs : List Char) :
    (pair alone withEquals c cs).text ++ (pair alone withEquals c cs).rest = c :: cs := by
  unfold pair
  split <;> rfl

theorem text_rest_of_ofText? {cs : List Char} {cut : Cut} (h : ofText? cs = some cut) :
    cut.text ++ cut.rest = cs := by
  cases cs with
  | nil => simp [ofText?] at h
  | cons c cs =>
      simp only [ofText?] at h
      repeat' split at h
      · cases h; exact run_text_rest _ _ c cs
      · cases h; exact run_text_rest _ _ c cs
      · cases h; exact pair_text_rest _ _ c cs
      · cases h; exact pair_text_rest _ _ c cs
      · obtain ⟨kind, _, rfl⟩ := Option.map_eq_some_iff.1 h
        rfl

theorem text_ne_nil_of_ofText? {cs : List Char} {cut : Cut} (h : ofText? cs = some cut) :
    cut.text ≠ [] := by
  cases cs with
  | nil => simp [ofText?] at h
  | cons c cs =>
      simp only [ofText?] at h
      repeat' split at h
      · cases h; simp [run]
      · cases h; simp [run]
      · cases h; unfold pair; split <;> simp
      · cases h; unfold pair; split <;> simp
      · obtain ⟨kind, _, rfl⟩ := Option.map_eq_some_iff.1 h
        simp

theorem rest_length_lt_of_ofText? {cs : List Char} {cut : Cut} (h : ofText? cs = some cut) :
    cut.rest.length < cs.length := by
  have hlen := congrArg List.length (text_rest_of_ofText? h)
  have hpos := List.length_pos_iff.2 (text_ne_nil_of_ofText? h)
  rw [List.length_append] at hlen
  omega

end Cut

end MonkeyFrontend
