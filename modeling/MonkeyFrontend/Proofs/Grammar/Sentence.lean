import MonkeyFrontend.Proofs.Grammar.Phrase

namespace MonkeyFrontend

abbrev Terminator := Option { lexeme : Lexeme // lexeme.kind = .semicolon }

def Terminator.lexemes (terminator : Terminator) : List Lexeme := terminator.toList.map Subtype.val

theorem Terminator.kind_of_mem {terminator : Terminator} {lexeme : Lexeme}
    (h : lexeme ∈ terminator.lexemes) : lexeme.kind = .semicolon := by
  obtain ⟨semicolon, _, rfl⟩ := List.mem_map.mp h
  exact semicolon.property

inductive Sentence where
  | letBinding (keyword : Lexeme) (hk : keyword.kind = .letKeyword) (name : Lexeme)
      (hn : name.kind = .identifier) (sign : Lexeme) (hs : sign.kind = .assign)
      (value : Phrase .equality) (terminator : Terminator)
  | returnValue (keyword : Lexeme) (hk : keyword.kind = .returnKeyword)
      (value : Option (Phrase .equality)) (terminator : Terminator)
  | expression (value : Phrase .equality) (terminator : Terminator)
  | empty (semicolon : Lexeme) (h : semicolon.kind = .semicolon)

namespace Sentence

def lexemes : Sentence → List Lexeme
  | letBinding keyword _ name _ sign _ value terminator =>
    keyword :: name :: sign :: (value.lexemes ++ terminator.lexemes)
  | returnValue keyword _ value terminator =>
    keyword :: ((value.map Phrase.lexemes).getD [] ++ terminator.lexemes)
  | expression value terminator => value.lexemes ++ terminator.lexemes
  | empty semicolon _ => [semicolon]

def tree : Sentence → Statement
  | letBinding keyword _ name _ _ _ value _ =>
    .letBinding keyword.token ⟨name.token, name.token.literal⟩ (some value.tree)
  | returnValue keyword _ value _ => .returnValue keyword.token (value.map Phrase.tree)
  | expression value _ => .expression value.first.token (some value.tree)
  | empty semicolon _ => .expression semicolon.token none

def terminator : Sentence → Terminator
  | letBinding _ _ _ _ _ _ _ terminator => terminator
  | returnValue _ _ _ terminator => terminator
  | expression _ terminator => terminator
  | empty semicolon h => some ⟨semicolon, h⟩

def value? : Sentence → Option (Phrase .equality)
  | letBinding _ _ _ _ _ _ value _ => some value
  | returnValue _ _ value _ => value
  | expression value _ => some value
  | empty _ _ => none

theorem lexemes_ne_nil (sentence : Sentence) : sentence.lexemes ≠ [] := by
  cases sentence with
  | letBinding keyword hk name hn sign hs value terminator => exact List.cons_ne_nil _ _
  | returnValue keyword hk value terminator => exact List.cons_ne_nil _ _
  | expression value terminator => exact List.append_ne_nil_of_left_ne_nil value.lexemes_ne_nil _
  | empty semicolon h => exact List.cons_ne_nil _ _

theorem kind_ne_eof_of_append {p : Phrase .equality} {terminator : Terminator} {lexeme : Lexeme}
    (h : lexeme ∈ p.lexemes ++ terminator.lexemes) : lexeme.kind ≠ .eof := by
  obtain h | h := List.mem_append.mp h
  · intro he
    exact p.kind_not_mem_outer lexeme h (by simp [he, Stratum.outer])
  · simp [Terminator.kind_of_mem h]

theorem kind_ne_eof (sentence : Sentence) :
    ∀ lexeme ∈ sentence.lexemes, lexeme.kind ≠ .eof := by
  intro lexeme hm
  cases sentence with
  | letBinding keyword hk name hn sign hs value terminator =>
    simp only [lexemes, List.mem_cons] at hm
    obtain rfl | rfl | rfl | hm := hm
    · simp [hk]
    · simp [hn]
    · simp [hs]
    · exact kind_ne_eof_of_append hm
  | returnValue keyword hk value terminator =>
    obtain rfl | hm := List.mem_cons.mp hm
    · simp [hk]
    · cases value with
      | none => simp [Terminator.kind_of_mem hm]
      | some value => exact kind_ne_eof_of_append hm
  | expression value terminator => exact kind_ne_eof_of_append hm
  | empty semicolon h =>
    rw [List.mem_singleton.mp hm, h]
    simp

end Sentence

end MonkeyFrontend
