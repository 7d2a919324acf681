import MonkeyFrontend.Proofs.Lexeme.Alphabet
import MonkeyFrontend.Proofs.Lexeme.Vocabulary

namespace MonkeyFrontend

theorem Location.step_start_after (cs : List Char) :
    (start.after cs).step '\n' = start.down (cs.count '\n' + 1) := by
  rw [start_after, step, if_pos rfl]
  simp only [behind, down, start, Nat.add_assoc]

/-- Where a text stands does not matter for how it is cut, only for the places that are told. -/
theorem scan_down (n : Nat) (l : Location) (cs : List Char) :
    scan (l.down n) cs [] =
      match scan l cs [] with
      | .error diagnostic => .error (diagnostic.relocate (Location.down n))
      | .ok lexemes => .ok (lexemes.map (Lexeme.relocate (Location.down n))) := by
  obtain hlegal | ⟨front, c, h⟩ := legal_or_firstIllegal cs
  · obtain ⟨lexemes, hlexed⟩ := exists_lexed_of_legal l hlegal
    rw [hlexed.scan, (hlexed.down n).scan, ← Location.down_after]
    simp [Lexeme.relocate, Lexeme.finish]
  · rw [h.scan, h.scan, ← Location.down_after]
    rfl

theorem FirstIllegal.append {cs front : List Char} {c : Char} (h : FirstIllegal cs front c)
    (more : List Char) : FirstIllegal (cs ++ more) front c := by
  obtain ⟨⟨back, rfl⟩, hlegal, hillegal⟩ := h
  exact ⟨⟨back ++ more, by simp⟩, hlegal, hillegal⟩

theorem Lexed.scan_line {cs : List Char} {lexemes : List Lexeme} (h : Lexed .start cs lexemes)
    (next : List Char) :
    MonkeyFrontend.scan .start (cs ++ '\n' :: next) [] =
      (MonkeyFrontend.scan (Location.start.down (cs.count '\n' + 1)) next []).map
        (lexemes ++ ·) := by
  have hapart : ∀ d ∈ ('\n' :: next).head?, ∀ kind : TokenKind, kind.clings d = false := by
    intro d hd kind
    obtain rfl : '\n' = d := Option.some.inj hd
    exact kind.clings_of_blank (by decide)
  rw [h.scan_append hapart, scan_blank rfl, Location.step_start_after, scan_done]
  simp

theorem Lexed.filter_not_isEof {l : Location} {cs : List Char} {lexemes : List Lexeme}
    (h : Lexed l cs lexemes) (place : Location) :
    (lexemes ++ [Lexeme.finish place]).filter (fun lexeme => !lexeme.isEof) = lexemes := by
  rw [List.filter_append, List.filter_eq_self.mpr fun lexeme hm => by simp [h.isEof lexeme hm]]
  exact List.append_nil lexemes

/-- Texts on both sides of a line feed are cut apart. What is told of the second is told as many
lines further down as the first has ended, in the same column. -/
theorem tokenize_append_line (first second : String) :
    let down := Location.down (first.toList.count '\n' + 1)
    tokenize (first ++ "\n" ++ second) =
      match tokenize first with
      | .error diagnostic => .error diagnostic
      | .ok lexemes =>
        match tokenize second with
        | .error diagnostic => .error (diagnostic.relocate down)
        | .ok later =>
          .ok (lexemes.filter (fun lexeme => !lexeme.isEof) ++
            later.map (Lexeme.relocate down)) := by
  intro down
  have hsource : (first ++ "\n" ++ second).toList = first.toList ++ '\n' :: second.toList := by
    simp
  obtain hlegal | ⟨front, c, h⟩ := legal_or_firstIllegal first.toList
  · obtain ⟨lexemes, hlexed⟩ := exists_lexed_of_legal .start hlegal
    rw [tokenize, hsource, hlexed.scan_line, scan_down, hlexed.tokenize]
    dsimp only
    rw [hlexed.filter_not_isEof, ← tokenize]
    cases tokenize second <;> rfl
  · have hwhole : FirstIllegal (first ++ "\n" ++ second).toList front c :=
      hsource ▸ h.append ('\n' :: second.toList)
    rw [hwhole.tokenize, h.tokenize]

/-- The token that the first text ends with does not go on behind the line feed. -/
example : tokenize ("\nab" ++ "\n" ++ "b=\t=") =
    .ok [⟨⟨2, 1⟩, ⟨.identifier, .text "ab"⟩⟩, ⟨⟨3, 1⟩, ⟨.identifier, .text "b"⟩⟩,
      ⟨⟨3, 2⟩, ⟨.assign, .text "="⟩⟩, ⟨⟨3, 4⟩, ⟨.assign, .text "="⟩⟩, .finish ⟨3, 5⟩] := by
  decide +kernel

end MonkeyFrontend
