import MonkeyFrontend.Diagnostic
import MonkeyFrontend.Lexeme
import MonkeyFrontend.Lexeme.Cut

namespace MonkeyFrontend

/-- Cuts a text that starts at a place into lexemes, the end of the text being the last of them.
The lexemes already cut come in reverse. -/
def scan (location : Location) (cs : List Char) (done : List Lexeme) :
    Except Diagnostic (List Lexeme) :=
  match cs with
  | [] => .ok (.finish location :: done).reverse
  | c :: rest =>
    if isBlank c then scan (location.step c) rest done
    else
      match _h : Cut.ofText? (c :: rest) with
      | none => .error ⟨location, .strayCharacter c⟩
      | some cut => scan (location.after cut.text) cut.rest (⟨location, cut.token⟩ :: done)
termination_by cs.length
decreasing_by
  · simp
  · exact Cut.rest_length_lt_of_ofText? _h

theorem scan_nil (location : Location) (done : List Lexeme) :
    scan location [] done = .ok (.finish location :: done).reverse := by
  rw [scan]

theorem scan_blank {c : Char} (h : isBlank c = true) (location : Location) (cs : List Char)
    (done : List Lexeme) : scan location (c :: cs) done = scan (location.step c) cs done := by
  rw [scan, if_pos h]

theorem scan_cut {c : Char} {cs : List Char} {cut : Cut} (hb : isBlank c = false)
    (h : Cut.ofText? (c :: cs) = some cut) (location : Location) (done : List Lexeme) :
    scan location (c :: cs) done =
      scan (location.after cut.text) cut.rest (⟨location, cut.token⟩ :: done) := by
  rw [scan, if_neg (by simp [hb])]
  split
  · rename_i hn; rw [h] at hn; cases hn
  · rename_i hs; rw [h] at hs; cases hs; rfl

theorem scan_stray {c : Char} {cs : List Char} (hb : isBlank c = false)
    (h : Cut.ofText? (c :: cs) = none) (location : Location) (done : List Lexeme) :
    scan location (c :: cs) done = .error ⟨location, .strayCharacter c⟩ := by
  rw [scan, if_neg (by simp [hb])]
  split
  · rfl
  · rename_i hs; rw [h] at hs; cases hs

/-- The lexemes already cut only stand in front. -/
theorem scan_done (location : Location) (cs : List Char) (done : List Lexeme) :
    scan location cs done = (scan location cs []).map (done.reverse ++ ·) := by
  induction hn : cs.length using Nat.strongRecOn generalizing location cs done with
  | ind n ih =>
      cases cs with
      | nil => simp [scan_nil, Except.map]
      | cons c rest =>
          by_cases hb : isBlank c = true
          · rw [scan_blank hb, scan_blank hb]
            exact ih rest.length (by simp [← hn]) _ rest done rfl
          · have hb : isBlank c = false := by simpa using hb
            cases h : Cut.ofText? (c :: rest) with
            | none => rw [scan_stray hb h, scan_stray hb h]; rfl
            | some cut =>
                have hlt : cut.rest.length < n := hn ▸ Cut.rest_length_lt_of_ofText? h
                rw [scan_cut hb h, scan_cut hb h, ih _ hlt _ _ _ rfl, ih _ hlt _ _ [_] rfl]
                cases scan (location.after cut.text) cut.rest [] with
                | error d => rfl
                | ok ls => simp [Except.map]

def tokenize (source : String) : Except Diagnostic (List Lexeme) :=
  scan .start source.toList []

end MonkeyFrontend
