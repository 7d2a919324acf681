import MonkeyFrontend.Proofs.Lexeme.Layout
import MonkeyFrontend.Proofs.Parsing.Relocation

namespace MonkeyFrontend

namespace Location

def down (n : Nat) (l : Location) : Location := ⟨l.line + n, l.column⟩

theorem down_step (n : Nat) (l : Location) (c : Char) :
    (l.step c).down n = (l.down n).step c := by
  by_cases hc : c = '\n'
  · simp only [step, down, if_pos hc, Nat.add_right_comm]
  · simp only [step, down, if_neg hc]

theorem down_after (n : Nat) (l : Location) (text : List Char) :
    (l.after text).down n = (l.down n).after text := by
  induction text generalizing l with
  | nil => rfl
  | cons c text ih => rw [after_cons, ih, down_step, after_cons]

theorem line_step {c : Char} (h : c ≠ '\n') (l : Location) : (l.step c).line = l.line := by
  rw [step, if_neg h]

end Location

inductive Lexed : Location → List Char → List Lexeme → Prop where
  | nil (l : Location) : Lexed l [] []
  | blank {l : Location} {c : Char} {cs : List Char} {lexemes : List Lexeme}
      (hc : IsBlank c) (h : Lexed (l.step c) cs lexemes) : Lexed l (c :: cs) lexemes
  | token {l : Location} {kind : TokenKind} {text cs : List Char} {lexemes : List Lexeme}
      (hs : Spelling kind text) (hr : ∀ d ∈ cs.head?, kind.clings d = false)
      (h : Lexed (l.after text) cs lexemes) :
      Lexed l (text ++ cs) (⟨l, ⟨kind, .text (String.ofList text)⟩⟩ :: lexemes)

namespace Lexed

variable {l : Location} {cs : List Char} {lexemes : List Lexeme}

theorem scan (h : Lexed l cs lexemes) (done : List Lexeme) :
    scan l cs done = .ok (done.reverse ++ lexemes ++ [.finish (l.after cs)]) := by
  induction h generalizing done with
  | nil l => simp [scan_nil]
  | blank hc h ih => rw [scan_blank (isBlank_iff.mpr hc), ih, Location.after_cons]
  | @token l kind text cs lexemes hs hr h ih =>
    have hcut := hs.cut hr
    cases text with
    | nil => exact absurd rfl hs.ne_nil
    | cons c text =>
      have hscan : MonkeyFrontend.scan l (c :: text ++ cs) done = _ :=
        scan_cut hs.not_blank hcut l done
      rw [hscan, ih, Location.after_append]
      simp [Cut.token]

theorem tokenize {source : String} (h : Lexed .start source.toList lexemes) :
    tokenize source = .ok (lexemes ++ [.finish (Location.start.after source.toList)]) :=
  h.scan []

/-- Texts are cut apart if nothing can cling to what stands before the second. -/
theorem append {back : List Char} {later : List Lexeme} (h : Lexed l cs lexemes)
    (hb : ∀ d ∈ back.head?, ∀ kind : TokenKind, kind.clings d = false)
    (h' : Lexed (l.after cs) back later) : Lexed l (cs ++ back) (lexemes ++ later) := by
  induction h with
  | nil l => exact h'
  | blank hc h ih => exact .blank hc (ih h')
  | @token l kind text cs lexemes hs hr h ih =>
    rw [Location.after_append] at h'
    rw [List.append_assoc]
    refine .token hs (fun d hd => ?_) (ih h')
    -- only behind the last token does the second text come into it
    cases cs with
    | nil => exact hb d hd kind
    | cons c cs => exact hr d hd

theorem blanks {text : List Char} (h : ∀ c ∈ text, IsBlank c) (l : Location) :
    Lexed l text [] := by
  induction text generalizing l with
  | nil => exact .nil l
  | cons c text ih =>
    rw [List.forall_mem_cons] at h
    exact .blank h.1 (ih h.2 _)

theorem down (h : Lexed l cs lexemes) (n : Nat) :
    Lexed (l.down n) cs (lexemes.map (Lexeme.relocate (Location.down n))) := by
  induction h with
  | nil l => exact .nil _
  | blank hc h ih => exact .blank hc (Location.down_step n _ _ ▸ ih)
  | token hs hr h ih => exact .token hs hr (Location.down_after n _ _ ▸ ih)

theorem isEof (h : Lexed l cs lexemes) : ∀ lexeme ∈ lexemes, lexeme.isEof = false := by
  induction h with
  | nil l => simp
  | blank hc h ih => exact ih
  | token hs hr h ih => exact List.forall_mem_cons.mpr ⟨decide_eq_false hs.kind_ne_eof, ih⟩

theorem line (h : Lexed l cs lexemes) (hn : '\n' ∉ cs) :
    ∀ lexeme ∈ lexemes, lexeme.location.line = l.line := by
  induction h with
  | nil l => simp
  | @blank l c cs lexemes hc h ih =>
    rw [List.mem_cons, not_or] at hn
    rw [← Location.line_step (Ne.symm hn.1) l]
    exact ih hn.2
  | @token l kind text cs lexemes hs hr h ih =>
    rw [List.mem_append, not_or] at hn
    have hline : (l.after text).line = l.line := by rw [Location.after_of_no_newline l text hn.1]
    exact List.forall_mem_cons.mpr ⟨rfl, hline ▸ ih hn.2⟩

end Lexed

def isAccepted (c : Char) : Bool := isBlank c || (Cut.ofText? [c]).isSome

theorem Cut.isSome_ofText? (c : Char) (cs : List Char) :
    (ofText? (c :: cs)).isSome = (ofText? [c]).isSome := by
  simp only [ofText?]
  repeat' split
  all_goals simp

theorem exists_lexed (l : Location) (cs : List Char) (h : ∀ c ∈ cs, isAccepted c = true) :
    ∃ lexemes, Lexed l cs lexemes := by
  induction hn : cs.length using Nat.strongRecOn generalizing l cs with
  | ind n ih =>
    cases cs with
    | nil => exact ⟨[], .nil l⟩
    | cons c rest =>
      cases hb : isBlank c with
      | true =>
        obtain ⟨lexemes, hrest⟩ := ih rest.length (by simp [← hn]) (l.step c) rest
          (fun d hd => h d (List.mem_cons_of_mem c hd)) rfl
        exact ⟨lexemes, .blank (isBlank_iff.mp hb) hrest⟩
      | false =>
        have hsome : (Cut.ofText? (c :: rest)).isSome = true := by
          have hc := h c List.mem_cons_self
          rw [isAccepted, hb, Bool.false_or] at hc
          rw [Cut.isSome_ofText?, hc]
        obtain ⟨cut, hcut⟩ := Option.isSome_iff_exists.mp hsome
        obtain ⟨hspelling, hapart⟩ := Cut.spelling_of_ofText? hcut
        have htext := Cut.text_rest_of_ofText? hcut
        have hlt : cut.rest.length < n := hn ▸ Cut.rest_length_lt_of_ofText? hcut
        obtain ⟨lexemes, hrest⟩ := ih _ hlt (l.after cut.text) cut.rest
          (fun d hd => h d (htext ▸ List.mem_append_right cut.text hd)) rfl
        rw [← htext]
        exact ⟨_, .token hspelling hapart hrest⟩

end MonkeyFrontend
