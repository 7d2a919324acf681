import MonkeyFrontend.Proofs.Lexeme.Lexed
import MonkeyFrontend.Proofs.Parsing.SourceOrder

namespace MonkeyFrontend

namespace Segment

variable (f : Location → Location)

theorem results_relocate (segments : List Segment) :
    results (segments.map (relocate f)) =
      ((results segments).1, (results segments).2.map (Diagnostic.relocate f)) := by
  simp only [results, List.filterMap_map, List.flatMap_map, diagnostics_relocate, List.map_flatMap]
  rfl

end Segment

namespace Lexeme

def results (lexemes : List Lexeme) : List Statement × List Diagnostic :=
  Segment.results (Cursor.ofLexemes lexemes).segments

theorem results_append {front : List Lexeme} (h : Cursor.Closed front) (back : List Lexeme) :
    results (front ++ back) =
      ((results front).1 ++ (results back).1, (results front).2 ++ (results back).2) := by
  have hwhole : (Cursor.ofLexemes (front ++ back)).segments = _ :=
    Cursor.segments_extend (Cursor.ofLexemes front) h back
      (Cursor.ofLexemes (front ++ back)).finish
  rw [Cursor.segments_ofLexemes_append] at hwhole
  simp only [results, Segment.results, hwhole, List.filterMap_append, List.flatMap_append,
    Segment.filterMap_statement_extend, Segment.flatMap_diagnostics_extend]

theorem results_of_eof {eof : Lexeme} (h : eof.isEof = true) : results [eof] = ([], []) := by
  rw [results, Cursor.segments_of_eof (c := .ofLexemes [eof]) h]
  rfl

theorem results_relocate (f : Location → Location) (lexemes : List Lexeme) :
    results (lexemes.map (relocate f)) =
      ((results lexemes).1, (results lexemes).2.map (Diagnostic.relocate f)) := by
  cases hl : lexemes.getLast? with
  | none =>
    rw [List.getLast?_eq_none_iff.mp hl, List.map_nil, results, Cursor.segments_of_eof rfl]
    rfl
  | some last =>
    have hcursor : Cursor.ofLexemes (lexemes.map (relocate f)) =
        (Cursor.ofLexemes lexemes).relocate f := by
      simp [Cursor.ofLexemes, Cursor.relocate, List.getLast?_map, hl, relocate]
    rw [results, hcursor, Cursor.segments_relocate, Segment.results_relocate]
    rfl

end Lexeme

theorem parse_of_lexed {source : String} {lexemes : List Lexeme}
    (h : Lexed .start source.toList lexemes) (hc : Cursor.Closed lexemes) :
    parse source =
      match (Lexeme.results lexemes).2 with
      | [] => .ok ⟨(Lexeme.results lexemes).1⟩
      | diagnostics => .error diagnostics := by
  let eof : Lexeme := .finish (Location.start.after source.toList)
  have hresults : Segment.results (Cursor.ofLexemes (lexemes ++ [eof])).segments =
      Lexeme.results lexemes := by
    have happend := Lexeme.results_append hc [eof]
    rwa [Lexeme.results_of_eof rfl, List.append_nil, List.append_nil] at happend
  rw [← hresults]
  exact parse_of_tokenize h.tokenize

/-- A line of whole statements, without its line feed. Unless it is blank, a semicolon is its last
character that is not. -/
structure Line where
  body : List Char
  single : '\n' ∉ body
  accepted : body.all isAccepted = true
  closed : ∀ c, body.reverse.find? (fun c => ¬ IsBlank c) = some c → c = ';'

namespace Line

def text (line : Line) : String := String.ofList (line.body ++ ['\n'])

def faults (line : Line) : List Diagnostic :=
  match parse line.text with
  | .ok _ => []
  | .error diagnostics => diagnostics

/-- Nothing comes after the last semicolon of a line but blanks. -/
theorem exists_lexed (line : Line) :
    ∃ lexemes, Lexed .start line.body lexemes ∧ Cursor.Closed lexemes := by
  cases h : line.body.reverse.find? fun c => ¬ IsBlank c with
  | none =>
    have hblank : ∀ c ∈ line.body, IsBlank c := by simpa using h
    exact ⟨[], .blanks hblank .start, by simp, by simp⟩
  | some c =>
    obtain rfl := line.closed c h
    obtain ⟨-, blanks, front, hbody, hblanks⟩ := List.find?_eq_some_iff_append.mp h
    have hsplit : line.body = front.reverse ++ ([';'] ++ blanks.reverse) := by
      rw [← List.reverse_reverse line.body, hbody]
      simp
    have haccepted : ∀ c ∈ front.reverse, isAccepted c = true := by
      intro c hc
      apply List.all_eq_true.mp line.accepted c
      rw [hsplit]
      exact List.mem_append_left _ hc
    obtain ⟨lexemes, hlexed⟩ := MonkeyFrontend.exists_lexed .start front.reverse haccepted
    let place := Location.start.after front.reverse
    have hlast : Lexed place ([';'] ++ blanks.reverse) [⟨place, ⟨.semicolon, .text ";"⟩⟩] := by
      refine .token (.fixed (by decide)) (fun _ _ => rfl) (.blanks (fun c hc => ?_) _)
      simpa using hblanks c (List.mem_reverse.mp hc)
    have hall := hlexed.append (fun d hd kind => ?_) hlast
    · refine ⟨_, hsplit ▸ hall, hall.isEof, fun lexeme hl => ?_⟩
      rw [List.getLast?_concat, Option.some.injEq] at hl
      rw [← hl]
      rfl
    · obtain rfl : ';' = d := Option.some.inj hd
      cases kind <;> rfl

theorem append {line : Line} {l : Location} {lexemes later : List Lexeme} {cs : List Char}
    (h : Lexed l line.body lexemes) (hc : Lexed ⟨l.line + 1, 1⟩ cs later) :
    Lexed l (line.body ++ '\n' :: cs) (lexemes ++ later) := by
  refine h.append (fun d hd kind => ?_) (.blank (by decide) ?_)
  · obtain rfl : '\n' = d := Option.some.inj hd
    cases kind <;> rfl
  · rw [Location.after_of_no_newline l line.body line.single]
    exact hc

theorem parse_text {line : Line} {lexemes : List Lexeme} (h : Lexed .start line.body lexemes)
    (hc : Cursor.Closed lexemes) :
    parse line.text =
      match (Lexeme.results lexemes).2 with
      | [] => .ok ⟨(Lexeme.results lexemes).1⟩
      | diagnostics => .error diagnostics := by
  have htext : Lexed .start line.text.toList (lexemes ++ []) := by
    rw [text, String.toList_ofList]
    exact append h (.nil _)
  rw [List.append_nil] at htext
  exact parse_of_lexed htext hc

theorem statements_eq {line : Line} {lexemes : List Lexeme} {program : Program}
    (h : Lexed .start line.body lexemes) (hc : Cursor.Closed lexemes)
    (hp : parse line.text = .ok program) : (Lexeme.results lexemes).1 = program.statements := by
  rw [parse_text h hc] at hp
  split at hp
  · rw [← Except.ok.inj hp]
  · cases hp

theorem faults_eq {line : Line} {lexemes : List Lexeme} (h : Lexed .start line.body lexemes)
    (hc : Cursor.Closed lexemes) : line.faults = (Lexeme.results lexemes).2 := by
  rw [faults, parse_text h hc]
  split
  · rename_i heq
    split at heq
    · rename_i hnil
      exact hnil.symm
    · cases heq
  · rename_i heq
    split at heq
    · cases heq
    · exact (Except.error.inj heq).symm

theorem line_of_faults {line : Line} :
    ∀ diagnostic ∈ line.faults, diagnostic.location.line = 1 := by
  obtain ⟨lexemes, h, hc⟩ := line.exists_lexed
  intro diagnostic hm
  rw [faults_eq h hc] at hm
  have hshut : (Cursor.ofLexemes lexemes).Shut := by
    intro lexeme hl
    simp [Cursor.endsStatement, hc.last lexeme hl]
  have hsub := (Cursor.sublist_diagnostics _ hshut).subset (List.mem_map_of_mem hm)
  obtain ⟨lexeme, hlexeme, hlocation⟩ := List.mem_map.mp hsub
  rw [← hlocation]
  exact h.line line.single lexeme hlexeme

end Line

def Diagnostic.onLine (line : Nat) (diagnostic : Diagnostic) : Diagnostic :=
  { diagnostic with location := ⟨line, diagnostic.location.column⟩ }

def sourceOf (lines : List Line) : String := String.join (lines.map Line.text)

theorem toList_sourceOf (lines : List Line) :
    (sourceOf lines).toList = lines.flatMap fun line => line.body ++ ['\n'] := by
  simp [sourceOf, Line.text, List.flatMap_map]

theorem Cursor.Closed.relocate {lexemes : List Lexeme} (h : Closed lexemes)
    (f : Location → Location) : Closed (lexemes.map (Lexeme.relocate f)) := by
  constructor
  · intro lexeme hm
    obtain ⟨first, hfirst, rfl⟩ := List.mem_map.mp hm
    exact h.endless first hfirst
  · intro lexeme hl
    rw [List.getLast?_map] at hl
    obtain ⟨last, hlast, rfl⟩ := Option.map_eq_some_iff.mp hl
    exact h.last last hlast

theorem Cursor.Closed.append {front back : List Lexeme} (h : Closed front) (h' : Closed back) :
    Closed (front ++ back) := by
  constructor
  · intro lexeme hm
    exact (List.mem_append.mp hm).elim (h.endless lexeme) (h'.endless lexeme)
  · intro lexeme hl
    rw [List.getLast?_append] at hl
    obtain hl | ⟨-, hl⟩ := Option.or_eq_some_iff.mp hl
    · exact h'.last lexeme hl
    · exact h.last lexeme hl

/-- Read together, lines come to what they come to one by one, each in its place. -/
theorem exists_lexed_lines (lines : List Line) (n : Nat) :
    ∃ lexemes, Lexed (Location.start.down n) (sourceOf lines).toList lexemes ∧
      Cursor.Closed lexemes ∧
      (Lexeme.results lexemes).2 =
        ((lines.zipIdx (1 + n)).flatMap fun (line, i) => line.faults.map (Diagnostic.onLine i)) ∧
      ∀ programs : List Program, lines.map (fun line => parse line.text) = programs.map .ok →
        (Lexeme.results lexemes).1 = programs.flatMap Program.statements := by
  induction lines generalizing n with
  | nil =>
    have hresults : Lexeme.results [] = ([], []) := by
      rw [Lexeme.results, Cursor.segments_of_eof rfl]
      rfl
    refine ⟨[], .nil _, ⟨by simp, by simp⟩, by rw [hresults]; rfl, fun programs hp => ?_⟩
    rw [List.map_nil, eq_comm, List.map_eq_nil_iff] at hp
    rw [hresults, hp]
    rfl
  | cons line lines ih =>
    obtain ⟨own, hown, hclosed⟩ := line.exists_lexed
    obtain ⟨later, hlater, hclosedLater, hfaults, hstatements⟩ := ih (n + 1)
    -- the lexemes that the line has alone, moved down as many lines as stand before it
    let moved := own.map (Lexeme.relocate (Location.down n))
    have hmoved : Lexeme.results moved =
        ((Lexeme.results own).1, line.faults.map (Diagnostic.onLine (1 + n))) := by
      rw [Lexeme.results_relocate, ← line.faults_eq hown hclosed]
      congr 1
      apply List.map_congr_left
      intro diagnostic hm
      simp only [Diagnostic.relocate, Diagnostic.onLine, Location.down,
        line.line_of_faults diagnostic hm]
    have hclosedMoved : Cursor.Closed moved := hclosed.relocate _
    refine ⟨moved ++ later, ?_, hclosedMoved.append hclosedLater, ?_, fun programs hp => ?_⟩
    · rw [toList_sourceOf, List.flatMap_cons, ← toList_sourceOf, List.append_assoc]
      exact Line.append (hown.down n) hlater
    · rw [Lexeme.results_append hclosedMoved, hmoved, hfaults, List.zipIdx_cons, List.flatMap_cons]
      rfl
    · cases programs with
      | nil => cases hp
      | cons program programs =>
        obtain ⟨hfirst, hrest⟩ := List.cons.inj hp
        rw [Lexeme.results_append hclosedMoved, hmoved, hstatements programs hrest,
          Line.statements_eq hown hclosed hfirst, List.flatMap_cons]

end MonkeyFrontend
