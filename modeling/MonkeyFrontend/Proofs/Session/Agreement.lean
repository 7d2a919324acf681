import MonkeyFrontend.Proofs.Parsing.Wholeness
import MonkeyFrontend.Proofs.Session.Independence
import MonkeyFrontend.Proofs.Session.Lines
import MonkeyFrontend.Session.File

namespace MonkeyFrontend

def encode (text : String) : List UInt8 := text.toList.flatMap String.utf8EncodeChar

theorem decode?_encode (text : String) : decode? (encode text) = some text := by
  have hbytes : (encode text).toByteArray = text.toByteArray := by
    have h := String.toByteArray_ofList (l := text.toList)
    rw [String.ofList_toList] at h
    exact h.symm
  rw [decode?, hbytes, String.fromUTF8?, dif_pos text.isValidUTF8]
  rfl

/-- Only a line feed has the byte of a line feed in its encoding. -/
theorem lineFeed_not_mem_utf8EncodeChar {c : Char} (h : c ≠ '\n') :
    lineFeed ∉ String.utf8EncodeChar c := by
  have hne : c.val.toNat ≠ 10 := fun hv => h (Char.ext (UInt32.toNat_inj.mp hv))
  have hfeed : lineFeed.toNat = 10 := rfl
  unfold String.utf8EncodeChar
  dsimp only
  repeat' split
  all_goals
    simp only [List.mem_cons, List.not_mem_nil, or_false, ← UInt8.toNat_inj, hfeed,
      UInt8.toNat_ofNat']
    omega

theorem inputLines_append {front : List UInt8} (h : lineFeed ∉ front) (rest : List UInt8) :
    inputLines (front ++ lineFeed :: rest) = (front ++ [lineFeed]) :: inputLines rest := by
  induction front with
  | nil => rfl
  | cons byte front ih =>
    rw [List.mem_cons, not_or] at h
    have hrest := ih h.2
    simp only [inputLines] at hrest
    simp only [inputLines, List.cons_append, List.foldr_cons, hrest, joinLine, if_neg (Ne.symm h.1)]

theorem encode_text (line : Line) :
    encode line.text = line.body.flatMap String.utf8EncodeChar ++ [lineFeed] := by
  rw [encode, Line.text, String.toList_ofList, List.flatMap_append]
  rfl

theorem inputLines_encode (lines : List Line) :
    inputLines (encode (sourceOf lines)) = lines.map fun line => encode line.text := by
  induction lines with
  | nil => rfl
  | cons line lines ih =>
    have hline : lineFeed ∉ line.body.flatMap String.utf8EncodeChar := by
      intro hm
      obtain ⟨c, hc, hm⟩ := List.mem_flatMap.mp hm
      exact lineFeed_not_mem_utf8EncodeChar (fun he => line.single (he ▸ hc)) hm
    have hbytes : encode (sourceOf (line :: lines)) =
        line.body.flatMap String.utf8EncodeChar ++ lineFeed :: encode (sourceOf lines) := by
      rw [encode, toList_sourceOf, List.flatMap_cons, ← toList_sourceOf, List.flatMap_append,
        List.flatMap_append, List.append_assoc]
      rfl
    rw [hbytes, inputLines_append hline, ih, List.map_cons, encode_text]

theorem Program.writeTo_append (program : Program) (front buffer : String) :
    program.writeTo (front ++ buffer) = (program.writeTo buffer).behind front := by
  obtain ⟨statements⟩ := program
  have hfold (written : Written) :
      statements.foldl (fun written s => written.andThen s.writeTo) (written.behind front) =
        (statements.foldl (fun written s => written.andThen s.writeTo) written).behind front := by
    induction statements generalizing written with
    | nil => rfl
    | cons s statements ih =>
      rw [List.foldl_cons, List.foldl_cons,
        Written.behind_andThen front written s.writeTo (s.writeTo_append front), ih]
  exact hfold (.full buffer)

theorem Program.shown_append {first second : List Statement} (hf : ∀ s ∈ first, s.Complete)
    (hs : ∀ s ∈ second, s.Complete) :
    (Program.mk (first ++ second)).shown =
      (Program.mk first).shown ++ (Program.mk second).shown := by
  obtain ⟨front, hfront⟩ := @Program.exists_writeTo ⟨first⟩ hf ""
  obtain ⟨back, hback⟩ := @Program.exists_writeTo ⟨second⟩ hs ""
  have hboth : (Program.mk (first ++ second)).writeTo "" = .full (front ++ back) := by
    have hsplit : (Program.mk (first ++ second)).writeTo "" =
        (Program.mk second).writeTo (front ++ "") := by
      simp only [writeTo, List.foldl_append] at hfront ⊢
      rw [hfront, String.append_empty]
    rw [hsplit, writeTo_append, hback]
    rfl
  simp only [shown, render, hfront, hback, hboth, Written.text, Written.full]

theorem Program.shown_flatMap {programs : List Program}
    (h : ∀ program ∈ programs, ∀ s ∈ program.statements, s.Complete) :
    (Program.mk (programs.flatMap Program.statements)).shown =
      String.join (programs.map Program.shown) := by
  induction programs with
  | nil => rfl
  | cons program programs ih =>
    rw [List.forall_mem_cons] at h
    have hrest : ∀ s ∈ programs.flatMap Program.statements, s.Complete := by
      intro s hs
      obtain ⟨p, hp, hs⟩ := List.mem_flatMap.mp hs
      exact h.2 p hp s hs
    rw [List.flatMap_cons, shown_append h.1 hrest, ih h.2, List.map_cons, String.join_cons]

namespace Session

def said : Except (List Diagnostic) Program → List Chunk
  | .ok program => [.out (program.shown ++ "\n")]
  | .error diagnostics => diagnostics.map Diagnostic.chunk

def answer (source : String) : List Chunk := said (parse source)

variable {filter : Filter}

theorem ofEvents_eq_nil (h : ∀ event, filter.shows event = false) (events : List Event) :
    Chunk.ofEvents filter events = [] := by
  simp [Chunk.ofEvents, h]

theorem chunks_ofSource (h : ∀ event, filter.shows event = false) (source : String) :
    (Reading.ofSource source).chunks filter = answer source := by
  rw [Reading.chunks, ofEvents_eq_nil h, List.nil_append]
  rfl

theorem texts_encode (lines : List Line) :
    texts (lines.map fun line => encode line.text) = lines.map Line.text := by
  induction lines with
  | nil => rfl
  | cons line lines ih => simp only [List.map_cons, texts, decode?_encode, ih]

/-- At the prompt each line is answered as if it stood alone. -/
theorem converse_lines (h : ∀ event, filter.shows event = false) (lines : List Line) :
    converse filter (encode (sourceOf lines)) =
      ⟨lines.flatMap (fun line => prompt :: answer line.text) ++ [prompt], 0⟩ := by
  have htexts : ∀ line ∈ lines.map fun line => encode line.text, (decode? line).isSome = true := by
    simp [decode?_encode]
  rw [converse_eq, inputLines_encode, texts_encode, parting_of_texts htexts, ofEvents_eq_nil h]
  simp only [exchanges, chunks_ofSource h, List.flatMap_map, Ending.behind, List.append_nil]

theorem parseFile_encode (h : ∀ event, filter.shows event = false) (path source : String) :
    parseFile filter path (.ok (encode source)) =
      ⟨answer source, if (parse source).isOk then 0 else 1⟩ := by
  simp only [parseFile, fileText, decode?_encode, ofEvents_eq_nil h, chunks_ofSource h]
  rfl

end Session

theorem Line.faults_of_ok {line : Line} {program : Program} (h : parse line.text = .ok program) :
    line.faults = [] := by
  rw [faults, h]

theorem Line.faults_of_error {line : Line} {diagnostics : List Diagnostic}
    (h : parse line.text = .error diagnostics) : line.faults = diagnostics ∧ diagnostics ≠ [] := by
  refine ⟨by rw [faults, h], ?_⟩
  obtain ⟨lexemes, hlexed, hclosed⟩ := line.exists_lexed
  rw [parse_text hlexed hclosed] at h
  split at h
  · cases h
  · rename_i hne
    exact Except.error.inj h ▸ hne

def placedFaults (lines : List Line) : List Diagnostic :=
  (lines.zipIdx 1).flatMap fun (line, i) => line.faults.map (Diagnostic.onLine i)

theorem placedFaults_eq_nil_iff {lines : List Line} :
    placedFaults lines = [] ↔ ∀ line ∈ lines, line.faults = [] := by
  have hlines : (lines.zipIdx 1).map Prod.fst = lines := List.zipIdx_map_fst 1 lines
  rw [placedFaults, List.flatMap_eq_nil_iff]
  simp only [List.map_eq_nil_iff]
  conv_rhs => rw [← hlines, List.forall_mem_map]

theorem exists_programs {lines : List Line}
    (h : ∀ line ∈ lines, ∃ program, parse line.text = .ok program) :
    ∃ programs : List Program, lines.map (fun line => parse line.text) = programs.map .ok := by
  induction lines with
  | nil => exact ⟨[], rfl⟩
  | cons line lines ih =>
    rw [List.forall_mem_cons] at h
    obtain ⟨⟨program, hprogram⟩, hrest⟩ := h
    obtain ⟨programs, hprograms⟩ := ih hrest
    exact ⟨program :: programs, by rw [List.map_cons, hprogram, hprograms, List.map_cons]⟩

theorem complete_of_map_parse {lines : List Line} {programs : List Program}
    (h : lines.map (fun line => parse line.text) = programs.map .ok) :
    ∀ program ∈ programs, ∀ s ∈ program.statements, s.Complete := by
  intro program hm
  have hparse : .ok program ∈ lines.map fun line => parse line.text := h ▸ List.mem_map_of_mem hm
  obtain ⟨line, -, hline⟩ := List.mem_map.mp hparse
  obtain ⟨parser, rfl⟩ := exists_read_of_parse hline
  exact fun s hs => Parser.complete_of_mem hs

theorem parse_sourceOf_of_ok {lines : List Line} {programs : List Program}
    (h : lines.map (fun line => parse line.text) = programs.map .ok) :
    parse (sourceOf lines) = .ok ⟨programs.flatMap Program.statements⟩ := by
  obtain ⟨lexemes, hlexed, hclosed, hfaults, hstatements⟩ := exists_lexed_lines lines 0
  have hnil : (Lexeme.results lexemes).2 = [] := by
    refine hfaults.trans (placedFaults_eq_nil_iff.mpr fun line hm => ?_)
    have hline := List.mem_map_of_mem hm (f := fun line => parse line.text)
    rw [h] at hline
    obtain ⟨program, -, hprogram⟩ := List.mem_map.mp hline
    exact Line.faults_of_ok hprogram.symm
  rw [parse_of_lexed hlexed hclosed, hnil, hstatements programs h]

theorem parse_sourceOf_of_error {lines : List Line} {line : Line} (hm : line ∈ lines)
    {diagnostics : List Diagnostic} (h : parse line.text = .error diagnostics) :
    parse (sourceOf lines) = .error (placedFaults lines) := by
  obtain ⟨lexemes, hlexed, hclosed, hfaults, -⟩ := exists_lexed_lines lines 0
  obtain ⟨hline, hne⟩ := Line.faults_of_error h
  have hplaced : (Lexeme.results lexemes).2 = placedFaults lines := hfaults
  have hnot : placedFaults lines ≠ [] := fun hnil =>
    hne (hline ▸ placedFaults_eq_nil_iff.mp hnil line hm)
  rw [parse_of_lexed hlexed hclosed, hplaced]
  split
  · contradiction
  · rfl

namespace Session

theorem stdout_of_diagnostics (diagnostics : List Diagnostic) (status : Nat) :
    (Ending.mk (diagnostics.map Diagnostic.chunk) status).stdout = "" := by
  have hnone : (diagnostics.map Diagnostic.chunk).filterMap Chunk.out? = [] := by
    simp [Diagnostic.chunk, Chunk.out?]
  rw [Ending.stdout, hnone]
  rfl

/-- Lines that hold whole statements are read in a file as they are at the prompt. If all of them
are programs, the file is shown as what they are shown as, one after the other; otherwise it has
their diagnostics, each in its own line. -/
theorem parseFile_agrees_converse {filter : Filter} (h : ∀ event, filter.shows event = false)
    (path : String) (lines : List Line) :
    let bytes := encode (sourceOf lines)
    let filed := parseFile filter path (.ok bytes)
    converse filter bytes =
      ⟨lines.flatMap (fun line => prompt :: answer line.text) ++ [prompt], 0⟩ ∧
    ((∀ line ∈ lines, ∃ program, parse line.text = .ok program) →
      ∃ texts : List String,
        (lines.map fun line => answer line.text) = texts.map (fun text => [.out (text ++ "\n")]) ∧
        filed = ⟨[.out (String.join texts ++ "\n")], 0⟩) ∧
    ((¬ ∀ line ∈ lines, ∃ program, parse line.text = .ok program) →
      filed = ⟨(placedFaults lines).map Diagnostic.chunk, 1⟩ ∧ filed.stdout = "") ∧
    ∀ line ∈ lines,
      (answer line.text).filterMap Chunk.err? =
        (line.faults.map Diagnostic.chunk).filterMap Chunk.err? ∧
      ∀ diagnostic ∈ line.faults, diagnostic.location.line = 1 := by
  refine ⟨converse_lines h lines, fun hall => ?_, fun hnot => ?_, fun line hm => ⟨?_, ?_⟩⟩
  · obtain ⟨programs, hp⟩ := exists_programs hall
    refine ⟨programs.map Program.shown, ?_, ?_⟩
    · have hanswer := congrArg (List.map said) hp
      rw [List.map_map, List.map_map] at hanswer
      rw [List.map_map]
      exact hanswer
    · rw [parseFile_encode h, answer, parse_sourceOf_of_ok hp]
      simp only [said, Program.shown_flatMap (complete_of_map_parse hp)]
      rfl
  · obtain ⟨line, hm, diagnostics, hd⟩ :
        ∃ line ∈ lines, ∃ diagnostics, parse line.text = .error diagnostics := by
      simp only [not_forall] at hnot
      obtain ⟨line, hm, hnone⟩ := hnot
      cases hp : parse line.text with
      | error diagnostics => exact ⟨line, hm, diagnostics, hp⟩
      | ok program => exact absurd ⟨program, hp⟩ hnone
    rw [parseFile_encode h, answer, parse_sourceOf_of_error hm hd]
    exact ⟨rfl, stdout_of_diagnostics _ _⟩
  · rw [answer, Line.faults]
    cases parse line.text <;> rfl
  · exact line.line_of_faults

theorem parseFile_agrees_converse_third_line :
    let first : Line := ⟨['a', ';'], by decide, rfl, fun c hc => (Option.some.inj hc).symm⟩
    let second : Line := ⟨[' '], by decide, rfl, fun c hc => by cases hc⟩
    let third : Line :=
      ⟨['l', 'e', 't', ';'], by decide, rfl, fun c hc => (Option.some.inj hc).symm⟩
    let filter : Filter := .atLeast .warn
    (∀ event, filter.shows event = false) ∧
      parse third.text = .error [⟨⟨1, 4⟩, .expected .identifier "';'"⟩] ∧
      parseFile filter "lines" (.ok (encode (sourceOf [first, second, third]))) =
        ⟨[.err "error: 3:4: expected identifier, found ';'\n"], 1⟩ := by
  intro first second third filter
  have hquiet : ∀ event, filter.shows event = false := by
    intro event
    cases event <;> rfl
  have hthird : parse third.text = .error [⟨⟨1, 4⟩, .expected .identifier "';'"⟩] := by
    decide +kernel
  obtain ⟨-, -, hfiled, -⟩ :=
    parseFile_agrees_converse hquiet "lines" [first, second, third]
  have hnot : ¬ ∀ line ∈ [first, second, third], ∃ program, parse line.text = .ok program := by
    intro hall
    obtain ⟨program, hprogram⟩ := hall third (by simp)
    rw [hthird] at hprogram
    cases hprogram
  exact ⟨hquiet, hthird, (hfiled hnot).1.trans (by decide +kernel)⟩

end Session

end MonkeyFrontend
