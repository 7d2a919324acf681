import MonkeyFrontend.Session.Prompt

namespace MonkeyFrontend

theorem exists_joinLine (byte : UInt8) (lines : List (List UInt8)) :
    ∃ line rest, joinLine byte lines = (byte :: line) :: rest ∧ rest ⊆ lines := by
  unfold joinLine
  split
  · exact ⟨[], lines, rfl, List.Subset.refl lines⟩
  · cases lines with
    | nil => exact ⟨[], [], rfl, List.Subset.refl []⟩
    | cons line rest => exact ⟨line, rest, rfl, List.subset_cons_self line rest⟩

theorem inputLines_ne_nil {bytes : List UInt8} (h : bytes ≠ []) : inputLines bytes ≠ [] := by
  cases bytes with
  | nil => contradiction
  | cons byte bytes =>
    obtain ⟨line, rest, hjoin, -⟩ := exists_joinLine byte (inputLines bytes)
    have hlines : inputLines (byte :: bytes) = (byte :: line) :: rest := hjoin
    rw [hlines]
    exact List.cons_ne_nil _ _

theorem ne_nil_of_mem_inputLines (bytes : List UInt8) : ∀ line ∈ inputLines bytes, line ≠ [] := by
  induction bytes with
  | nil => exact fun line hm => by cases hm
  | cons byte bytes ih =>
    obtain ⟨first, rest, hjoin, hrest⟩ := exists_joinLine byte (inputLines bytes)
    have hlines : inputLines (byte :: bytes) = (byte :: first) :: rest := hjoin
    rw [hlines, List.forall_mem_cons]
    exact ⟨List.cons_ne_nil _ _, fun line hm => ih line (hrest hm)⟩

theorem joinLine_append {byte : UInt8} {lines : List (List UInt8)}
    (h : byte = lineFeed ∨ lines ≠ []) (later : List (List UInt8)) :
    joinLine byte (lines ++ later) = joinLine byte lines ++ later := by
  by_cases hb : byte = lineFeed
  · simp [joinLine, hb]
  · cases lines with
    | nil => simp [hb] at h
    | cons line lines => simp [joinLine, hb]

/-- Whole lines stay as they are, whatever comes behind them. -/
theorem inputLines_append_of_ended {front : List UInt8}
    (h : front = [] ∨ front.getLast? = some lineFeed) (back : List UInt8) :
    inputLines (front ++ back) = inputLines front ++ inputLines back := by
  induction front with
  | nil => rfl
  | cons byte front ih =>
    have hlast : (byte :: front).getLast? = some lineFeed := h.resolve_left (List.cons_ne_nil _ _)
    have hparts : (front = [] ∨ front.getLast? = some lineFeed) ∧
        (byte = lineFeed ∨ inputLines front ≠ []) := by
      cases front with
      | nil => exact ⟨.inl rfl, .inl (Option.some.inj hlast)⟩
      | cons next front => exact ⟨.inr hlast, .inr (inputLines_ne_nil (List.cons_ne_nil _ _))⟩
    calc inputLines (byte :: front ++ back)
        = joinLine byte (inputLines (front ++ back)) := rfl
      _ = joinLine byte (inputLines front ++ inputLines back) := by rw [ih hparts.1]
      _ = joinLine byte (inputLines front) ++ inputLines back := joinLine_append hparts.2 _

namespace Ending

theorem stdout_behind (chunks : List Chunk) (ending : Ending) :
    (ending.behind chunks).stdout =
      String.join (chunks.filterMap Chunk.out?) ++ ending.stdout := by
  simp [stdout, behind]

theorem stderr_behind (chunks : List Chunk) (ending : Ending) :
    (ending.behind chunks).stderr =
      String.join (chunks.filterMap Chunk.err?) ++ ending.stderr := by
  simp [stderr, behind]

end Ending

namespace Session

variable {filter : Filter}

/-- The texts that are read as programs: those of the lines, up to a line that has none. -/
def texts : List (List UInt8) → List String
  | [] => []
  | line :: lines =>
    match decode? line with
    | some text => text :: texts lines
    | none => []

/-- How a session ends after all its texts: with the input, unless one of the lines has no text. -/
def parting (filter : Filter) (lines : List (List UInt8)) : Ending :=
  if ∀ line ∈ lines, (decode? line).isSome = true then
    ⟨Chunk.ofEvents filter [.endOfInput], 0⟩
  else ⟨[.err ("Error: " ++ notText ++ "\n")], 1⟩

def exchanges (filter : Filter) (texts : List String) : List Chunk :=
  texts.flatMap fun text => prompt :: (Reading.ofSource text).chunks filter

theorem turn_of_text {line : List UInt8} {text : String} (hne : line ≠ [])
    (ht : decode? line = some text) (later : Ending) :
    turn filter line later = later.behind (prompt :: (Reading.ofSource text).chunks filter) := by
  simp only [turn, reply, if_neg hne, ht]

theorem turn_of_none {line : List UInt8} (hne : line ≠ []) (ht : decode? line = none)
    (later : Ending) :
    turn filter line later = ⟨[prompt, .err ("Error: " ++ notText ++ "\n")], 1⟩ := by
  simp only [turn, reply, if_neg hne, ht]

/-- Turn by turn, a session prompts for its texts, and once more when it ends. -/
theorem foldr_turn {lines : List (List UInt8)} (h : ∀ line ∈ lines, line ≠ []) :
    lines.foldr (turn filter) (turn filter [] ⟨[], 0⟩) =
      (parting filter lines).behind (exchanges filter (texts lines) ++ [prompt]) := by
  induction lines with
  | nil => simp [turn, reply, parting, exchanges, texts, Ending.behind]
  | cons line lines ih =>
    rw [List.forall_mem_cons] at h
    rw [List.foldr_cons, ih h.2]
    cases ht : decode? line with
    | some text =>
      have hparting : parting filter (line :: lines) = parting filter lines := by
        simp [parting, ht]
      rw [turn_of_text h.1 ht, hparting]
      simp [texts, ht, exchanges, Ending.behind]
    | none =>
      have hparting : parting filter (line :: lines) =
          ⟨[.err ("Error: " ++ notText ++ "\n")], 1⟩ := by
        simp [parting, ht]
      rw [turn_of_none h.1 ht, hparting]
      simp [texts, ht, exchanges, Ending.behind]

theorem converse_eq (filter : Filter) (input : List UInt8) :
    converse filter input = (parting filter (inputLines input)).behind
      (exchanges filter (texts (inputLines input)) ++ [prompt]) :=
  foldr_turn (ne_nil_of_mem_inputLines input)

section Parts

variable {first : List (List UInt8)} (h : ∀ line ∈ first, (decode? line).isSome = true)
include h

theorem texts_append (second : List (List UInt8)) :
    texts (first ++ second) = texts first ++ texts second := by
  induction first with
  | nil => rfl
  | cons line first ih =>
    rw [List.forall_mem_cons] at h
    obtain ⟨text, ht⟩ := Option.isSome_iff_exists.mp h.1
    simp only [List.cons_append, texts, ht, ih h.2]

theorem parting_append (second : List (List UInt8)) :
    parting filter (first ++ second) = parting filter second := by
  have hall : (∀ line ∈ first ++ second, (decode? line).isSome = true) ↔
      ∀ line ∈ second, (decode? line).isSome = true := by
    rw [List.forall_mem_append]
    exact and_iff_right h
  simp only [parting, hall]

theorem parting_of_texts : parting filter first = ⟨Chunk.ofEvents filter [.endOfInput], 0⟩ :=
  if_pos h

end Parts

theorem out_not_mem_ofEvents (filter : Filter) (said : String) (events : List Event) :
    .out said ∉ Chunk.ofEvents filter events := by
  simp [Chunk.ofEvents]

theorem prompt_not_mem_chunks (filter : Filter) (reading : Reading) :
    prompt ∉ reading.chunks filter := by
  rw [Reading.chunks, List.mem_append, not_or]
  refine ⟨out_not_mem_ofEvents _ _ _, ?_⟩
  split
  · rename_i program _
    -- a program is shown on a line of its own, and a prompt does not end its line
    intro hm
    have htext : ">> " = program.shown ++ "\n" := Chunk.out.inj (List.mem_singleton.mp hm)
    have hlast := congrArg (fun text => text.toList.getLast?) htext
    simp at hlast
  · simp [Diagnostic.chunk, prompt]

theorem prompt_not_mem_parting (filter : Filter) (lines : List (List UInt8)) :
    prompt ∉ (parting filter lines).chunks := by
  rw [parting]
  split
  · exact out_not_mem_ofEvents _ _ _
  · simp [prompt]

theorem count_prompt_exchanges (filter : Filter) (texts : List String) :
    (exchanges filter texts).count prompt = texts.length := by
  induction texts with
  | nil => rfl
  | cons text texts ih =>
    have hone : (prompt :: (Reading.ofSource text).chunks filter).count prompt = 1 := by
      rw [List.count_cons_self, List.count_eq_zero.mpr (prompt_not_mem_chunks _ _)]
    rw [exchanges, List.flatMap_cons, List.count_append, hone, Nat.add_comm]
    exact congrArg Nat.succ ih

/-- A session prompts once for each text that it reads as a program, and once more. -/
theorem count_prompt_converse (filter : Filter) (input : List UInt8) :
    (converse filter input).chunks.count prompt = (texts (inputLines input)).length + 1 := by
  rw [converse_eq, Ending.behind, List.count_append, List.count_append, count_prompt_exchanges,
    List.count_eq_zero.mpr (prompt_not_mem_parting _ _)]
  rfl

/-- At the prompt, lines are answered as if nothing stood before or behind them. When whole lines
of text stand in front and the end of input is not logged, what is said to them alone, up to its
last prompt, and what is said to the others alone make up all that is said. Each text is prompted
for and answered, and one more prompt comes at the end of the input or for a line that has no
text. -/
theorem converse_append (hfilter : filter.shows .endOfInput = false) {front : List UInt8}
    (hfront : front = [] ∨ front.getLast? = some lineFeed)
    (htexts : ∀ line ∈ inputLines front, (decode? line).isSome = true) (back : List UInt8) :
    let whole := converse filter (front ++ back)
    let first := converse filter front
    let second := converse filter back
    (∃ said, first.stdout = said ++ ">> " ∧ whole.stdout = said ++ second.stdout) ∧
    whole.stderr = first.stderr ++ second.stderr ∧
    whole.status = second.status ∧
    ∀ input,
      converse filter input = (parting filter (inputLines input)).behind
        (exchanges filter (texts (inputLines input)) ++ [prompt]) ∧
      (converse filter input).chunks.count prompt = (texts (inputLines input)).length + 1 := by
  intro whole first second
  let said := exchanges filter (texts (inputLines front))
  have hfirst : first = (Ending.mk [prompt] 0).behind said := by
    have hend : Chunk.ofEvents filter [.endOfInput] = [] := by simp [Chunk.ofEvents, hfilter]
    simp only [first, said, converse_eq, parting_of_texts htexts, hend, Ending.behind,
      List.append_nil]
  have hwhole : whole = second.behind said := by
    simp only [whole, second, said, converse_eq, inputLines_append_of_ended hfront,
      texts_append htexts, parting_append htexts, exchanges, List.flatMap_append, Ending.behind,
      List.append_assoc]
  refine ⟨⟨String.join (said.filterMap Chunk.out?), ?_, ?_⟩, ?_, ?_, fun input => ⟨?_, ?_⟩⟩
  · rw [hfirst, Ending.stdout_behind]
    rfl
  · rw [hwhole, Ending.stdout_behind]
  · have hsilent : (Ending.mk [prompt] 0).stderr = "" := rfl
    rw [hwhole, hfirst, Ending.stderr_behind, Ending.stderr_behind, hsilent, String.append_empty]
  · rw [hwhole]
    rfl
  · exact converse_eq filter input
  · exact count_prompt_converse filter input

theorem converse_append_not_text :
    let filter : Filter := .atLeast .warn
    let front : List UInt8 := [97, 10, 108, 101, 116, 10]
    let back : List UInt8 := [98, 10, 255, 10, 99]
    let whole := converse filter (front ++ back)
    filter.shows .endOfInput = false ∧ front.getLast? = some lineFeed ∧
      (∀ line ∈ inputLines front, (decode? line).isSome = true) ∧
      whole.stdout = ">> a\n>> >> b\n>> " ∧
      whole.stderr = "error: 2:1: expected identifier, found end of input\n" ++
        "Error: stream did not contain valid UTF-8\n" ∧
      whole.status = 1 ∧ whole.chunks.count prompt = 4 := by
  intro filter front back whole
  have hfilter : filter.shows .endOfInput = false := rfl
  have hlast : front.getLast? = some lineFeed := rfl
  have htexts : ∀ line ∈ inputLines front, (decode? line).isSome = true := by decide +kernel
  have hfirst : (converse filter front).stderr =
      "error: 2:1: expected identifier, found end of input\n" := by decide +kernel
  have hsecond : (converse filter back).stderr =
      "Error: stream did not contain valid UTF-8\n" := by decide +kernel
  obtain ⟨-, hstderr, hstatus, hprompts⟩ := converse_append hfilter (.inr hlast) htexts back
  refine ⟨hfilter, hlast, htexts, by decide +kernel, ?_, ?_, ?_⟩
  · rw [hstderr, hfirst, hsecond]
  · exact hstatus.trans (by decide +kernel)
  · exact (hprompts _).2.trans (by decide +kernel)

end Session

end MonkeyFrontend
