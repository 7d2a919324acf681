import MonkeyFrontend.Proofs.Lexeme.Alphabet
import MonkeyFrontend.Proofs.Lexeme.Vocabulary
import MonkeyFrontend.Proofs.Parsing.SourceOrder
import MonkeyFrontend.Proofs.Parsing.Wholeness
import MonkeyFrontend.Proofs.Report

namespace MonkeyFrontend

theorem Spelling.newline_not_mem {kind : TokenKind} {text : List Char} (h : Spelling kind text) :
    '\n' ∉ text :=
  fun hm => h.not_isBlank _ hm (by decide)

theorem TokenKind.newline_not_mem_description (kind : TokenKind) :
    '\n' ∉ kind.description.toList := by
  cases kind <;> decide

namespace Token

theorem newline_not_mem_describe_of_eof {token : Token} (h : token.kind = .eof) :
    '\n' ∉ token.describe.toList := by
  rw [describe, if_pos h]
  exact token.kind.newline_not_mem_description

theorem Proper.newline_not_mem_describe {token : Token} (h : token.Proper) :
    '\n' ∉ token.describe.toList := by
  obtain ⟨text, ht, hs⟩ := h.exists_text
  have hrender : token.literal.render = text := by rw [ht]; rfl
  rw [describe]
  split
  · exact token.kind.newline_not_mem_description
  · simp [hrender, hs.newline_not_mem]

end Token

namespace Reason

theorem newline_not_mem_opening : ∀ opening ∈ openings, '\n' ∉ opening.toList := by
  decide +kernel

theorem newline_not_mem_message {reason : Reason} (h : '\n' ∉ reason.details.toList) :
    '\n' ∉ reason.message.toList := by
  rw [message_eq, String.toList_append, List.mem_append, not_or]
  exact ⟨newline_not_mem_opening _ reason.opening_mem, h⟩

end Reason

namespace Lexeme

def Plain (lexeme : Lexeme) : Prop := '\n' ∉ lexeme.token.describe.toList

theorem Plain.of_isEof {lexeme : Lexeme} (h : lexeme.isEof = true) : lexeme.Plain :=
  Token.newline_not_mem_describe_of_eof (of_decide_eq_true h)

theorem Plain.refused {lexeme : Lexeme} (h : lexeme.Plain) {diagnostic : Diagnostic}
    (hr : lexeme.Refused diagnostic) : '\n' ∉ diagnostic.reason.message.toList := by
  apply Reason.newline_not_mem_message
  cases hr with
  | expected kind =>
    have hfound : '\n' ∉ ", found ".toList := by decide +kernel
    simp only [Reason.details, String.toList_append, List.mem_append, not_or]
    exact ⟨kind.newline_not_mem_description, hfound, h⟩
  | unexpectedToken => exact h
  | tooDeep => simp [Reason.details]

theorem Plain.complaint {lexeme : Lexeme} (h : lexeme.Plain) :
    '\n' ∉ lexeme.complaint.reason.message.toList := by
  apply Reason.newline_not_mem_message
  have hrest : '\n' ∉ " as integer".toList := by decide +kernel
  change '\n' ∉ (lexeme.token.describe ++ " as integer").toList
  rw [String.toList_append, List.mem_append, not_or]
  exact ⟨h, hrest⟩

end Lexeme

namespace Cursor

variable {c : Cursor}

theorem plain_current (h : ∀ lexeme ∈ c.rest, lexeme.Plain) : c.current.Plain := by
  obtain ⟨rest, finish⟩ := c
  cases rest with
  | nil => exact .of_isEof rfl
  | cons lexeme rest => exact h lexeme List.mem_cons_self

/-- What a statement draws keeps to its lines if the lexemes do from which it is read. -/
theorem newline_not_mem_statement (h : ∀ lexeme ∈ c.rest, lexeme.Plain) :
    ∀ diagnostic ∈ c.statement.diagnostics, '\n' ∉ diagnostic.reason.message.toList := by
  obtain ⟨taken, fatal, ht, -⟩ := concludes_statement c
  rw [ht.ahead, List.forall_mem_append] at h
  obtain ⟨htaken, hbeyond⟩ := h
  rw [ht.diagnostics, List.forall_mem_append]
  constructor
  · intro diagnostic hd
    obtain ⟨lexeme, hl, rfl⟩ := List.mem_map.mp hd
    exact (htaken lexeme (List.mem_filter.mp hl).1).complaint
  · intro diagnostic hd
    exact (plain_current hbeyond).refused (ht.refused diagnostic (Option.mem_toList.mp hd))

theorem newline_not_mem_diagnostics (h : ∀ lexeme ∈ c.rest, lexeme.Plain) :
    ∀ diagnostic ∈ c.diagnostics, '\n' ∉ diagnostic.reason.message.toList := by
  intro diagnostic hd
  -- it was drawn by one statement, which was read from some of the same lexemes
  obtain ⟨segment, hs, hd⟩ := List.mem_flatMap.mp hd
  obtain ⟨d, hreaches, rfl⟩ := exists_of_mem_segments hs
  rw [segment_diagnostics] at hd
  exact newline_not_mem_statement (fun lexeme hl => h lexeme (hreaches.rest.subset hl)) _ hd

end Cursor

theorem plain_of_tokenize {source : String} {lexemes : List Lexeme}
    (h : tokenize source = .ok lexemes) : ∀ lexeme ∈ lexemes, lexeme.Plain := by
  intro lexeme hl
  cases he : lexeme.isEof with
  | true => exact .of_isEof he
  | false => exact (proper_of_tokenize h lexeme hl he).newline_not_mem_describe

theorem newline_not_mem_of_tokenize_error {source : String} {diagnostic : Diagnostic}
    (h : tokenize source = .error diagnostic) : '\n' ∉ diagnostic.reason.message.toList := by
  obtain hlegal | ⟨front, c, hc⟩ := legal_or_firstIllegal source.toList
  · obtain ⟨lexemes, hok⟩ := exists_tokenize_of_legal hlegal
    rw [hok] at h
    cases h
  · rw [hc.tokenize] at h
    cases h
    apply Reason.newline_not_mem_message
    -- a line feed is a blank, so it is stepped over and never complained of
    have hne : '\n' ≠ c := by
      rintro rfl
      cases hc.illegal
    simpa [Reason.details] using hne

theorem newline_not_mem_of_parse {source : String} {diagnostics : List Diagnostic}
    (h : parse source = .error diagnostics) :
    diagnostics ≠ [] ∧ ∀ diagnostic ∈ diagnostics, '\n' ∉ diagnostic.reason.message.toList := by
  cases ht : tokenize source with
  | error diagnostic =>
    rw [parse_of_stray ht] at h
    cases h
    simpa using newline_not_mem_of_tokenize_error ht
  | ok lexemes =>
    rw [parse_of_tokenize ht] at h
    split at h
    · cases h
    · rename_i hne
      cases h
      exact ⟨hne, Cursor.newline_not_mem_diagnostics (plain_of_tokenize ht)⟩

theorem Diagnostic.report_injective : Function.Injective report := by
  rintro ⟨⟨line, column⟩, reason⟩ ⟨⟨line', column'⟩, reason'⟩ h
  injection h with hline hcolumn hmessage
  obtain rfl : reason = reason' := Reason.message_injective hmessage
  obtain rfl : line = line' := hline
  obtain rfl : column = column' := hcolumn
  rfl

theorem Diagnostic.render_injective : Function.Injective render := by
  intro first second h
  have hread : Report.read? first.report.render = Report.read? second.report.render :=
    congrArg Report.read? h
  rw [Report.read?_render, Report.read?_render, Option.some.injEq] at hread
  exact report_injective hread

theorem lines_of_parse {source : String} {diagnostics : List Diagnostic}
    (h : parse source = .error diagnostics) :
    Report.lines (Report.renderAll (diagnostics.map Diagnostic.report)) =
      diagnostics.map Diagnostic.render := by
  obtain ⟨hne, hlines⟩ := newline_not_mem_of_parse h
  rw [Report.lines_renderAll (by simpa using hne), List.map_map]
  · rfl
  · intro report hr
    obtain ⟨diagnostic, hd, rfl⟩ := List.mem_map.mp hr
    exact hlines diagnostic hd

/-- What is told of a text that is no program has a line for each diagnostic. From its line, the
place of the diagnostic and its reason can be read back. So two such texts of which the same is told
have the same diagnostics. -/
theorem parse_errors_read_back {source : String} {diagnostics : List Diagnostic}
    (h : parse source = .error diagnostics) :
    let told := Report.renderAll (diagnostics.map Diagnostic.report)
    Report.lines told = diagnostics.map Diagnostic.render ∧
      (Report.lines told).map Report.read? = (diagnostics.map Diagnostic.report).map some ∧
      ∀ (other : String) (diagnostics' : List Diagnostic), parse other = .error diagnostics' →
        Report.renderAll (diagnostics'.map Diagnostic.report) = told →
          diagnostics' = diagnostics := by
  intro told
  have hlines := lines_of_parse h
  refine ⟨hlines, ?_, fun other diagnostics' h' htold => ?_⟩
  · rw [hlines, List.map_map, List.map_map]
    exact List.map_congr_left fun diagnostic _ => Report.read?_render diagnostic.report
  · apply Diagnostic.render_injective.list_map
    rw [← lines_of_parse h', htold, hlines]

theorem parse_errors_read_back_lines :
    let source := "9223372036854775808 + (a;\nlet "
    let diagnostics : List Diagnostic := [⟨⟨1, 1⟩, .unreadableInteger "'9223372036854775808'"⟩,
      ⟨⟨1, 25⟩, .expected .rparen "';'"⟩, ⟨⟨2, 5⟩, .expected .identifier "end of input"⟩]
    let told := Report.renderAll (diagnostics.map Diagnostic.report)
    parse source = .error diagnostics ∧
      Report.lines told = diagnostics.map Diagnostic.render ∧
      (Report.lines told).map Report.read? = (diagnostics.map Diagnostic.report).map some ∧
      ∀ (other : String) (diagnostics' : List Diagnostic), parse other = .error diagnostics' →
        Report.renderAll (diagnostics'.map Diagnostic.report) = told →
          diagnostics' = diagnostics := by
  intro source diagnostics told
  have h : parse source = .error diagnostics := by decide +kernel
  exact ⟨h, parse_errors_read_back h⟩

end MonkeyFrontend
