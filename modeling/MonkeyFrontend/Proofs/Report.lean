import Mathlib.Data.List.Basic
import MonkeyFrontend.Diagnostic
import MonkeyFrontend.Proofs.Lexeme.Spelling

namespace MonkeyFrontend

namespace Report

def number? (cs : List Char) : Option Nat × List Char :=
  (Numeral.magnitude? (cs.takeWhile Char.isDigit), cs.dropWhile Char.isDigit)

def read? (line : String) : Option Report :=
  match number? line.toList with
  | (some line, ':' :: rest) =>
    match number? rest with
    | (some column, ':' :: ' ' :: reason) => some ⟨line, column, String.ofList reason⟩
    | _ => none
  | _ => none

def lines (text : String) : List String :=
  (text.toList.splitOn '\n').map String.ofList

theorem isDigit_of_mem_toDigits {n : Nat} : ∀ c ∈ Nat.toDigits 10 n, c.isDigit = true :=
  fun _ hc => Nat.isDigit_of_mem_toDigits (by decide) (by decide) hc

theorem number?_toDigits (n : Nat) {rest : List Char}
    (h : ∀ c ∈ rest.head?, c.isDigit = false) :
    number? (Nat.toDigits 10 n ++ rest) = (some n, rest) := by
  rw [number?, takeWhile_run isDigit_of_mem_toDigits h, dropWhile_run isDigit_of_mem_toDigits h,
    Numeral.magnitude?_toDigits]

theorem toList_render (report : Report) :
    report.render.toList = Nat.toDigits 10 report.line ++
      ':' :: (Nat.toDigits 10 report.column ++ ':' :: ' ' :: report.reason.toList) := by
  simp [render]

theorem read?_render (report : Report) : read? report.render = some report := by
  have hcolon (rest : List Char) : ∀ c ∈ (':' :: rest).head?, c.isDigit = false := by
    intro c hc
    obtain rfl : ':' = c := Option.some.inj hc
    rfl
  simp only [read?, toList_render, number?_toDigits _ (hcolon _), String.ofList_toList]

theorem newline_not_mem_render {report : Report} (h : '\n' ∉ report.reason.toList) :
    '\n' ∉ report.render.toList := by
  have hdigits (n : Nat) : '\n' ∉ Nat.toDigits 10 n := fun hm => by
    cases isDigit_of_mem_toDigits '\n' hm
  simp [toList_render, hdigits, h]

/-- The lines of several reports are the reports one by one. -/
theorem lines_renderAll {reports : List Report} (hne : reports ≠ [])
    (h : ∀ report ∈ reports, '\n' ∉ report.reason.toList) :
    lines (renderAll reports) = reports.map render := by
  have hjoined : (renderAll reports).toList =
      ['\n'].intercalate (reports.map fun report => report.render.toList) := by
    simp [renderAll, Function.comp_def]
  rw [lines, hjoined, List.splitOn_intercalate]
  · simp
  · intro line hl
    obtain ⟨report, hr, rfl⟩ := List.mem_map.mp hl
    exact newline_not_mem_render (h report hr)
  · simpa using hne

end Report

theorem TokenKind.description_injective : Function.Injective description := by
  have hall : ∀ kind ∈ all, ∀ other ∈ all, kind.description = other.description → kind = other := by
    decide +kernel
  intro kind other h
  exact hall kind (mem_all kind) other (mem_all other) h

theorem TokenKind.comma_not_mem_description (kind : TokenKind) :
    ',' ∉ kind.description.toList := by
  cases kind <;> decide

namespace Reason

def opening : Reason → String
  | strayCharacter _ => "unexpected character: "
  | expected _ _ => "expected "
  | unexpectedToken _ => "unexpected token: "
  | unreadableInteger _ => "could not parse "
  | tooDeep => "expression nested too deeply"

def details : Reason → String
  | strayCharacter character => character.toString
  | expected kind found => kind.description ++ (", found " ++ found)
  | unexpectedToken found => found
  | unreadableInteger found => found ++ " as integer"
  | tooDeep => ""

theorem message_eq (reason : Reason) : reason.message = reason.opening ++ reason.details := by
  cases reason with
  | strayCharacter character => rfl
  | expected kind found =>
    change "expected " ++ kind.description ++ ", found " ++ found = _
    rw [String.append_assoc, String.append_assoc]
    rfl
  | unexpectedToken found => rfl
  | unreadableInteger found =>
    change "could not parse " ++ found ++ " as integer" = _
    rw [String.append_assoc]
    rfl
  | tooDeep =>
    change "expression nested too deeply" = "expression nested too deeply" ++ ""
    rw [String.append_empty]

def openings : List String :=
  ["unexpected character: ", "expected ", "unexpected token: ", "could not parse ",
    "expression nested too deeply"]

theorem opening_mem (reason : Reason) : reason.opening ∈ openings := by
  cases reason <;> simp [opening, openings]

theorem openings_apart :
    ∀ first ∈ openings, ∀ second ∈ openings, first.toList <+: second.toList → first = second := by
  decide +kernel

theorem opening_eq_of_message_eq {reason other : Reason} (h : reason.message = other.message) :
    reason.opening = other.opening := by
  have hfirst : reason.opening.toList <+: reason.message.toList := by
    rw [message_eq, String.toList_append]
    exact List.prefix_append _ _
  have hsecond : other.opening.toList <+: reason.message.toList := by
    rw [h, message_eq, String.toList_append]
    exact List.prefix_append _ _
  obtain hp | hp := List.prefix_or_prefix_of_prefix hfirst hsecond
  · exact openings_apart _ reason.opening_mem _ other.opening_mem hp
  · exact (openings_apart _ other.opening_mem _ reason.opening_mem hp).symm

/-- No kind is described with a comma, so the first one ends the description. -/
theorem expected_injective {kind kind' : TokenKind} {found found' : String}
    (h : kind.description ++ (", found " ++ found) = kind'.description ++ (", found " ++ found')) :
    kind = kind' ∧ found = found' := by
  have hends (found : String) : ∀ c ∈ (", found " ++ found).toList.head?, (c != ',') = false := by
    intro c hc
    have hcomma : ", found ".toList = ',' :: " found ".toList := by decide +kernel
    rw [String.toList_append, hcomma] at hc
    rw [← Option.some.inj hc]
    rfl
  have hall (kind : TokenKind) : ∀ c ∈ kind.description.toList, (c != ',') = true := by
    intro c hc
    rw [bne_iff_ne]
    rintro rfl
    exact kind.comma_not_mem_description hc
  have hkind := congrArg (fun text : String => text.toList.takeWhile (· != ',')) h
  simp only [String.toList_append] at hkind hends
  rw [takeWhile_run (hall kind) (hends found), takeWhile_run (hall kind') (hends found'),
    String.toList_inj] at hkind
  obtain rfl := TokenKind.description_injective hkind
  rw [String.append_right_inj, String.append_right_inj] at h
  exact ⟨rfl, h⟩

/-- The words for a reason tell which one it is, whatever was found. -/
theorem message_injective : Function.Injective message := by
  intro reason other h
  have hopening := opening_eq_of_message_eq h
  rw [message_eq, message_eq, hopening, String.append_right_inj] at h
  cases reason <;> cases other
  case strayCharacter.strayCharacter c d =>
    have hlists : [c] = [d] := by simpa [details] using congrArg String.toList h
    rw [(List.cons.inj hlists).1]
  case expected.expected kind found kind' found' =>
    obtain ⟨rfl, rfl⟩ := expected_injective h
    rfl
  case unexpectedToken.unexpectedToken found found' => rw [show found = found' from h]
  case unreadableInteger.unreadableInteger found found' =>
    rw [(String.append_left_inj " as integer").mp h]
  case tooDeep.tooDeep => rfl
  all_goals simp [opening] at hopening

end Reason

end MonkeyFrontend
