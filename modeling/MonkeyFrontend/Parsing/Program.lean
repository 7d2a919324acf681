import MonkeyFrontend.Lexeme.Scan
import MonkeyFrontend.Parsing.Segment

namespace MonkeyFrontend

structure Parser where
  cursor : Cursor
  log : List Event

namespace Parser

def ofLexemes (lexemes : List Lexeme) : Parser := ⟨.ofLexemes lexemes, []⟩

def ofSource (source : String) : Except Diagnostic Parser :=
  (tokenize source).map fun lexemes =>
    ⟨.ofLexemes lexemes, [.tokenized source.utf8ByteSize lexemes.length]⟩

def diagnostics (parser : Parser) : List Diagnostic :=
  Event.diagnostics parser.log

/-- Reads all that comes before the end of input. The program has the statements that are kept, and
the reader is left at the end of input. -/
def read (parser : Parser) : Program × Parser :=
  let segments := parser.cursor.segments
  (⟨segments.filterMap Segment.statement⟩,
    ⟨(segments.getLast?.map Segment.next).getD parser.cursor,
      parser.log ++ segments.flatMap Segment.events⟩)

theorem diagnostics_read (lexemes : List Lexeme) :
    (ofLexemes lexemes).read.2.diagnostics =
      (Cursor.ofLexemes lexemes).segments.flatMap Segment.diagnostics :=
  List.filterMap_flatMap

end Parser

structure Reading where
  result : Except (List Diagnostic) Program
  log : List Event

def Reading.ofSource (source : String) : Reading :=
  match Parser.ofSource source with
  | .error diagnostic => ⟨.error [diagnostic], []⟩
  | .ok parser =>
    let (program, after) := parser.read
    match after.diagnostics with
    | [] => ⟨.ok program, after.log⟩
    | diagnostics => ⟨.error diagnostics, after.log⟩

def parse (source : String) : Except (List Diagnostic) Program :=
  (Reading.ofSource source).result

end MonkeyFrontend
