import MonkeyFrontend.Parsing.Program
import MonkeyFrontend.Session.Transcript
import MonkeyFrontend.Tree.Write

namespace MonkeyFrontend

def decode? (bytes : List UInt8) : Option String :=
  String.fromUTF8? bytes.toByteArray

def notText : String := "stream did not contain valid UTF-8"

def lineFeed : UInt8 := 10

/-- Puts a byte in front of lines. A line feed is the last byte of a line, so it starts one of its
own; any other byte joins the first line. -/
def joinLine (byte : UInt8) (lines : List (List UInt8)) : List (List UInt8) :=
  if byte = lineFeed then [byte] :: lines
  else
    match lines with
    | [] => [[byte]]
    | line :: rest => (byte :: line) :: rest

/-- The lines of an input, each with its line feed; the last may have none. -/
def inputLines (bytes : List UInt8) : List (List UInt8) :=
  bytes.foldr joinLine []

def Program.shown (program : Program) : String :=
  match program.render with
  | .ok text => text
  | .error gap => "error: " ++ gap.message

def Diagnostic.chunk (diagnostic : Diagnostic) : Chunk :=
  .err ("error: " ++ diagnostic.render ++ "\n")

/-- What is said about a source text: its log, then the text of its program or its diagnostics. -/
def Reading.chunks (filter : Filter) (reading : Reading) : List Chunk :=
  Chunk.ofEvents filter reading.log ++
    match reading.result with
    | .ok program => [.out (program.shown ++ "\n")]
    | .error diagnostics => diagnostics.map Diagnostic.chunk

namespace Session

/-- What is said to a line, and the status if the session exits on it. The line of no bytes is the
end of input. -/
def reply (filter : Filter) (line : List UInt8) : List Chunk × Option Nat :=
  if line = [] then (Chunk.ofEvents filter [.endOfInput], some 0)
  else
    match decode? line with
    | some source => ((Reading.ofSource source).chunks filter, none)
    | none => ([.err ("Error: " ++ notText ++ "\n")], some 1)

def prompt : Chunk := .out ">> "

def turn (filter : Filter) (line : List UInt8) (later : Ending) : Ending :=
  match reply filter line with
  | (chunks, some status) => ⟨prompt :: chunks, status⟩
  | (chunks, none) => later.behind (prompt :: chunks)

def converse (filter : Filter) (input : List UInt8) : Ending :=
  (inputLines input).foldr (turn filter) (turn filter [] ⟨[], 0⟩)

end Session

end MonkeyFrontend
