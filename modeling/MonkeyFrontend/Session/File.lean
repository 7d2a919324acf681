import MonkeyFrontend.Session.Prompt

namespace MonkeyFrontend

inductive ReadFailure where
  | notFound
  | permissionDenied
  | notADirectory
  | isADirectory
  | notText
  | other (reason : String)
deriving DecidableEq, Repr

def ReadFailure.message : ReadFailure → String
  | notFound => "No such file or directory (os error 2)"
  | permissionDenied => "Permission denied (os error 13)"
  | notADirectory => "Not a directory (os error 20)"
  | isADirectory => "Is a directory (os error 21)"
  | notText => MonkeyFrontend.notText
  | other reason => reason

namespace Session

def fileText (bytes : Except ReadFailure (List UInt8)) : Except ReadFailure String :=
  match bytes with
  | .error failure => .error failure
  | .ok bytes =>
    match decode? bytes with
    | some source => .ok source
    | none => .error .notText

def parseFile (filter : Filter) (path : String) (bytes : Except ReadFailure (List UInt8)) :
    Ending :=
  match fileText bytes with
  | .error failure =>
    ⟨[.err ("Error: failed to read '" ++ path ++ "'\n\nCaused by:\n    " ++ failure.message ++
      "\n")], 1⟩
  | .ok source =>
    let reading := Reading.ofSource source
    ⟨Chunk.ofEvents filter [.parsingFile path source.utf8ByteSize] ++ reading.chunks filter,
      if reading.result.isOk then 0 else 1⟩

end Session

end MonkeyFrontend
