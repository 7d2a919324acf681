import MonkeyFrontend.Session.Run

namespace MonkeyFrontend.Main

def say (chunk : Chunk) : IO Unit := do
  match chunk with
  | .out text =>
    IO.print text
    (← IO.getStdout).flush
  | .err text => IO.eprint text

/-- Reads the bytes of a line, its line feed included; none are left at the end of input. -/
partial def readLine (input : IO.FS.Stream) (line : Array UInt8) : IO (List UInt8) := do
  let bytes ← input.read 1
  match bytes.data[0]? with
  | none => return line.toList
  | some byte =>
    if byte = lineFeed then return (line.push byte).toList
    else readLine input (line.push byte)

partial def converseInteractively (filter : Filter) (input : IO.FS.Stream) : IO UInt32 := do
  say Session.prompt
  let (chunks, status) := Session.reply filter (← readLine input #[])
  chunks.forM say
  match status with
  | some status => return status.toUInt32
  | none => converseInteractively filter input

/-- The bytes of a file. The number of a failure may come with either sign. -/
def readFile (path : String) : IO (Except ReadFailure (List UInt8)) := do
  match ← (IO.FS.readBinFile path).toBaseIO with
  | .ok bytes => return .ok bytes.toList
  | .error (.noFileOrDirectory _ _ _) => return .error .notFound
  | .error (.permissionDenied _ _ _) => return .error .permissionDenied
  | .error (.inappropriateType _ code reason) =>
    match min code (-code) with
    | 20 => return .error .notADirectory
    | 21 => return .error .isADirectory
    | _ => return .error (.other reason)
  | .error error => return .error (.other (toString error))

end MonkeyFrontend.Main

open MonkeyFrontend MonkeyFrontend.Main

def main (arguments : List String) : IO UInt32 := do
  let level ← IO.getEnv "RUST_LOG"
  match Request.ofArguments arguments with
  | .run verbosity none =>
    converseInteractively (Session.filterFor verbosity level) (← IO.getStdin)
  | request =>
    let bytes ← match request with
      | .run _ (some path) => readFile path
      | _ => pure (.error .notFound)
    let ending := Session.run arguments ⟨level, [], fun _ => bytes⟩
    ending.chunks.forM say
    return ending.status.toUInt32
