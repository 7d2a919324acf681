import MonkeyFrontend.Event

namespace MonkeyFrontend

inductive Chunk where
  | out (text : String)
  | err (text : String)
deriving DecidableEq, Repr

namespace Chunk

def out? : Chunk → Option String
  | .out said => some said
  | .err _ => none

def err? : Chunk → Option String
  | .out _ => none
  | .err said => some said

def ofEvents (filter : Filter) (events : List Event) : List Chunk :=
  (events.filter filter.shows).map fun event => .err (event.render ++ "\n")

end Chunk

structure Ending where
  chunks : List Chunk
  status : Nat
deriving DecidableEq, Repr

namespace Ending

def behind (chunks : List Chunk) (ending : Ending) : Ending :=
  { ending with chunks := chunks ++ ending.chunks }

def stdout (ending : Ending) : String :=
  String.join (ending.chunks.filterMap Chunk.out?)

def stderr (ending : Ending) : String :=
  String.join (ending.chunks.filterMap Chunk.err?)

end Ending

end MonkeyFrontend
