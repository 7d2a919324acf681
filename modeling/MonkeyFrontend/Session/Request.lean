namespace MonkeyFrontend

inductive Request where
  | help
  | version
  | run (verbosity : Nat) (path : Option String)
  | misuse (argument : String)
deriving DecidableEq, Repr

namespace Request

/-- Reads the letters of a cluster of short options, adding to a verbosity. A letter that settles
the request ends the reading. -/
def letters (argument : String) (verbosity : Nat) : List Char → Except Request Nat
  | [] => .ok verbosity
  | 'v' :: rest => letters argument (verbosity + 1) rest
  | 'h' :: _ => .error .help
  | 'V' :: _ => .error .version
  | _ => .error (.misuse argument)

def takePath (path : Option String) (argument : String) : Except Request String :=
  if path.isSome ∨ argument = "" then .error (.misuse argument) else .ok argument

def paths (verbosity : Nat) (path : Option String) : List String → Request
  | [] => .run verbosity path
  | argument :: rest =>
    match takePath path argument with
    | .ok path => paths verbosity (some path) rest
    | .error request => request

def ofArgumentsFrom (verbosity : Nat) (path : Option String) : List String → Request
  | [] => .run verbosity path
  | argument :: rest =>
    if argument = "--" then paths verbosity path rest
    else if argument = "--verbose" then ofArgumentsFrom (verbosity + 1) path rest
    else if argument = "--help" then .help
    else if argument = "--version" then .version
    else
      match argument.toList with
      | '-' :: '-' :: _ => .misuse argument
      | '-' :: letter :: more =>
        match letters argument verbosity (letter :: more) with
        | .ok verbosity => ofArgumentsFrom verbosity path rest
        | .error request => request
      | _ =>
        match takePath path argument with
        | .ok path => ofArgumentsFrom verbosity (some path) rest
        | .error request => request

def ofArguments (arguments : List String) : Request :=
  ofArgumentsFrom 0 none arguments

end Request

end MonkeyFrontend
