import MonkeyFrontend.Lexeme

namespace MonkeyFrontend

/-- A place among the lexemes. When they are used up, an end of input stands where the last of
them stood. -/
structure Cursor where
  rest : List Lexeme
  finish : Location
deriving DecidableEq, Repr

namespace Cursor

def ofLexemes (lexemes : List Lexeme) : Cursor :=
  ⟨lexemes, (lexemes.getLast?.map Lexeme.location).getD .nowhere⟩

def current (c : Cursor) : Lexeme :=
  c.rest.headD (.finish c.finish)

def advance (c : Cursor) : Cursor :=
  { c with rest := c.rest.tail }

def peek (c : Cursor) : Lexeme :=
  c.advance.current

def overSemicolon (c : Cursor) : Cursor :=
  if c.peek.kind = .semicolon then c.advance else c

def endsStatement (lexeme : Lexeme) : Bool :=
  lexeme.kind = .semicolon || lexeme.kind = .eof

/-- Moves to the next lexeme that ends a statement, which may be the current one. -/
def recover (c : Cursor) : Cursor :=
  { c with rest := c.rest.dropWhile fun lexeme => !endsStatement lexeme }

theorem rest_ne_nil_of_not_eof {c : Cursor} (h : c.current.isEof = false) : c.rest ≠ [] := by
  intro hn
  simp [current, hn, Lexeme.isEof] at h

structure Reaches (c d : Cursor) : Prop where
  rest : d.rest <:+ c.rest
  finish : d.finish = c.finish

namespace Reaches

theorem refl (c : Cursor) : c.Reaches c := ⟨List.suffix_refl _, rfl⟩

theorem trans {c d e : Cursor} (h : c.Reaches d) (h' : d.Reaches e) : c.Reaches e :=
  ⟨h'.rest.trans h.rest, h'.finish.trans h.finish⟩

theorem advance (c : Cursor) : c.Reaches c.advance := ⟨List.tail_suffix _, rfl⟩

theorem overSemicolon (c : Cursor) : c.Reaches c.overSemicolon := by
  unfold Cursor.overSemicolon
  split
  · exact advance c
  · exact refl c

theorem recover (c : Cursor) : c.Reaches c.recover := ⟨List.dropWhile_suffix _, rfl⟩

end Reaches

end Cursor

end MonkeyFrontend
