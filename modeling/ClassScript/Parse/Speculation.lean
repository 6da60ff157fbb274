import ClassScript.Parse.Expression

/-!
# Speculative reading

A cursor with places to come back to. A reader saves the place before it tries something, and either
goes back to it or gives it up.
-/

namespace ClassScript

/-- A cursor and the indexes saved on the way, the latest first. -/
structure Speculation where
  cursor : Cursor
  saved : List Nat := []

namespace Speculation

def ofTokens (tokens : List Token) : Speculation :=
  { cursor := .ofTokens tokens }

def save (s : Speculation) : Speculation :=
  { s with saved := s.cursor.index :: s.saved }

/-- Return to the place saved last; without one, stay. -/
def rollback (s : Speculation) : Speculation :=
  match s.saved with
  | index :: saved => { cursor := s.cursor.rewind index, saved }
  | [] => s

def commit (s : Speculation) : Speculation :=
  { s with saved := s.saved.tail }

/-- Read from the cursor on. After a fault the cursor stays where it was found. -/
def read {α : Type} (s : Speculation) (p : Parser α) : Except Diagnostic α × Speculation :=
  match p s.cursor with
  | .ok value cursor => (.ok value, { s with cursor })
  | .error fault cursor => (.error fault, { s with cursor })

def expression (s : Speculation) : Except Diagnostic Expr × Speculation :=
  s.read (Parser.expressionWith (Parser.stringRule (Parser.depthOf s.cursor.tokens)))

/-- Ask a question that may pass tokens. If the answer is no, go back to where it was asked. -/
def attempt (s : Speculation) (question : Parser Bool) : Except Diagnostic Bool × Speculation :=
  match s.save.read question with
  | (.ok true, s) => (.ok true, s.commit)
  | (.ok false, s) => (.ok false, s.rollback)
  | (.error fault, s) => (.error fault, s)

end Speculation

def Parser.attempt (question : Parser Bool) : Parser Bool := fun cursor =>
  match ({ cursor } : Speculation).attempt question with
  | (.ok answer, s) => .ok answer s.cursor
  | (.error fault, s) => .error fault s.cursor

end ClassScript
