import ClassScript.Diagnostic

/-!
# Reading tokens in order

A cursor stands between the tokens that were passed and those that are left. The token for the end
of the input is never passed. Parsers change a cursor, also when they fail: the cursor stays where
the fault was found.
-/

namespace ClassScript

/-- A list of tokens with a place in it; the token passed last comes first in `passed`. -/
structure Cursor where
  passed : List Token
  rest : List Token
deriving Repr, DecidableEq, Inhabited

namespace Cursor

/-- The tokens with a token for the end behind them, unless they have one. It stands where the last
token starts and spans nothing at the end of it. -/
def closed (tokens : List Token) : List Token :=
  match tokens.getLast? with
  | some last =>
    if last.kind = .finish then tokens
    else tokens ++ [⟨.finish, "", last.position, ⟨last.span.stop, last.span.stop⟩⟩]
  | none => [⟨.finish, "", default, default⟩]

def ofTokens (tokens : List Token) : Cursor :=
  ⟨[], closed tokens⟩

def tokens (c : Cursor) : List Token :=
  c.passed.reverse ++ c.rest

def index (c : Cursor) : Nat :=
  c.passed.length

def peek (c : Cursor) : Token :=
  c.rest.headD ⟨.finish, "", default, default⟩

/-- Pass the next token, unless it is the last. -/
def next (c : Cursor) : Cursor :=
  match c.rest with
  | token :: rest => if token.kind = .finish then c else ⟨token :: c.passed, rest⟩
  | [] => c

def replace (c : Cursor) (token : Token) : Cursor :=
  { c with rest := token :: c.rest.tail }

def rewind (c : Cursor) (index : Nat) : Cursor :=
  let back := c.index - index
  ⟨c.passed.drop back, (c.passed.take back).reverse ++ c.rest⟩

end Cursor

abbrev Parser := EStateM Diagnostic Cursor

namespace Parser

def peek : Parser Token := return (← get).peek

def advance : Parser Token := do
  let cursor ← get
  set cursor.next
  return cursor.peek

def fail {α : Type} (cause : GrammarCause) (token : Token) : Parser α :=
  throw (.grammatical cause token)

def unexpected {α : Type} : Parser α := do
  fail .unexpected (← peek)

def check (kind : Kind) : Parser Bool :=
  return (← peek).kind = kind

/-- Pass the next token if it is of a kind, and tell whether it was. -/
def accept (kind : Kind) : Parser Bool := do
  if ← check kind then
    let _ ← advance
    return true
  else
    return false

def expect (kind : Kind) : Parser Token := do
  if ← check kind then advance else unexpected

def acceptSign (s : Symbol) : Parser Bool := accept (.symbol s)

def expectSign (s : Symbol) : Parser Unit := do
  let _ ← expect (.symbol s)

def expectWord (word : Keyword) : Parser Unit := do
  let _ ← expect (.keyword word)

def expectName : Parser String :=
  return (← expect .identifier).value

/-- A part that is there exactly if a sign announces it. -/
def optional {α : Type} (s : Symbol) (part : Parser α) : Parser (Option α) := do
  if ← acceptSign s then some <$> part else return none

/-- One or more parts with commas between them. Each takes a token or more, so that a `bound` of the
number of tokens is enough. -/
def commaSeparated {α : Type} (part : Parser α) : (bound : Nat) → Parser (List α)
  | 0 => unexpected
  | bound + 1 => do
    let first ← part
    if ← acceptSign .comma then
      return first :: (← commaSeparated part bound)
    else
      return [first]

end Parser

end ClassScript
