/-!
# Places in a source text

Offsets, lines and columns count characters; lines and columns start at one. A position also carries
the text of its line, so that a message about it can show the line with a mark below.
-/

namespace ClassScript

/-- The characters from `start` up to but not including `stop`. -/
structure Span where
  start : Nat
  stop : Nat
deriving Repr, DecidableEq, Inhabited

namespace Span

/-- The least span that covers both. -/
def merge (a b : Span) : Span :=
  ⟨min a.start b.start, max a.stop b.stop⟩

/-- A span that runs backwards is empty. -/
def length (s : Span) : Nat :=
  s.stop - s.start

def isEmpty (s : Span) : Bool :=
  s.length == 0

def text (s : Span) : String :=
  s!"{s.start}..{s.stop}"

end Span

/-- A place in a source text, and the text of the line that it is on. -/
structure Position where
  file : String
  line : Nat
  column : Nat
  offset : Nat
  lineText : String
deriving Repr, DecidableEq, Inhabited

namespace Position

def text (p : Position) : String :=
  s!"{p.file}:{p.line}:{p.column}"

/-- The line, and below it carets from the column on. Tabs before the column stay tabs, so that the
carets stand under what they mark. -/
def snippet (p : Position) (width : Nat) : String :=
  let indent := (p.lineText.toList.take (p.column - 1)).map fun c => if c = '\t' then c else ' '
  p.lineText ++ "\n" ++ String.ofList (indent ++ List.replicate (max 1 width) '^')

end Position

structure Place where
  line : Nat := 1
  column : Nat := 1
  offset : Nat := 0
deriving Repr, DecidableEq, Inhabited

namespace Place

def step (p : Place) (c : Char) : Place :=
  if c = '\n' then ⟨p.line + 1, 1, p.offset + 1⟩ else ⟨p.line, p.column + 1, p.offset + 1⟩

def advance (p : Place) (cs : List Char) : Place :=
  cs.foldl step p

end Place

/-- A named text, cut into lines. -/
structure Source where
  file : String
  lines : Array String

namespace Source

/-- The lines of a text, without their newlines. A text that ends with a newline has an empty last
line. -/
def splitLines : List Char → List (List Char)
  | [] => [[]]
  | c :: cs =>
    if c = '\n' then [] :: splitLines cs
    else match splitLines cs with
      | line :: lines => (c :: line) :: lines
      | [] => [[c]]

def chompReturn (line : List Char) : List Char :=
  if line.getLast? = some '\r' then line.dropLast else line

def ofText (file : String) (text : List Char) : Source :=
  ⟨file, ((splitLines text).map fun line => String.ofList (chompReturn line)).toArray⟩

def position (s : Source) (p : Place) : Position :=
  ⟨s.file, p.line, p.column, p.offset, s.lines.getD (p.line - 1) ""⟩

end Source

end ClassScript
