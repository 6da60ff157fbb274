import ClassScript.Text.Letter

/-!
# Template text

The text of a string token, cut into literal text and code. A backslash makes the next character
literal, braces enclose code (with or without a dollar sign before them), and a dollar sign before a
letter or an underscore makes code of the name behind it.
-/

namespace ClassScript.Template

/-- A piece of template text; code is not parsed yet. -/
inductive Segment where
  | text (value : String)
  | code (value : String)
deriving Repr, DecidableEq

/-- The code up to the brace that closes it, and what follows. `depth` counts the braces that are
open. Code that is never closed runs up to the end. -/
def embedded : (depth : Nat) → List Char → List Char × List Char
  | _, [] => ([], [])
  | depth, c :: rest =>
    if c = '}' ∧ depth = 0 then ([], rest)
    else
      let inner := if c = '{' then depth + 1 else if c = '}' then depth - 1 else depth
      let (code, after) := embedded inner rest
      (c :: code, after)

/-- Literal text in front of other segments; no text makes no segment. -/
def flush (literal : List Char) (segments : List Segment) : List Segment :=
  if literal.isEmpty then segments else .text (String.ofList literal) :: segments

/-- The segments of a template, after the `literal` text that was read before. Each step takes a
character or more, so that a `bound` of their number is enough. -/
def segmentsFrom : (bound : Nat) → (literal : List Char) → List Char → List Segment
  | _, literal, [] => flush literal []
  | 0, literal, _ => flush literal []
  | bound + 1, literal, c :: rest =>
    if c = '\\' then
      match rest with
      | [] => flush literal []
      | e :: rest => segmentsFrom bound (literal ++ [e]) rest
    else if c = '$' ∧ rest.head? = some '{' then segmentsFrom bound literal rest
    else if c = '$' ∧ rest.head?.any Text.isWordStart then
      let name := rest.takeWhile Text.isWordPart
      flush literal
        (.code (String.ofList name) :: segmentsFrom bound [] (rest.dropWhile Text.isWordPart))
    else if c = '{' then
      let (code, after) := embedded 0 rest
      flush literal (.code (String.ofList code) :: segmentsFrom bound [] after)
    else segmentsFrom bound (literal ++ [c]) rest

/-- The segments of a template text. No two texts are neighbours, and none is empty. -/
def segments (text : String) : List Segment :=
  segmentsFrom text.toList.length [] text.toList

def Segment.isCode : Segment → Bool
  | .code _ => true
  | .text _ => false

def Segment.value : Segment → String
  | .code value => value
  | .text value => value

end ClassScript.Template
