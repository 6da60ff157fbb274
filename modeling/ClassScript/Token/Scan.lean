import ClassScript.Diagnostic
import ClassScript.Text.Blank

/-!
# Cutting a text into tokens

The scanner is in one of two modes. After a value it expects an operator, anywhere else a value; the
mode decides whether a slash divides or opens a regex, whether a point can begin a number, and
whether a sign with letters behind it is one operator.

Each scanner takes the characters that are left and gives what it found with the characters after
it. The text of a string becomes a template: escapes are resolved, a literal backslash, dollar sign
or brace gets a backslash before it, and embedded code stays as it is between its braces.
-/

namespace ClassScript.Scan

inductive Mode where
  | value | operator
deriving Repr, DecidableEq, Inhabited

/-- A kind with a text, before it has a place. -/
structure Lexeme where
  kind : Kind
  value : String
deriving Repr, DecidableEq

/-- Something found with the characters after it, or a fault with the characters after it. -/
abbrev Found (α : Type) := Except (LexCause × List Char) (α × List Char)

def Found.prepend (cs : List Char) : Found (List Char) → Found (List Char)
  | .ok (text, rest) => .ok (cs ++ text, rest)
  | .error fault => .error fault

def Found.lexeme (kind : Kind) : Found (List Char) → Found Lexeme
  | .ok (text, rest) => .ok (⟨kind, String.ofList text⟩, rest)
  | .error fault => .error fault

def isNameStart (c : Char) : Bool :=
  c.isAlpha || c == '_' || c == '$'

def isNamePart (c : Char) : Bool :=
  c.isAlphanum || c == '_' || c == '$'

def Mode.after : Kind → Mode
  | .identifier | .number | .string _ | .regex | .keyword _ => .operator
  | .symbol sign => if sign.closes then .operator else .value
  | .finish => .value

/-! ## Comments -/

def lineComment (cs : List Char) : List Char :=
  cs.dropWhile (· ≠ '\n')

/-- The characters after the mark that closes a block comment. -/
def blockComment : List Char → Option (List Char)
  | [] => none
  | '*' :: '/' :: rest => some rest
  | _ :: rest => blockComment rest

/-! ## Numbers -/

/-- The text of a decimal number. Underscores are left out. A point counts only before a digit;
`begun` tells whether anything precedes it, and a number that begins with its point gets a zero. -/
def decimal (seenPoint begun : Bool) : List Char → Found (List Char)
  | [] => .ok ([], [])
  | c :: rest =>
    if c = '_' then decimal seenPoint begun rest
    else if c.isDigit then Found.prepend [c] (decimal seenPoint true rest)
    else if c = '.' ∧ rest.head?.any Char.isDigit then
      if seenPoint then .error (.secondPoint, rest)
      else Found.prepend (if begun then ['.'] else ['0', '.']) (decimal true true rest)
    else if c = 'f' ∨ c = 'c' then .ok ([c], rest)
    else .ok ([], c :: rest)

def baseOf? : Char → Option Nat
  | 'b' | 'B' => some 2
  | 'o' | 'O' => some 8
  | 'x' | 'X' => some 16
  | _ => none

def digitValue? (c : Char) : Option Nat :=
  if '0' ≤ c ∧ c ≤ '9' then some (c.toNat - '0'.toNat)
  else if 'a' ≤ c ∧ c ≤ 'f' then some (c.toNat - 'a'.toNat + 10)
  else if 'A' ≤ c ∧ c ≤ 'F' then some (c.toNat - 'A'.toNat + 10)
  else none

def isDigitOf (base : Nat) (c : Char) : Bool :=
  (digitValue? c).any (· < base)

def baseDigits (base : Nat) : List Char → Found (List Char)
  | [] => .ok ([], [])
  | c :: rest =>
    if c = '_' then baseDigits base rest
    else if isDigitOf base c then Found.prepend [c] (baseDigits base rest)
    else if c.isAlphanum then .error (.invalidDigit c base, rest)
    else .ok ([], c :: rest)

def positional (base : Nat) (digits : List Char) : Nat :=
  digits.foldl (fun n c => base * n + (digitValue? c).getD 0) 0

/-- The number after a base mark; it has to fit into 64 bits, and its text is decimal. -/
def baseNumber (base : Nat) (cs : List Char) : Found Lexeme :=
  match baseDigits base cs with
  | .error fault => .error fault
  | .ok (digits, rest) =>
    if digits.isEmpty then .error (.noDigits base, rest)
    else if UInt64.size ≤ positional base digits then .error (.tooLarge base, rest)
    else .ok (⟨.number, String.ofList (Nat.toDigits 10 (positional base digits))⟩, rest)

def number (cs : List Char) : Found Lexeme :=
  match cs with
  | '0' :: mark :: rest =>
    match baseOf? mark with
    | some base => baseNumber base rest
    | none => (decimal false false cs).lexeme .number
  | _ => (decimal false false cs).lexeme .number

/-! ## Names -/

def name (cs : List Char) : Lexeme × List Char :=
  let text := String.ofList (cs.takeWhile isNamePart)
  let kind := match Keyword.ofText? text with
    | some word => .keyword word
    | none => .identifier
  (⟨kind, text⟩, cs.dropWhile isNamePart)

/-! ## Strings and regexes -/

def escape : Char → List Char
  | 'n' => ['\n']
  | 'r' => ['\r']
  | 't' => ['\t']
  | 'b' => ['\x08']
  | '0' => ['\x00']
  | c => if c = '\\' ∨ c = '$' ∨ c = '{' ∨ c = '}' then ['\\', c] else [c]

/-- The template of a string after its opening mark. `depth` counts the open braces of embedded
code, which is copied as it is. In the text around it a backslash escapes, except between backticks,
and a doubled brace is a literal one, except between single quotes. -/
def template (quote : Quote) : (depth : Nat) → List Char → Found (List Char)
  | _ + 1, [] => .error (.unbalancedOpen, [])
  | depth + 1, c :: rest =>
    let inner := if c = '{' then depth + 2 else if c = '}' then depth else depth + 1
    Found.prepend [c] (template quote inner rest)
  | 0, [] => .error (.unterminatedString, [])
  | 0, '\\' :: [] => .error (.unterminatedString, [])
  | 0, '\\' :: e :: rest =>
    if quote = .backtick then Found.prepend ['\\', '\\'] (template quote 0 (e :: rest))
    else Found.prepend (escape e) (template quote 0 rest)
  | 0, '{' :: '{' :: rest =>
    if quote = .single then Found.prepend ['{', '{'] (template quote 2 rest)
    else Found.prepend ['\\', '{'] (template quote 0 rest)
  | 0, '{' :: rest => Found.prepend ['{'] (template quote 1 rest)
  | 0, '}' :: '}' :: rest =>
    if quote = .single then .error (.unbalancedClose, '}' :: rest)
    else Found.prepend ['\\', '}'] (template quote 0 rest)
  | 0, '}' :: rest => .error (.unbalancedClose, rest)
  | 0, c :: rest =>
    if c = quote.char then .ok ([], rest) else Found.prepend [c] (template quote 0 rest)

/-- The text of a regex after its opening slash, through the closing one. -/
def regexBody : List Char → Found (List Char)
  | [] => .error (.unterminatedRegex, [])
  | '\\' :: [] => .error (.unterminatedRegex, [])
  | '\\' :: c :: rest => Found.prepend ['\\', c] (regexBody rest)
  | c :: rest =>
    if c = '\n' then .error (.unterminatedRegex, rest)
    else if c = '/' then .ok (['/'], rest)
    else Found.prepend [c] (regexBody rest)

/-- A regex after its opening slash; the letters behind it are its flags. -/
def regex (cs : List Char) : Found Lexeme :=
  match regexBody cs with
  | .error fault => .error fault
  | .ok (body, rest) =>
    let flags := rest.takeWhile Char.isAlpha
    .ok (⟨.regex, String.ofList ('/' :: body ++ flags)⟩, rest.dropWhile Char.isAlpha)

/-! ## Signs -/

/-- The symbol that the first `length` characters spell. A symbol with letters counts only where an
operator is expected and no name goes on behind it. -/
def symbolOf? (mode : Mode) (cs : List Char) (length : Nat) : Option (Lexeme × List Char) :=
  let text := String.ofList (cs.take length)
  let rest := cs.drop length
  match Symbol.ofText? text with
  | some sign =>
    if sign.isWordy && (mode == .value || rest.head?.any isNamePart) then none
    else some (⟨.symbol sign, text⟩, rest)
  | none => none

def symbol? (mode : Mode) (cs : List Char) : Option (Lexeme × List Char) :=
  (List.range Symbol.longest).reverse.findSome? fun n => symbolOf? mode cs (n + 1)

/-! ## The whole text -/

/-- The first thing in a text: a token, or something between tokens (`none`). -/
def next (mode : Mode) (c : Char) (rest : List Char) : Found (Option Lexeme) :=
  let token (found : Found Lexeme) : Found (Option Lexeme) :=
    found.map fun (lexeme, rest) => (some lexeme, rest)
  if Text.isBlank c then .ok (none, rest)
  else if c = '#' then .ok (none, lineComment rest)
  else if c.isDigit ∨ (c = '.' ∧ mode = .value ∧ rest.head?.any Char.isDigit) then
    token (number (c :: rest))
  else if isNameStart c then
    token (.ok (name (c :: rest)))
  else if c = '/' ∧ mode = .value then token (regex rest)
  else if c = '/' ∧ rest.head? = some '*' then
    match blockComment rest.tail with
    | some rest => .ok (none, rest)
    | none => .error (.unterminatedComment, [])
  else match Quote.ofChar? c with
    | some quote => token ((template quote 0 rest).lexeme (.string quote))
    | none =>
      match symbol? mode (c :: rest) with
      | some found => token (.ok found)
      | none => .error (.unexpectedChar c, rest)

def placeAt (place : Place) (cs rest : List Char) : Place :=
  place.advance (cs.take (cs.length - rest.length))

def tokenAt (source : Source) (start stop : Place) (lexeme : Lexeme) : Token :=
  ⟨lexeme.kind, lexeme.value, source.position start, ⟨start.offset, stop.offset⟩⟩

/-- All tokens of the characters that are left, and the token for the end behind them. Every step
takes a character or more, so that a `bound` of their number is enough. -/
def tokensFrom (source : Source) :
    (bound : Nat) → Mode → Place → List Char → Except Diagnostic (List Token)
  | _, _, place, [] => .ok [tokenAt source place place ⟨.finish, ""⟩]
  | 0, _, place, _ => .ok [tokenAt source place place ⟨.finish, ""⟩]
  | bound + 1, mode, place, c :: cs =>
    match next mode c cs with
    | .error (cause, rest) =>
      let stop := placeAt place (c :: cs) rest
      .error (.lexical cause (source.position place) ⟨place.offset, stop.offset⟩)
    | .ok (none, rest) =>
      tokensFrom source bound mode (placeAt place (c :: cs) rest) rest
    | .ok (some lexeme, rest) =>
      let stop := placeAt place (c :: cs) rest
      (tokensFrom source bound (Mode.after lexeme.kind) stop rest).map
        (tokenAt source place stop lexeme :: ·)

end ClassScript.Scan

namespace ClassScript

def tokenize (text file : String) : Except Diagnostic (List Token) :=
  let cs := text.toList
  Scan.tokensFrom (Source.ofText file cs) cs.length .value {} cs

end ClassScript
