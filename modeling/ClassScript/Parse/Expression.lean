import ClassScript.Number.Reading
import ClassScript.Parse.Cursor
import ClassScript.Syntax.Expr
import ClassScript.Syntax.Template
import ClassScript.Token.Scan

/-!
# The grammar of expressions

From the loosest to the tightest: assignment (to the right), then to the left `|`, `^`, `&`,
equality, order, sums, products and powers, then signs before an operand, then calls, indexes and
members behind one.

The rules below have the parser of a nested expression as a parameter, and the meaning of a string
token as another, because strings embed expressions. Both knots are tied at the end, where each
round takes a token, or a character of a string, so that a bound of their number is enough.
-/

namespace ClassScript.Parser

/-- The trees of string tokens. -/
abbrev StringRule := Token → Except Diagnostic Expr

/-- What an assignment sign does to the old value: nothing, or an operation. -/
def assignment? : Kind → Option (Option BinOp)
  | .symbol .eq => some none
  | .symbol .plusEq => some (some .add)
  | .symbol .minusEq => some (some .sub)
  | .symbol .starEq => some (some .mul)
  | .symbol .starStarEq => some (some .pow)
  | .symbol .slashEq => some (some .div)
  | .symbol .slashSlashEq => some (some .intDiv)
  | .symbol .percentEq => some (some .rem)
  | .symbol .ampEq => some (some .bitAnd)
  | .symbol .barEq => some (some .bitOr)
  | .symbol .caretEq => some (some .bitXor)
  | _ => none

def assigned (op : Option BinOp) (old value : Expr) : Expr :=
  match op with
  | some op => .binary op old value
  | none => value

/-- The levels of binary operators, from the loosest to the tightest. -/
def levels : List (List (Symbol × BinOp)) :=
  [[(.bar, .bitOr)], [(.caret, .bitXor)], [(.amp, .bitAnd)], [(.eqEq, .eq), (.notEq, .ne)],
   [(.lt, .lt), (.ltEq, .le), (.gt, .gt), (.gtEq, .ge)], [(.plus, .add), (.minus, .sub)],
   [(.star, .mul), (.slash, .div), (.slashSlash, .intDiv), (.percent, .rem)],
   [(.starStar, .pow)]]

def operatorOf? (level : List (Symbol × BinOp)) (kind : Kind) : Option BinOp :=
  (level.find? fun entry => kind = .symbol entry.1).map Prod.snd

def prefixOf? : Kind → Option UnOp
  | .symbol .tilde => some .bitNot
  | .symbol .bang => some .not
  | .symbol .plus => some .plus
  | .symbol .minus => some .neg
  | _ => none

/-! ## Leaves -/

/-- The tree of a number token. With `c` behind it, the number is the code of a character. -/
def numberLiteral (token : Token) : Except Diagnostic Expr :=
  let malformed := .error (.grammatical .malformedNumber token)
  let text := token.value.toList
  match text.getLast? with
  | some 'c' =>
    match Number.read? (String.ofList text.dropLast) with
    | some code =>
      let n := (Number.clamp 0 (UInt32.size - 1) code).toNat
      if n.isValidChar then .ok (.string (String.singleton (Char.ofNat n))) else malformed
    | none => malformed
  | last =>
    let digits := if last = some 'f' then text.dropLast else text
    match Number.read? (String.ofList digits) with
    | some value => .ok (.number value)
    | none => malformed

/-- An expression in parentheses, a list, or a single token. -/
def primary (string : StringRule) (nested : Parser Expr) (bound : Nat) : Parser Expr := do
  let token ← advance
  match token.kind with
  | .symbol .lParen =>
    let inner ← nested
    expectSign .rParen
    return inner
  | .symbol .lBracket => return .list (← elements bound)
  | .number => ofExcept (numberLiteral token)
  | .string _ => ofExcept (string token)
  | .keyword .trueKw => return .boolean true
  | .keyword .falseKw => return .boolean false
  | .keyword .nullKw => return .null
  | .keyword .thisKw => return .var "this"
  | .identifier => return .var token.value
  | _ => fail .unexpected token
where
  /-- The rest of a list after its opening bracket; a comma may stand before the closing one. -/
  elements : (bound : Nat) → Parser (List Expr)
    | 0 => unexpected
    | bound + 1 => do
      if ← acceptSign .rBracket then return []
      let first ← nested
      if ← acceptSign .comma then
        return first :: (← elements bound)
      else
        expectSign .rBracket
        return [first]

/-! ## Operands -/

def arguments (nested : Parser Expr) (bound : Nat) : Parser (List Expr) := do
  if ← acceptSign .rParen then return []
  let args ← commaSeparated nested bound
  expectSign .rParen
  return args

/-- Calls, indexes and members behind an operand. -/
def suffixes (nested : Parser Expr) : (bound : Nat) → Expr → Parser Expr
  | 0, operand => return operand
  | bound + 1, operand => do
    if ← acceptSign .lParen then
      let args ← arguments nested bound
      suffixes nested bound (.call operand args)
    else if ← acceptSign .lBracket then
      let position ← nested
      expectSign .rBracket
      suffixes nested bound (.index operand position)
    else if ← acceptSign .dot then
      let name ← expectName
      suffixes nested bound (.member operand name)
    else
      return operand

/-- An operand with signs before it. -/
def unary (string : StringRule) (nested : Parser Expr) : (bound : Nat) → Parser Expr
  | 0 => unexpected
  | bound + 1 => do
    match prefixOf? (← peek).kind with
    | some op =>
      let _ ← advance
      return .unary op (← unary string nested bound)
    | none =>
      let operand ← primary string nested bound
      suffixes nested bound operand

/-! ## Operations -/

/-- Further operands of a level, taken in to the left. -/
def chain (level : List (Symbol × BinOp)) (operand : Parser Expr) :
    (bound : Nat) → Expr → Parser Expr
  | 0, left => return left
  | bound + 1, left => do
    match operatorOf? level (← peek).kind with
    | some op =>
      let _ ← advance
      let right ← operand
      chain level operand bound (.binary op left right)
    | none => return left

def operation (operand : Parser Expr) (bound : Nat) :
    List (List (Symbol × BinOp)) → Parser Expr
  | [] => operand
  | level :: tighter => do
    let tight := operation operand bound tighter
    chain level tight bound (← tight)

/-- A name and an assignment sign behind it, if they come next. -/
def assignedName? (cursor : Cursor) : Option (String × Option BinOp) :=
  match cursor.rest with
  | name :: sign :: _ =>
    if name.kind = .identifier then (assignment? sign.kind).map (name.value, ·) else none
  | _ => none

/-- Any expression. The target of an assignment is a name, or else a member or an element, which is
known only after it was read as an operand. -/
def assignment (string : StringRule) (nested : Parser Expr) (bound : Nat) : Parser Expr := do
  match assignedName? (← get) with
  | some (name, op) =>
    let _ ← advance
    let _ ← advance
    let value ← nested
    return .assign name (assigned op (.var name) value)
  | none =>
    let target ← operation (unary string nested bound) bound levels
    match assignment? (← peek).kind with
    | none => return target
    | some op =>
      match target with
      | .member object name =>
        let _ ← advance
        let value ← nested
        return .memberSet object name (assigned op (.member object name) value)
      | .index list position =>
        let _ ← advance
        let value ← nested
        return .indexSet list position (assigned op (.index list position) value)
      | _ => unexpected

/-! ## The knots -/

def expressionAt (string : StringRule) : (bound : Nat) → Parser Expr
  | 0 => unexpected
  | bound + 1 => assignment string (expressionAt string bound) (bound + 1)

def expressionWith (string : StringRule) : Parser Expr := do
  expressionAt string (← get).rest.length

/-- The tokens as one expression and nothing else. -/
def wholeWith (string : StringRule) (tokens : List Token) : Except Diagnostic Expr :=
  let parser : Parser Expr := do
    let value ← expressionWith string
    let _ ← expect .finish
    return value
  match parser (.ofTokens tokens) with
  | .ok value _ => .ok value
  | .error fault _ => .error fault

/-- The part of a template that a segment is. A fault in the code is one of the whole string. -/
def templatePart (string : StringRule) (token : Token) :
    Template.Segment → Except Diagnostic TemplatePart
  | .text value => .ok (.text value)
  | .code code =>
    match tokenize code token.position.file >>= wholeWith string with
    | .ok value => .ok (.code value)
    | .error fault => .error (.grammatical (.interpolation code fault.message) token)

/-- The tree of a string token: a literal, or a template if it embeds code. Embedded code is shorter
than the string, so that a `depth` of the length of the text is enough. -/
def stringRule : (depth : Nat) → StringRule
  | 0, token => .error (.grammatical .unexpected token)
  | depth + 1, token =>
    let segments := Template.segments token.value
    if segments.any Template.Segment.isCode then
      .template <$> segments.mapM (templatePart (stringRule depth) token)
    else
      .ok (.string (String.join (segments.map Template.Segment.value)))

def depthOf (tokens : List Token) : Nat :=
  tokens.foldl (fun depth token => max depth token.value.length) 0 + 1

end ClassScript.Parser

namespace ClassScript

def parseExpression (tokens : List Token) : Except Diagnostic Expr :=
  Parser.wholeWith (Parser.stringRule (Parser.depthOf tokens)) tokens

end ClassScript
