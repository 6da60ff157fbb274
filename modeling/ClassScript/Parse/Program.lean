import ClassScript.Parse.Speculation
import ClassScript.Syntax.Stmt

/-!
# The grammar of statements and declarations

As with expressions, the rules have their knots as parameters: `expr` is the parser of expressions,
`nested` that of a statement inside another one. Each rule that loops takes a bound, which the
number of tokens that are left satisfies.
-/

namespace ClassScript.Parser

/-! ## Types -/

/-- The arguments of a type after the sign that opens them. -/
def generics (ty : Parser Ty) (bound : Nat) : Parser (List Ty) := do
  let types ← commaSeparated ty bound
  expectSign .gt
  return types

/-- A type: `?<Argument, …>Name`. The sign `<<` opens twice: it gives way to one `<`, which is left
for the first argument. -/
def typeAt : (bound : Nat) → Parser Ty
  | 0 => unexpected
  | bound + 1 => do
    let nullable ← acceptSign .question
    let token ← peek
    let generics ←
      if token.kind = .symbol .shl then do
        modify fun cursor => cursor.replace { token with kind := .symbol .lt, value := "<" }
        generics (typeAt bound) bound
      else if ← acceptSign .lt then generics (typeAt bound) bound
      else pure []
    let name ← expectName
    return { name, nullable, generics }

def type : Parser Ty := do
  typeAt (2 * (← get).rest.length)

/-! ## Functions -/

def parameter (expr : Parser Expr) : Parser Param := do
  let name ← expectName
  expectSign .colon
  let ty ← type
  let default ← optional .eq expr
  return { name, ty, default }

def parameters (expr : Parser Expr) : Parser (List Param) := do
  if ← acceptSign .rParen then return []
  let params ← commaSeparated (parameter expr) (← get).rest.length
  expectSign .rParen
  return params

def optionalParameters (expr : Parser Expr) : Parser (List Param) :=
  return (← optional .lParen (parameters expr)).getD []

/-- The body of a function: `= value`, `=> statement` or a block. -/
def functionBody (expr : Parser Expr) (nested : Parser Stmt) : Parser Stmt := do
  if ← acceptSign .eq then return .ret (some (← expr))
  else if ← acceptSign .fatArrow then nested
  else if ← check (.symbol .lBrace) then nested
  else unexpected

/-- A function; without a return type it has the one that its body shows. -/
def function (expr : Parser Expr) (nested : Parser Stmt) : Parser FunctionDecl := do
  expectWord .functionKw
  let name ← expectName
  let params ← optionalParameters expr
  let declared ← optional .colon type
  let body ← functionBody expr nested
  return { name, params, returnType := declared.or body.inferredTy?, body }

/-! ## Classes -/

def modifiers : (bound : Nat) → (access : Option Access) → (isStatic : Bool) →
    Parser (Access × Bool)
  | 0, access, isStatic => return (access.getD .ownClass, isStatic)
  | bound + 1, access, isStatic => do
    let token ← peek
    let level := match token.kind with
      | .keyword .publicKw => some Access.everywhere
      | .keyword .privateKw => some Access.ownClass
      | .keyword .protectedKw => some Access.subclasses
      | _ => none
    match level with
    | some level =>
      match access with
      | some earlier => fail (.duplicateAccess earlier) token
      | none =>
        let _ ← advance
        modifiers bound (some level) isStatic
    | none =>
      if token.kind = .keyword .staticKw then
        if isStatic then fail .duplicateStatic token
        else
          let _ ← advance
          modifiers bound access true
      else
        return (access.getD .ownClass, isStatic)

def field (expr : Parser Expr) : Parser MemberBody := do
  let readonly := (← advance).kind = .keyword .constKw
  let name ← expectName
  let ty ← optional .colon type
  let value ← optional .eq expr
  return .field name readonly ty value

/-- The accessors of a property after the opening brace, through the closing one. -/
def accessors (expr : Parser Expr) (nested : Parser Stmt) (property : String) :
    (bound : Nat) → (getter setter : Option FunctionDecl) →
    Parser (Option FunctionDecl × Option FunctionDecl)
  | 0, _, _ => unexpected
  | bound + 1, getter, setter => do
    if ← acceptSign .semicolon then accessors expr nested property bound getter setter
    else if ← acceptSign .rBrace then return (getter, setter)
    else
      let token ← peek
      let body : Parser FunctionDecl := do
        let _ ← advance
        let body ← functionBody expr nested
        return { name := token.value ++ " " ++ property, params := [], returnType := none, body }
      if token.isSoft "get" then
        if getter.isSome then fail (.duplicateAccessor .getter property) token
        else accessors expr nested property bound (some (← body)) setter
      else if token.isSoft "set" then
        if setter.isSome then fail (.duplicateAccessor .setter property) token
        else accessors expr nested property bound getter (some (← body))
      else unexpected

/-- A property. A value may stand before or after the accessors; the later one counts. -/
def property (expr : Parser Expr) (nested : Parser Stmt) : Parser MemberBody := do
  expectWord .propKw
  let name ← expectName
  let ty ← optional .colon type
  let before ← optional .eq expr
  let (getter, setter) ←
    if ← acceptSign .lBrace then accessors expr nested name (← get).rest.length none none
    else pure (none, none)
  let after ← optional .eq expr
  return .property name ty getter setter (after.or before)

def constructor (expr : Parser Expr) (nested : Parser Stmt) : Parser MemberBody := do
  expectWord .constructorKw
  let params ← optionalParameters expr
  let body ← functionBody expr nested
  return .constructor { name := "constructor", params, returnType := none, body }

/-- The operators that a class can define under a sign: with one parameter, and with none. -/
def definable : Kind → Option BinOp × Option UnOp
  | .symbol .plus => (some .add, some .plus)
  | .symbol .minus => (some .sub, some .neg)
  | .symbol .star => (some .mul, none)
  | .symbol .slash => (some .div, none)
  | .symbol .slashSlash => (some .intDiv, none)
  | .symbol .percent => (some .rem, none)
  | .symbol .starStar => (some .pow, none)
  | .symbol .amp => (some .bitAnd, none)
  | .symbol .bar => (some .bitOr, none)
  | .symbol .caret => (some .bitXor, none)
  | .symbol .eqEq => (some .eq, none)
  | .symbol .notEq => (some .ne, none)
  | .symbol .bang => (none, some .not)
  | .symbol .tilde => (none, some .bitNot)
  | _ => (none, none)

def operator (expr : Parser Expr) (nested : Parser Stmt) : Parser MemberBody := do
  expectWord .operatorKw
  let token ← advance
  let (binary, unary) := definable token.kind
  if binary.isNone && unary.isNone then fail .unexpected token
  expectSign .lParen
  let params ← parameters expr
  let returnType ← optional .colon type
  let body ← functionBody expr nested
  let decl : FunctionDecl := { name := "operator " ++ token.value, params, returnType, body }
  match params, binary, unary with
  | [_], some op, _ => return .binary op decl
  | [], _, some op => return .unary op decl
  | _, _, _ => fail .unexpected token

def classMember (expr : Parser Expr) (nested : Parser Stmt) : Parser MemberDecl := do
  let (access, isStatic) ← modifiers (← get).rest.length none false
  let body ← match (← peek).kind with
    | .keyword .varKw | .keyword .constKw => field expr
    | .keyword .propKw => property expr nested
    | .keyword .functionKw => .method <$> function expr nested
    | .keyword .constructorKw => constructor expr nested
    | .keyword .operatorKw => operator expr nested
    | _ => unexpected
  return { access, isStatic, body }

def afterBrace : Parser Bool :=
  return (← get).passed.head?.any (·.kind = .symbol .rBrace)

/-- The end of a member: a semicolon, or a closing brace before or behind it. -/
def memberEnd : Parser Unit := do
  if ← acceptSign .semicolon then return
  if ← check (.symbol .rBrace) then return
  if ← afterBrace then return
  fail .memberTerminator (← peek)

def members (expr : Parser Expr) (nested : Parser Stmt) : (bound : Nat) → Parser (List MemberDecl)
  | 0 => unexpected
  | bound + 1 => do
    if ← acceptSign .semicolon then members expr nested bound
    else if ← check (.symbol .rBrace) then return []
    else
      let first ← classMember expr nested
      memberEnd
      return first :: (← members expr nested bound)

def classDeclaration (expr : Parser Expr) (nested : Parser Stmt) : Parser ClassDecl := do
  expectWord .classKw
  let name ← expectName
  let bases ← optional .colon (commaSeparated type (← get).rest.length)
  expectSign .lBrace
  let members ← members expr nested (← get).rest.length
  expectSign .rBrace
  return { name, bases := bases.getD [], members }

/-! ## Statements -/

/-- The end of a statement: a semicolon, a closing brace before or behind it, or the end of the
input. -/
def statementEnd : Parser Unit := do
  if ← acceptSign .semicolon then return
  if ← check (.symbol .rBrace) then return
  if ← check .finish then return
  if ← afterBrace then return
  unexpected

/-- Statements up to a token of a kind, which is left. -/
def statementsTo (stop : Kind) (nested : Parser Stmt) : (bound : Nat) → Parser (List Stmt)
  | 0 => unexpected
  | bound + 1 => do
    if ← acceptSign .semicolon then statementsTo stop nested bound
    else if ← check stop then return []
    else
      let first ← nested
      statementEnd
      return first :: (← statementsTo stop nested bound)

def block (nested : Parser Stmt) : Parser Stmt := do
  expectSign .lBrace
  let body ← statementsTo (.symbol .rBrace) nested (← get).rest.length
  expectSign .rBrace
  return .block body

def ifElse (expr : Parser Expr) (nested : Parser Stmt) : Parser Stmt := do
  expectWord .ifKw
  let condition ← expr
  let thenBranch ← nested
  if ← accept (.keyword .elseKw) then
    return .ifElse condition thenBranch (some (← nested))
  else
    return .ifElse condition thenBranch none

/-- A parenthesis, which is passed, before a name and an equals sign. -/
def openingParen : Parser Bool := do
  if ← acceptSign .lParen then
    let cursor ← get
    return cursor.peek.kind = .identifier && cursor.next.peek.kind = .symbol .eq
  else
    return false

/-- Pass a name that stands where the grammar has a word. -/
def expectSoft (word : String) : Parser Unit := do
  if (← peek).isSoft word then
    let _ ← advance
  else unexpected

/-- A counting loop, with or without parentheses around its head. -/
def forLoop (expr : Parser Expr) (nested : Parser Stmt) : Parser Stmt := do
  expectWord .forKw
  let wrapped ← attempt openingParen
  let counter ← expectName
  expectSign .eq
  let start ← expr
  expectSoft "to"
  let stop ← expr
  let step ←
    if (← peek).isSoft "step" then do
      let _ ← advance
      some <$> expr
    else pure none
  if wrapped then expectSign .rParen
  return .forLoop counter start stop step (← nested)

def whileLoop (expr : Parser Expr) (nested : Parser Stmt) : Parser Stmt := do
  expectWord .whileKw
  let condition ← expr
  return .whileLoop condition (← nested)

def doWhile (expr : Parser Expr) (nested : Parser Stmt) : Parser Stmt := do
  expectWord .doKw
  let body ← nested
  expectWord .whileKw
  return .doWhile body (← expr)

def varDeclaration (expr : Parser Expr) : Parser Stmt := do
  expectWord .varKw
  let name ← expectName
  let ty ← optional .colon type
  let value ← optional .eq expr
  return .var name ty value

def constant (expr : Parser Expr) : Parser Stmt := do
  expectWord .constKw
  let name ← expectName
  expectSign .eq
  return .const name (← expr)

def returnValue (expr : Parser Expr) : Parser Stmt := do
  expectWord .returnKw
  match (← peek).kind with
  | .symbol .rBrace | .symbol .semicolon | .finish => return .ret none
  | _ => return .ret (some (← expr))

def statement (expr : Parser Expr) (nested : Parser Stmt) : Parser Stmt := do
  match (← peek).kind with
  | .keyword .ifKw => ifElse expr nested
  | .keyword .forKw => forLoop expr nested
  | .keyword .whileKw => whileLoop expr nested
  | .keyword .doKw => doWhile expr nested
  | .keyword .varKw => varDeclaration expr
  | .keyword .constKw => constant expr
  | .keyword .functionKw => .function <$> function expr nested
  | .keyword .returnKw => returnValue expr
  | .keyword .classKw => .classDecl <$> classDeclaration expr nested
  | .symbol .lBrace => block nested
  | _ => .expr <$> expr

/-! ## The knot -/

def statementAt (expr : Parser Expr) : (bound : Nat) → Parser Stmt
  | 0 => unexpected
  | bound + 1 => statement expr (statementAt expr bound)

def program (string : StringRule) : Parser (List Stmt) := do
  let bound := (← get).rest.length
  statementsTo .finish (statementAt (expressionWith string) bound) bound

end ClassScript.Parser

namespace ClassScript

def parse (tokens : List Token) : Except Diagnostic (List Stmt) :=
  match Parser.program (Parser.stringRule (Parser.depthOf tokens)) (.ofTokens tokens) with
  | .ok program _ => .ok program
  | .error fault _ => .error fault

end ClassScript
