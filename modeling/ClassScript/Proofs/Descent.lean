import ClassScript.Parse.Program

/-!
# Recursive descent without bounds

The grammar once more, now as rules that call each other as they please. Nothing says that such
calls end, so the rules are read to a depth of calls, and where it is used up there is no outcome at
all, not even a fault. A call ends if it has one outcome at all sufficient depths.

The single steps are those of the parser, so that the two differ in what bounds them and in nothing
else.
-/

namespace ClassScript

/-- A reader of tokens that need not have an outcome. -/
abbrev Attempt := ExceptT Diagnostic (StateT Cursor Option)

namespace Attempt

def ofParser {α : Type} (p : Parser α) : Attempt α := fun c =>
  match p c with
  | .ok a d => some (.ok a, d)
  | .error fault d => some (.error fault, d)

instance : MonadLift Parser Attempt := ⟨ofParser⟩

def cutOff {α : Type} : Attempt α := fun _ => none

def optional {α : Type} (s : Symbol) (part : Attempt α) : Attempt (Option α) := do
  if ← Parser.acceptSign s then some <$> part else return none

end Attempt

/-- A reader of tokens, to every depth of calls. -/
abbrev Descent (α : Type) := Nat → Attempt α

namespace Descent

open Attempt (cutOff optional)

/-! ## Types -/

mutual

def type : Descent Ty
  | 0 => cutOff
  | depth + 1 => do
    let nullable ← Parser.acceptSign .question
    let token ← Parser.peek
    let generics ←
      if token.kind = .symbol .shl then do
        (modify fun cursor => cursor.replace { token with kind := .symbol .lt, value := "<" } :
          Parser Unit)
        generics depth
      else if ← Parser.acceptSign .lt then generics depth
      else pure []
    let name ← Parser.expectName
    return { name, nullable, generics }

def generics : Descent (List Ty)
  | 0 => cutOff
  | depth + 1 => do
    let types ← types depth
    Parser.expectSign .gt
    return types

def types : Descent (List Ty)
  | 0 => cutOff
  | depth + 1 => do
    let first ← type depth
    if ← Parser.acceptSign .comma then
      return first :: (← types depth)
    else
      return [first]

end

/-! ## Expressions -/

open ClassScript.Parser (assigned assignedName? assignment? levels operatorOf? prefixOf?)

mutual

def expression : Descent Expr
  | 0 => cutOff
  | depth + 1 => do
    match assignedName? (← (get : Parser Cursor)) with
    | some (name, op) =>
      let _ ← Parser.advance
      let _ ← Parser.advance
      let value ← expression depth
      return .assign name (assigned op (.var name) value)
    | none =>
      let target ← operation levels depth
      match assignment? (← Parser.peek).kind with
      | none => return target
      | some op =>
        match target with
        | .member object name =>
          let _ ← Parser.advance
          let value ← expression depth
          return .memberSet object name (assigned op (.member object name) value)
        | .index list position =>
          let _ ← Parser.advance
          let value ← expression depth
          return .indexSet list position (assigned op (.index list position) value)
        | _ => Parser.unexpected

def operation : List (List (Symbol × BinOp)) → Descent Expr
  | _, 0 => cutOff
  | [], depth + 1 => unary depth
  | level :: tighter, depth + 1 => do
    let left ← operation tighter depth
    chain level tighter left depth

def chain (level : List (Symbol × BinOp)) (tighter : List (List (Symbol × BinOp))) :
    Expr → Descent Expr
  | _, 0 => cutOff
  | left, depth + 1 => do
    match operatorOf? level (← Parser.peek).kind with
    | some op =>
      let _ ← Parser.advance
      let right ← operation tighter depth
      chain level tighter (.binary op left right) depth
    | none => return left

def unary : Descent Expr
  | 0 => cutOff
  | depth + 1 => do
    match prefixOf? (← Parser.peek).kind with
    | some op =>
      let _ ← Parser.advance
      return .unary op (← unary depth)
    | none =>
      let operand ← primary depth
      suffixes operand depth

def suffixes : Expr → Descent Expr
  | _, 0 => cutOff
  | operand, depth + 1 => do
    if ← Parser.acceptSign .lParen then
      let args ← arguments depth
      suffixes (.call operand args) depth
    else if ← Parser.acceptSign .lBracket then
      let position ← expression depth
      Parser.expectSign .rBracket
      suffixes (.index operand position) depth
    else if ← Parser.acceptSign .dot then
      let name ← Parser.expectName
      suffixes (.member operand name) depth
    else
      return operand

def arguments : Descent (List Expr)
  | 0 => cutOff
  | depth + 1 => do
    if ← Parser.acceptSign .rParen then return []
    let args ← expressions depth
    Parser.expectSign .rParen
    return args

def expressions : Descent (List Expr)
  | 0 => cutOff
  | depth + 1 => do
    let first ← expression depth
    if ← Parser.acceptSign .comma then
      return first :: (← expressions depth)
    else
      return [first]

def primary : Descent Expr
  | 0 => cutOff
  | depth + 1 => do
    let token ← Parser.advance
    match token.kind with
    | .symbol .lParen =>
      let inner ← expression depth
      Parser.expectSign .rParen
      return inner
    | .symbol .lBracket => return .list (← elements depth)
    | .number => (ofExcept (Parser.numberLiteral token) : Parser Expr)
    | .string _ => string token depth
    | .keyword .trueKw => return .boolean true
    | .keyword .falseKw => return .boolean false
    | .keyword .nullKw => return .null
    | .keyword .thisKw => return .var "this"
    | .identifier => return .var token.value
    | _ => (Parser.fail .unexpected token : Parser Expr)

def elements : Descent (List Expr)
  | 0 => cutOff
  | depth + 1 => do
    if ← Parser.acceptSign .rBracket then return []
    let first ← expression depth
    if ← Parser.acceptSign .comma then
      return first :: (← elements depth)
    else
      Parser.expectSign .rBracket
      return [first]

def string (token : Token) : Descent Expr
  | 0 => cutOff
  | depth + 1 => do
    let segments := Template.segments token.value
    if segments.any Template.Segment.isCode then
      return .template (← segments.mapM fun segment => part token segment depth)
    else
      return .string (String.join (segments.map Template.Segment.value))

/-- Embedded code has tokens of its own; afterwards the reader is back where the string was. -/
def part (token : Token) : Template.Segment → Descent TemplatePart
  | _, 0 => cutOff
  | .text value, _ + 1 => return .text value
  | .code code, depth + 1 =>
    match tokenize code token.position.file with
    | .error fault => throw (.grammatical (.interpolation code fault.message) token)
    | .ok tokens =>
      show StateT Cursor Option (Except Diagnostic TemplatePart) from do
        let outer ← get
        set (Cursor.ofTokens tokens)
        let value ← (whole depth).run
        set outer
        match value with
        | .ok value => return .ok (.code value)
        | .error fault => return .error (.grammatical (.interpolation code fault.message) token)

def whole : Descent Expr
  | 0 => cutOff
  | depth + 1 => do
    let value ← expression depth
    let _ ← Parser.expect .finish
    return value

end

/-! ## Functions -/

def parameter (depth : Nat) : Attempt Param := do
  let name ← Parser.expectName
  Parser.expectSign .colon
  let ty ← type depth
  let default ← optional .eq (expression depth)
  return { name, ty, default }

def parameterList : Descent (List Param)
  | 0 => cutOff
  | depth + 1 => do
    let first ← parameter depth
    if ← Parser.acceptSign .comma then
      return first :: (← parameterList depth)
    else
      return [first]

def parameters (depth : Nat) : Attempt (List Param) := do
  if ← Parser.acceptSign .rParen then return []
  let params ← parameterList depth
  Parser.expectSign .rParen
  return params

def optionalParameters (depth : Nat) : Attempt (List Param) :=
  return (← optional .lParen (parameters depth)).getD []

/-! ## Statements and classes -/

def varDeclaration (depth : Nat) : Attempt Stmt := do
  Parser.expectWord .varKw
  let name ← Parser.expectName
  let ty ← optional .colon (type depth)
  let value ← optional .eq (expression depth)
  return .var name ty value

def constant (depth : Nat) : Attempt Stmt := do
  Parser.expectWord .constKw
  let name ← Parser.expectName
  Parser.expectSign .eq
  return .const name (← expression depth)

def returnValue (depth : Nat) : Attempt Stmt := do
  Parser.expectWord .returnKw
  match (← Parser.peek).kind with
  | .symbol .rBrace | .symbol .semicolon | .finish => return .ret none
  | _ => return .ret (some (← expression depth))

def field (depth : Nat) : Attempt MemberBody := do
  let readonly := (← Parser.advance).kind = .keyword .constKw
  let name ← Parser.expectName
  let ty ← optional .colon (type depth)
  let value ← optional .eq (expression depth)
  return .field name readonly ty value

def accessOf? : Kind → Option Access
  | .keyword .publicKw => some .everywhere
  | .keyword .privateKw => some .ownClass
  | .keyword .protectedKw => some .subclasses
  | _ => none

def modifiers : Option Access → Bool → Descent (Access × Bool)
  | _, _, 0 => cutOff
  | access, isStatic, depth + 1 => do
    let token ← Parser.peek
    match accessOf? token.kind, access with
    | some _, some earlier =>
      (Parser.fail (.duplicateAccess earlier) token : Parser (Access × Bool))
    | some level, none =>
      let _ ← Parser.advance
      modifiers (some level) isStatic depth
    | none, _ =>
      if token.kind = .keyword .staticKw then
        if isStatic then (Parser.fail .duplicateStatic token : Parser (Access × Bool))
        else
          let _ ← Parser.advance
          modifiers access true depth
      else
        return (access.getD .ownClass, isStatic)

mutual

def statement : Descent Stmt
  | 0 => cutOff
  | depth + 1 => do
    match (← Parser.peek).kind with
    | .keyword .ifKw => ifElse depth
    | .keyword .forKw => forLoop depth
    | .keyword .whileKw => whileLoop depth
    | .keyword .doKw => doWhile depth
    | .keyword .varKw => varDeclaration depth
    | .keyword .constKw => constant depth
    | .keyword .functionKw => .function <$> function depth
    | .keyword .returnKw => returnValue depth
    | .keyword .classKw => .classDecl <$> classDeclaration depth
    | .symbol .lBrace => block depth
    | _ => .expr <$> expression depth

def ifElse : Descent Stmt
  | 0 => cutOff
  | depth + 1 => do
    Parser.expectWord .ifKw
    let condition ← expression depth
    let thenBranch ← statement depth
    if ← Parser.accept (.keyword .elseKw) then
      return .ifElse condition thenBranch (some (← statement depth))
    else
      return .ifElse condition thenBranch none

def forLoop : Descent Stmt
  | 0 => cutOff
  | depth + 1 => do
    Parser.expectWord .forKw
    let wrapped ← Parser.attempt Parser.openingParen
    let counter ← Parser.expectName
    Parser.expectSign .eq
    let start ← expression depth
    Parser.expectSoft "to"
    let stop ← expression depth
    let step ←
      if (← Parser.peek).isSoft "step" then do
        let _ ← Parser.advance
        some <$> expression depth
      else pure none
    if wrapped then Parser.expectSign .rParen
    return .forLoop counter start stop step (← statement depth)

def whileLoop : Descent Stmt
  | 0 => cutOff
  | depth + 1 => do
    Parser.expectWord .whileKw
    let condition ← expression depth
    return .whileLoop condition (← statement depth)

def doWhile : Descent Stmt
  | 0 => cutOff
  | depth + 1 => do
    Parser.expectWord .doKw
    let body ← statement depth
    Parser.expectWord .whileKw
    return .doWhile body (← expression depth)

def block : Descent Stmt
  | 0 => cutOff
  | depth + 1 => do
    Parser.expectSign .lBrace
    let body ← statementsTo (.symbol .rBrace) depth
    Parser.expectSign .rBrace
    return .block body

def statementsTo (stop : Kind) : Descent (List Stmt)
  | 0 => cutOff
  | depth + 1 => do
    if ← Parser.acceptSign .semicolon then statementsTo stop depth
    else if ← Parser.check stop then return []
    else
      let first ← statement depth
      Parser.statementEnd
      return first :: (← statementsTo stop depth)

def functionBody : Descent Stmt
  | 0 => cutOff
  | depth + 1 => do
    if ← Parser.acceptSign .eq then return .ret (some (← expression depth))
    else if ← Parser.acceptSign .fatArrow then statement depth
    else if ← Parser.check (.symbol .lBrace) then statement depth
    else Parser.unexpected

def function : Descent FunctionDecl
  | 0 => cutOff
  | depth + 1 => do
    Parser.expectWord .functionKw
    let name ← Parser.expectName
    let params ← optionalParameters depth
    let declared ← optional .colon (type depth)
    let body ← functionBody depth
    return { name, params, returnType := declared.or body.inferredTy?, body }

def classDeclaration : Descent ClassDecl
  | 0 => cutOff
  | depth + 1 => do
    Parser.expectWord .classKw
    let name ← Parser.expectName
    let bases ← optional .colon (types depth)
    Parser.expectSign .lBrace
    let members ← members depth
    Parser.expectSign .rBrace
    return { name, bases := bases.getD [], members }

def members : Descent (List MemberDecl)
  | 0 => cutOff
  | depth + 1 => do
    if ← Parser.acceptSign .semicolon then members depth
    else if ← Parser.check (.symbol .rBrace) then return []
    else
      let first ← classMember depth
      Parser.memberEnd
      return first :: (← members depth)

def classMember : Descent MemberDecl
  | 0 => cutOff
  | depth + 1 => do
    let (access, isStatic) ← modifiers none false depth
    let body ← match (← Parser.peek).kind with
      | .keyword .varKw | .keyword .constKw => field depth
      | .keyword .propKw => property depth
      | .keyword .functionKw => .method <$> function depth
      | .keyword .constructorKw => constructor depth
      | .keyword .operatorKw => operator depth
      | _ => Parser.unexpected
    return { access, isStatic, body }

def property : Descent MemberBody
  | 0 => cutOff
  | depth + 1 => do
    Parser.expectWord .propKw
    let name ← Parser.expectName
    let ty ← optional .colon (type depth)
    let before ← optional .eq (expression depth)
    let (getter, setter) ←
      if ← Parser.acceptSign .lBrace then accessors name none none depth
      else pure (none, none)
    let after ← optional .eq (expression depth)
    return .property name ty getter setter (after.or before)

def accessors (property : String) : Option FunctionDecl → Option FunctionDecl →
    Descent (Option FunctionDecl × Option FunctionDecl)
  | _, _, 0 => cutOff
  | getter, setter, depth + 1 => do
    if ← Parser.acceptSign .semicolon then accessors property getter setter depth
    else if ← Parser.acceptSign .rBrace then return (getter, setter)
    else
      let token ← Parser.peek
      if token.isSoft "get" then
        if getter.isSome then
          (Parser.fail (.duplicateAccessor .getter property) token :
            Parser (Option FunctionDecl × Option FunctionDecl))
        else accessors property (some (← accessor property token depth)) setter depth
      else if token.isSoft "set" then
        if setter.isSome then
          (Parser.fail (.duplicateAccessor .setter property) token :
            Parser (Option FunctionDecl × Option FunctionDecl))
        else accessors property getter (some (← accessor property token depth)) depth
      else Parser.unexpected

def accessor (property : String) (token : Token) : Descent FunctionDecl
  | 0 => cutOff
  | depth + 1 => do
    let _ ← Parser.advance
    let body ← functionBody depth
    return { name := token.value ++ " " ++ property, params := [], returnType := none, body }

def constructor : Descent MemberBody
  | 0 => cutOff
  | depth + 1 => do
    Parser.expectWord .constructorKw
    let params ← optionalParameters depth
    let body ← functionBody depth
    return .constructor { name := "constructor", params, returnType := none, body }

def operator : Descent MemberBody
  | 0 => cutOff
  | depth + 1 => do
    Parser.expectWord .operatorKw
    let token ← Parser.advance
    let (binary, unary) := Parser.definable token.kind
    if binary.isNone && unary.isNone then (Parser.fail .unexpected token : Parser Unit)
    Parser.expectSign .lParen
    let params ← parameters depth
    let returnType ← optional .colon (type depth)
    let body ← functionBody depth
    let decl : FunctionDecl := { name := "operator " ++ token.value, params, returnType, body }
    match params, binary, unary with
    | [_], some op, _ => return .binary op decl
    | [], _, some op => return .unary op decl
    | _, _, _ => (Parser.fail .unexpected token : Parser MemberBody)

end

def program : Descent (List Stmt) :=
  statementsTo .finish

end Descent

end ClassScript
