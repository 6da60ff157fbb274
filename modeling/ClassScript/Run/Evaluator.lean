import ClassScript.Run.ClassBody
import ClassScript.Run.Operator

/-!
# Evaluation

The rules of expressions and statements, and the knot: an evaluator with some fuel runs the parts of
its code with an evaluator that has less.
-/

namespace ClassScript.Evaluator

open Exec

/-! ## Expressions -/

def evalAll (ev : Evaluator) (scope : Scope) : List Expr → Exec (List Value)
  | [] => return []
  | e :: es => do
    let value ← ev.eval scope e
    return value :: (← evalAll ev scope es)

/-- The text of a template after the text of its first parts. Each value becomes text as soon as it
is known. -/
def templateText (ev : Evaluator) (scope : Scope) : String → List TemplatePart → Exec String
  | text, [] => return text
  | text, .text more :: parts => templateText ev scope (text ++ more) parts
  | text, .code e :: parts => do
    let value ← ev.eval scope e
    let more ← ask (·.textOf value)
    templateText ev scope (text ++ more) parts

def assign (scope : Scope) (name : String) (value : Value) : Exec Unit := do
  let owner ← ask fun s =>
    match s.frames.owner? scope name with
    | some owner => .ok owner
    | none => .error (s.undefinedName scope name)
  rebind owner name fun s => do
    let valueTy ← s.typeOf value
    s.frames.assigned (← s.lineageOf [value]) owner name valueTy value

def element (s : State) (target position : Value) : Except Fault (ListId × Nat) := do
  match target with
  | .list id =>
    let index ← position.toNumber
    let length := (s.lists.elements id).size
    if 0.0 ≤ index && index == Number.truncate index && index < Float.ofNat length then
      return (id, (Number.clamp 0 length index).toNat)
    else throw (.outOfBounds index length)
  | _ => throw (.notIndexable (← s.typeOf target))

/-- Call a value: a function, or a class to make an instance. `receiver` is the object that a member
was called on; only an instance becomes `this`. -/
def callValue (ev : Evaluator) (callee : Value) (receiver : Option Value) (args : List Value) :
    Exec Value := do
  match callee with
  | .function f =>
    let this ← ask fun s =>
      match receiver with
      | some (.object handle) => do
        return if (← s.heap.get handle).isClass then none else some (.object handle)
      | _ => .ok none
    callFunction ev f args this
  | .object handle =>
    if (← ask (·.heap.get handle)).isClass then construct ev handle args
    else fault (.notCallable (← ask (·.textOf callee)))
  | _ => fault (.notCallable (← ask (·.textOf callee)))

def evalStep (ev : Evaluator) (scope : Scope) : Expr → Exec Value
  | .number value => return .number value
  | .string value => return .string value
  | .boolean value => return .boolean value
  | .null => return .null
  | .template parts => return .string (← templateText ev scope "" parts)
  | .list items => do newList (← evalAll ev scope items)
  | .var name => ask fun s =>
    match s.frames.get? scope name with
    | some value => .ok value
    | none => .error (s.undefinedName scope name)
  | .binary op left right => do
    let left ← ev.eval scope left
    let right ← ev.eval scope right
    binary ev op left right
  | .unary op operand => do unary ev op (← ev.eval scope operand)
  | .assign name value => do
    let value ← ev.eval scope value
    assign scope name value
    return value
  | .call (.member object name) args => do
    let object ← ev.eval scope object
    let callee ← memberGet ev object name
    callValue ev callee (some object) (← evalAll ev scope args)
  | .call callee args => do
    let callee ← ev.eval scope callee
    callValue ev callee none (← evalAll ev scope args)
  | .index target position => do
    let target ← ev.eval scope target
    let position ← ev.eval scope position
    let (id, i) ← ask fun s => element s target position
    return (((← get).lists.elements id)[i]?).getD .null
  | .indexSet target position value => do
    let target ← ev.eval scope target
    let position ← ev.eval scope position
    let value ← ev.eval scope value
    let (id, i) ← ask fun s => element s target position
    modify fun s => { s with lists := s.lists.modify id fun items => items.setIfInBounds i value }
    return value
  | .member object name => do memberGet ev (← ev.eval scope object) name
  | .memberSet object name value => do
    let object ← ev.eval scope object
    let value ← ev.eval scope value
    memberSet ev object name value

/-! ## Statements -/

/-- Run statements in order; the value is that of the last one. -/
def execAll (ev : Evaluator) (scope : Scope) : (last : Option Value) → List Stmt → Exec Flow
  | last, [] => return .normal last
  | _, stmt :: stmts => do
    match ← ev.exec scope stmt with
    | .normal value => execAll ev scope value stmts
    | .returned value => return .returned value

def declareVar (ev : Evaluator) (scope : Scope) (name : String) (ty : Option Ty)
    (value : Option Expr) : Exec Unit := do
  let (ty, value) ← match ty, value with
    | none, none => fault (.neitherTypeNorValue name)
    | some ty, none => pure (ty, ← defaultValue scope ty)
    | none, some e =>
      let value ← ev.eval scope e
      pure (← ask (·.typeOf value), value)
    | some ty, some e =>
      let value ← ev.eval scope e
      let valueTy ← ask (·.typeOf value)
      unless ← ask (·.fits value valueTy ty) do
        fault (.notStorable valueTy .variable name ty)
      pure (ty, value)
  rebind scope.inner name fun s => s.frames.newVariable scope.inner name ty value

def declareConst (ev : Evaluator) (scope : Scope) (name : String) (value : Expr) : Exec Unit := do
  let value ← ev.eval scope value
  let ty ← ask (·.typeOf value)
  rebind scope.inner name fun s => s.frames.newConstant scope.inner name ty value

/-- Declare a function, or an overload of the one that the frame already has under its name. -/
def declareFunction (scope : Scope) (decl : FunctionDecl) : Exec Unit :=
  rebind scope.inner decl.name fun s => do
    let o := s.overload scope decl
    match s.frames.local? scope.inner decl.name with
    | none =>
      let f ← Function.add { name := decl.name } o
      s.frames.newVariable scope.inner decl.name .function (.function f)
    | some { value := .function f, .. } =>
      let f ← f.add o
      s.frames.assigned { registry := s.registry } scope.inner decl.name .function (.function f)
    | some b => throw (.notOverloadable decl.name b.ty)

def whileRounds (ev : Evaluator) (scope : Scope) (condition : Expr) (body : Stmt) :
    (rounds : Nat) → Exec Flow
  | 0 => throw .outOfFuel
  | rounds + 1 => do
    if (← ev.eval scope condition).truthy then
      match ← ev.exec scope body with
      | .normal _ => whileRounds ev scope condition body rounds
      | .returned value => return .returned value
    else
      return .normal none

def doRounds (ev : Evaluator) (scope : Scope) (body : Stmt) (condition : Expr) :
    (rounds : Nat) → Exec Flow
  | 0 => throw .outOfFuel
  | rounds + 1 => do
    match ← ev.exec scope body with
    | .returned value => return .returned value
    | .normal _ =>
      if (← ev.eval scope condition).truthy then doRounds ev scope body condition rounds
      else return .normal none

def counterValue (scope : Scope) (counter : String) : Exec Float :=
  ask fun s => ((s.frames.get? scope counter).getD .null).toNumber

structure Count where
  stop : Float
  ascending : Bool
  delta : Float

def Count.covers (c : Count) (current : Float) : Bool :=
  if c.ascending then current ≤ c.stop else c.stop ≤ current

def countRounds (ev : Evaluator) (scope : Scope) (counter : String) (count : Count) (body : Stmt) :
    (rounds : Nat) → Exec Flow
  | 0 => throw .outOfFuel
  | rounds + 1 => do
    if count.covers (← counterValue scope counter) then
      match ← ev.exec scope body with
      | .returned value => return .returned value
      | .normal _ =>
        let next := (← counterValue scope counter) + count.delta
        rebind scope.inner counter fun s =>
          s.frames.assigned { registry := s.registry } scope.inner counter .number (.number next)
        countRounds ev scope counter count body rounds
    else
      return .normal none

/-- A counting loop whose bounds and step are known. Its direction comes from its bounds, and only
the size of its step matters. -/
def countLoop (ev : Evaluator) (scope : Scope) (counter : String) (start stop step : Float)
    (body : Stmt) : Exec Flow := do
  if step == 0.0 || step.isNaN then fault .badStep
  let ascending := start < stop
  rebind scope.inner counter fun s =>
    s.frames.newVariable scope.inner counter .number (.number start)
  countRounds ev scope counter ⟨stop, ascending, if ascending then step else -step⟩ body ev.rounds

def forLoop (ev : Evaluator) (scope : Scope) (counter : String) (start stop : Expr)
    (step : Option Expr) (body : Stmt) : Exec Flow := do
  let scope ← newScope scope
  let start ← ofExcept (← ev.eval scope start).toNumber
  let stop ← ofExcept (← ev.eval scope stop).toNumber
  match step with
  | some step =>
    let step ← ofExcept (← ev.eval scope step).toNumber
    countLoop ev scope counter start stop step.abs body
  | none => countLoop ev scope counter start stop 1.0 body

def execStep (ev : Evaluator) (scope : Scope) : Stmt → Exec Flow
  | .expr value => return .normal (some (← ev.eval scope value))
  | .var name ty value => do
    declareVar ev scope name ty value
    return .normal none
  | .const name value => do
    declareConst ev scope name value
    return .normal none
  | .function decl => do
    declareFunction scope decl
    return .normal none
  | .classDecl decl => do
    declareClass ev scope decl
    return .normal none
  | .ifElse condition thenBranch elseBranch => do
    if (← ev.eval scope condition).truthy then ev.exec scope thenBranch
    else match elseBranch with
      | some elseBranch => ev.exec scope elseBranch
      | none => return .normal none
  | .forLoop counter start stop step body => forLoop ev scope counter start stop step body
  | .whileLoop condition body => whileRounds ev scope condition body ev.rounds
  | .doWhile body condition => doRounds ev scope body condition ev.rounds
  | .ret none => return .returned none
  | .ret (some value) => return .returned (some (← ev.eval scope value))
  | .block body => do execAll ev (← newScope scope) none body

/-- Run a program. The result is the value of its last statement, or of a `return` outside of any
function. -/
def program (ev : Evaluator) (statements : List Stmt) : Exec (Option Value) := do
  match ← execAll ev (← get).globals none statements with
  | .normal value | .returned value => return value

end ClassScript.Evaluator

namespace ClassScript

structure Config where
  /-- How many calls may be running. -/
  maxDepth : Nat := 10000
  host : Host := Host.none

/-- The evaluator with some fuel: what it runs directly, it runs with one less. -/
def evaluator (config : Config) : (fuel : Nat) → Evaluator
  | 0 =>
    { eval := fun _ _ => throw .outOfFuel
      exec := fun _ _ => throw .outOfFuel
      call := fun _ _ => throw .outOfFuel
      host := config.host, maxDepth := config.maxDepth, rounds := 0 }
  | fuel + 1 =>
    { eval := fun scope e s => Evaluator.evalStep (evaluator config fuel) scope e s
      exec := fun scope stmt s => Evaluator.execStep (evaluator config fuel) scope stmt s
      call := fun f args s => Evaluator.callFunction (evaluator config fuel) f args none s
      host := config.host, maxDepth := config.maxDepth, rounds := fuel }

end ClassScript
