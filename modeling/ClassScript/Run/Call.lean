import ClassScript.Run.Exec

/-!
# Calls

The rules in this and the following modules run code through an `Evaluator`, which is tied to them
later.
-/

namespace ClassScript

/-- What the program around the interpreter provides: the meaning of its functions, by name. It can
call functions of the language. -/
abbrev Host := (call : Function → List Value → Exec Value) → (name : String) → List Value →
  Exec (Option Value)

def Host.none : Host := fun _ _ _ => return Option.none

structure Evaluator where
  eval : Scope → Expr → Exec Value
  exec : Scope → Stmt → Exec Flow
  /-- Calls that come from the host. -/
  call : Function → List Value → Exec Value
  host : Host
  /-- How many calls may be running. -/
  maxDepth : Nat
  /-- How often a loop may go round. -/
  rounds : Nat

namespace Evaluator

open Exec

def native (ev : Evaluator) (args : List Value) : Native → Exec (Option Value)
  | .print => do
    write (← printed)
    return none
  | .println => do
    write ((← printed) ++ "\n")
    return none
  | .nothing => return none
  | .host name => ev.host ev.call name args
where
  printed : Exec String :=
    match args with
    | value :: _ => ask (·.textOf value)
    | [] => return ""

/-- Bind parameters to arguments, and to defaults when the arguments run out. A default can use the
parameters before it. -/
def bindParams (ev : Evaluator) (function : String) (scope : Scope) :
    List Param → List Value → Exec Unit
  | [], _ => return ()
  | p :: ps, value :: args => do
    define scope.inner p.name ⟨p.ty, value, false⟩
    bindParams ev function scope ps args
  | p :: ps, [] => do
    match p.default with
    | none => fault (.missingArgument p.name function)
    | some default =>
      let value ← ev.eval scope default
      let valueTy ← ask (·.typeOf value)
      unless ← ask (·.fits value valueTy p.ty) do
        fault (.misfitDefault valueTy p.name p.ty)
      define scope.inner p.name ⟨p.ty, value, false⟩
      bindParams ev function scope ps []

/-- The result of a call: what it produced, if that fits the return type, or what that type starts
with. -/
def result (function : String) (o : Overload) (produced : Option Value) (scope : Scope) :
    Exec Value := do
  match o.returnType, produced with
  | none, produced => return produced.getD .null
  | some ty, none => defaultValue scope ty
  | some ty, some value =>
    let valueTy ← ask (·.typeOf value)
    if ← ask (·.fits value valueTy ty) then return value
    else fault (.misfitResult valueTy function ty)

def bindThis (scope : Scope) (this : Value) : Exec Unit := do
  let ty ← ask (·.typeOf this)
  define scope.inner "this" ⟨ty, this, true⟩

/-- Bind the parameters of an overload in a scope, and run a body there. The value of a body that
does not return is that of its last expression, unless that is null. -/
def runBody (ev : Evaluator) (function : String) (o : Overload) (args : List Value) (scope : Scope)
    (body : Stmt) : Exec (Option Value) := do
  bindParams ev function scope o.params args
  match ← asCodeOf o.owner (ev.exec scope body) with
  | .returned value => return value
  | .normal value => return value.filter (!·.isNull)

def runOverload (ev : Evaluator) (function : String) (o : Overload) (args : List Value)
    (this : Option Value) : Exec Value := do
  match o.code with
  | .native f =>
    let produced ← ev.native args f
    result function o produced (← get).globals
  | .script body closure =>
    let scope ← newScope closure
    if let some this := this then bindThis scope this
    let produced ← runBody ev function o args scope body
    result function o produced closure

def checkDepth (ev : Evaluator) : Exec Unit := do
  if ev.maxDepth ≤ (← get).callDepth then fault (.depthExceeded ev.maxDepth)

def invoke (ev : Evaluator) (function : String) (o : Overload) (args : List Value)
    (this : Option Value) : Exec Value := do
  checkDepth ev
  deeper (roomy (runOverload ev function o args this))

def select (f : Function) (args : List Value) : Exec Overload := ask fun s => do
  let types ← args.mapM s.typeOf
  f.resolve (← s.lineageOf args) types

def callFunction (ev : Evaluator) (f : Function) (args : List Value) (this : Option Value) :
    Exec Value := do
  let o ← select f args
  invoke ev f.name o args this

end Evaluator

end ClassScript
