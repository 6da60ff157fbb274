import ClassScript.Parse.Program
import ClassScript.Run.Builtins
import ClassScript.Run.Evaluator

/-!
# Sessions

An interpreter that is given one piece of a program after the other. Names, objects and output last
from one piece to the next, also when a piece fails.
-/

namespace ClassScript

inductive Failure where
  | diagnostic (d : Diagnostic)
  | fault (f : Fault)
  | outOfFuel

namespace Failure

def ofHalt : Halt → Failure
  | .fault f => .fault f
  | .outOfFuel => .outOfFuel

def text : Failure → String
  | .diagnostic d => d.text
  | .fault f => f.text
  | .outOfFuel => "Out of fuel"

end Failure

structure Session where
  config : Config := {}
  /-- Bounds how deep code can be nested at any time, and how often a loop goes round. -/
  fuel : Nat := 1 <<< 60
  state : State := State.start

namespace Session

variable {α : Type}

def evaluator (s : Session) : Evaluator :=
  ClassScript.evaluator s.config s.fuel

/-- Run an action; the session goes on from where it ends. -/
def perform (s : Session) (action : Exec α) : Except Failure α × Session :=
  match action s.state with
  | .ok a state => (.ok a, { s with state })
  | .error h state => (.error (.ofHalt h), { s with state })

def performOn {β : Type} (s : Session) (parsed : Except Diagnostic β) (action : β → Exec α) :
    Except Failure α × Session :=
  match parsed with
  | .ok b => s.perform (action b)
  | .error d => (.error (.diagnostic d), s)

def statements (text file : String) : Except Diagnostic (List Stmt) := do
  parse (← tokenize text file)

def runProgram (s : Session) (program : List Stmt) : Except Failure (Option Value) × Session :=
  s.perform (s.evaluator.program program)

def run (s : Session) (text file : String) : Except Failure (Option Value) × Session :=
  s.performOn (statements text file) s.evaluator.program

def exec (s : Session) (stmt : Stmt) : Except Failure Flow × Session :=
  s.perform do s.evaluator.exec (← get).globals stmt

def eval (s : Session) (text file : String) : Except Failure Value × Session :=
  s.performOn (tokenize text file >>= parseExpression) fun e => do
    s.evaluator.eval (← get).globals e

def function? (s : Session) (name : String) : Option Function :=
  match s.state.frames.local? s.state.globals.inner name with
  | some { value := .function f, .. } => some f
  | _ => none

def call (s : Session) (f : Function) (args : List Value) (this : Option Value) :
    Except Failure Value × Session :=
  s.perform (s.evaluator.callFunction f args this)

/-- Declare a function of the host, or an overload of the function that has its name. Each parameter
is written in short. -/
def declareHost (s : Session) (name : String) (params : List String) (returnType : Option Ty)
    (function : String) : Except Failure Unit × Session :=
  s.perform do
    let id := (← get).globals.inner
    Exec.rebind id name fun state => do
      let params ← params.mapM Param.ofShorthand
      let o := Overload.native params returnType (.host function)
      let f ← match state.frames.local? id name with
        | none => Function.add { name } o
        | some { value := .function f, .. } => f.add o
        | some b => throw (.notOverloadable name b.ty)
      return ⟨.function, .function f, false⟩

def defaultValue (s : Session) (ty : Ty) : Except Failure Value × Session :=
  s.perform do Exec.defaultValue (← get).globals ty

/-- Collect garbage. The first part is the number of containers that were dropped. -/
def collectGarbage (s : Session) : Nat × Session :=
  let (state, dropped) := s.state.collectGarbage
  (dropped, { s with state })

/-- Forget everything but the settings, the kept value and how much was printed. -/
def restart (s : Session) : Session :=
  { s with state := s.state.restart }

def takeOutput (s : Session) : String × Session :=
  (s.state.sink.text, { s with state := { s.state with sink := { s.state.sink with text := "" } } })

end Session

end ClassScript
