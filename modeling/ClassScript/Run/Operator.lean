import ClassScript.Run.Call

/-!
# Operators

The built-in meanings come first, except for equality, where the class of the left operand does.
-/

namespace ClassScript

/-- A string repeated; a factor below one takes that part of it from the front. -/
def repeatText (text : String) (factor : Float) : Except Fault String :=
  if factor.isNaN || factor.isInf then .error (.badRepetition factor)
  else if factor < 1.0 then
    let keep := Number.clamp 0 (UInt64.size - 1) (factor * Float.ofNat text.length)
    .ok (String.ofList (text.toList.take keep.toNat))
  else
    let count := (Number.clamp 0 (UInt64.size - 1) factor).toNat
    if text.isEmpty then .ok ""
    else if text.utf8ByteSize * count ≤ Fault.longestRepetition then
      .ok (Nat.repeat (· ++ text) count "")
    else .error .repetitionTooLong

namespace BinOp

def compare {α : Type} [LT α] [DecidableLT α] [LE α] [DecidableLE α] (op : BinOp)
    (a b : α) : Bool :=
  match op with
  | .lt => a < b
  | .le => a ≤ b
  | .gt => b < a
  | _ => b ≤ a

def onNumbers (op : BinOp) (a b : Float) : Option Value :=
  match op with
  | .add => some (.number (a + b))
  | .sub => some (.number (a - b))
  | .mul => some (.number (a * b))
  | .div => some (.number (a / b))
  | .intDiv => some (.number (Number.truncate (a / b)))
  | .rem => some (.number (Number.remainder a b))
  | .pow => some (.number (Float.pow a b))
  | .bitAnd => some (.number (Number.ofWord (Number.toWord a &&& Number.toWord b)))
  | .bitOr => some (.number (Number.ofWord (Number.toWord a ||| Number.toWord b)))
  | .bitXor => some (.number (Number.ofWord (Number.toWord a ^^^ Number.toWord b)))
  | .lt | .le | .gt | .ge => some (.boolean (op.compare a b))
  | .eq | .ne => none

def joined (s : State) (left right : Value) : Except Fault String :=
  return (← s.textOf left) ++ (← s.textOf right)

/-- The meaning of an operator on numbers and strings, if it has one. -/
def builtin (s : State) (op : BinOp) (left right : Value) : Except Fault (Option Value) :=
  match op, left, right with
  | op, .number a, .number b => .ok (op.onNumbers a b)
  | .add, .string _, _ => (some ∘ .string) <$> joined s left right
  | .add, _, .string _ => (some ∘ .string) <$> joined s left right
  | .mul, .string t, .number n => (some ∘ .string) <$> repeatText t n
  | .mul, .number n, .string t => (some ∘ .string) <$> repeatText t n
  | .lt, .string a, .string b => .ok (some (.boolean (BinOp.lt.compare a b)))
  | .le, .string a, .string b => .ok (some (.boolean (BinOp.le.compare a b)))
  | .gt, .string a, .string b => .ok (some (.boolean (BinOp.gt.compare a b)))
  | .ge, .string a, .string b => .ok (some (.boolean (BinOp.ge.compare a b)))
  | _, _, _ => .ok none

end BinOp

namespace State

/-- Values are equal when their types and their texts are. -/
def equal (s : State) (left right : Value) : Except Fault Bool := do
  if (← s.typeOf left) = (← s.typeOf right) then
    return (← s.textOf left) == (← s.textOf right)
  else return false

def operandClass (s : State) : Value → Except Fault (Option Container)
  | .object handle => do
    match (← s.heap.get handle).kind with
    | .instanceOf cls => return some (← s.heap.get cls)
    | .classOf _ => return none
  | _ => .ok none

/-- The operator of the left operand's class that takes the right one, if there is one, with its
name. -/
def binaryOverload (s : State) (op : BinOp) (left right : Value) :
    Except Fault (Option (String × Overload)) := do
  match (← s.operandClass left).bind fun c => c.binaryOps.get? op with
  | none => return none
  | some f =>
    let ty ← s.typeOf right
    let lineage ← s.lineageOf [right]
    if (f.candidates lineage [ty]).isEmpty then return none
    return some (f.name, ← f.resolve lineage [ty])

def unaryOverload (s : State) (op : UnOp) (operand : Value) :
    Except Fault (Option (String × Overload)) := do
  match (← s.operandClass operand).bind fun c => c.unaryOps.get? op with
  | none => return none
  | some f => return some (f.name, ← f.resolve { registry := s.registry } [])

end State

namespace Evaluator

open Exec

def overloaded (ev : Evaluator) (op : BinOp) (left right : Value) : Exec (Option Value) := do
  match ← ask (·.binaryOverload op left right) with
  | none => return none
  | some (name, o) => some <$> invoke ev name o [right] (some left)

def binary (ev : Evaluator) (op : BinOp) (left right : Value) : Exec Value := do
  if op = .eq ∨ op = .ne then
    match ← overloaded ev op left right with
    | some value => return value
    | none => return .boolean ((← ask (·.equal left right)) == (op == .eq))
  else
    if let some value ← ask (BinOp.builtin · op left right) then return value
    if op.overloadable then
      if let some value ← overloaded ev op left right then return value
    let leftTy ← ask (·.typeOf left)
    let rightTy ← ask (·.typeOf right)
    fault (.noOperation op leftTy rightTy)

def unary (ev : Evaluator) (op : UnOp) (operand : Value) : Exec Value := do
  match ← ask (·.unaryOverload op operand) with
  | some (name, o) => invoke ev name o [] (some operand)
  | none =>
    match op with
    | .not => return .boolean (!operand.truthy)
    | .plus => return .number (← ofExcept operand.toNumber)
    | .neg => return .number (-(← ofExcept operand.toNumber))
    | .bitNot => return .number (Number.ofWord (~~~ Number.toWord (← ofExcept operand.toNumber)))

end Evaluator

end ClassScript
