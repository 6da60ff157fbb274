import ClassScript.Syntax.Ty

/-!
# Expressions

The trees that have a value. Compound assignments have no tree of their own: `x += e` is the
assignment of `x + e` to `x`.
-/

namespace ClassScript

inductive BinOp where
  | add | sub | mul | div | intDiv | rem | pow
  | bitAnd | bitOr | bitXor
  | eq | ne | lt | le | gt | ge
deriving Repr, DecidableEq, Inhabited

namespace BinOp

def text : BinOp → String
  | .add => "+" | .sub => "-" | .mul => "*" | .div => "/" | .intDiv => "//" | .rem => "%"
  | .pow => "**" | .bitAnd => "&" | .bitOr => "|" | .bitXor => "^" | .eq => "==" | .ne => "!="
  | .lt => "<" | .le => "<=" | .gt => ">" | .ge => ">="

def overloadable : BinOp → Bool
  | .lt | .le | .gt | .ge => false
  | _ => true

/-- What a message says that the operator does. -/
def verb : BinOp → String
  | .add => "add"
  | .sub => "subtract"
  | .mul => "multiply"
  | .div => "divide"
  | .intDiv => "intdiv"
  | .rem => "get remainder of"
  | .pow => "exponentiate"
  | .bitAnd => "perform bitwise conjunction on"
  | .bitOr => "perform bitwise disjunction on"
  | .bitXor => "perform bitwise exclusive disjunction on"
  | .eq | .ne | .lt | .le | .gt | .ge => "compare"

end BinOp

inductive UnOp where
  | plus | neg | not | bitNot
deriving Repr, DecidableEq, Inhabited

def UnOp.text : UnOp → String
  | .plus => "+" | .neg => "-" | .not => "!" | .bitNot => "~"

mutual

inductive Expr where
  | number (value : Float)
  | string (value : String)
  | boolean (value : Bool)
  | null
  /-- A string with code in it. -/
  | template (parts : List TemplatePart)
  | list (items : List Expr)
  /-- A name; `this` is one like any other. -/
  | var (name : String)
  | binary (op : BinOp) (left right : Expr)
  | unary (op : UnOp) (operand : Expr)
  | assign (name : String) (value : Expr)
  | call (callee : Expr) (args : List Expr)
  | index (target position : Expr)
  | indexSet (target position value : Expr)
  | member (object : Expr) (name : String)
  | memberSet (object : Expr) (name : String) (value : Expr)
deriving Repr

inductive TemplatePart where
  | text (value : String)
  | code (expr : Expr)
deriving Repr

end

instance : Inhabited Expr := ⟨.null⟩

/-- A parameter of a function; it may be left out when it has a default. -/
structure Param where
  name : String
  ty : Ty
  default : Option Expr := none
deriving Inhabited

def Param.required (p : Param) : Bool :=
  p.default.isNone

end ClassScript
