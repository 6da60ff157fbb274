import ClassScript.Syntax.Access
import ClassScript.Syntax.Expr

/-!
# Statements and declarations
-/

namespace ClassScript

/-- What functions, methods, constructors, operators and accessors have in common. -/
structure FunctionOf (body : Type) where
  name : String
  params : List Param
  returnType : Option Ty
  body : body

inductive MemberBodyOf (body : Type) where
  | field (name : String) (readonly : Bool) (ty : Option Ty) (value : Option Expr)
  | property (name : String) (ty : Option Ty) (getter setter : Option (FunctionOf body))
      (value : Option Expr)
  | method (decl : FunctionOf body)
  | constructor (decl : FunctionOf body)
  | binary (op : BinOp) (decl : FunctionOf body)
  | unary (op : UnOp) (decl : FunctionOf body)

structure MemberOf (body : Type) where
  access : Access
  isStatic : Bool
  body : MemberBodyOf body

structure ClassOf (body : Type) where
  name : String
  bases : List Ty
  members : List (MemberOf body)

inductive Stmt where
  | expr (value : Expr)
  | var (name : String) (ty : Option Ty) (value : Option Expr)
  | const (name : String) (value : Expr)
  | function (decl : FunctionOf Stmt)
  | classDecl (decl : ClassOf Stmt)
  | ifElse (condition : Expr) (thenBranch : Stmt) (elseBranch : Option Stmt)
  | forLoop (counter : String) (start stop : Expr) (step : Option Expr) (body : Stmt)
  | whileLoop (condition : Expr) (body : Stmt)
  | doWhile (body : Stmt) (condition : Expr)
  | ret (value : Option Expr)
  | block (body : List Stmt)

instance : Inhabited Stmt := ⟨.block []⟩

abbrev FunctionDecl := FunctionOf Stmt
abbrev ClassDecl := ClassOf Stmt
abbrev MemberDecl := MemberOf Stmt
abbrev MemberBody := MemberBodyOf Stmt

namespace MemberBodyOf

def name {body : Type} : MemberBodyOf body → String
  | .field name .. => name
  | .property name .. => name
  | .method decl => decl.name
  | .constructor decl => decl.name
  | .binary _ decl => decl.name
  | .unary _ decl => decl.name

end MemberBodyOf

/-- The type that a literal has, if the expression is one; a template counts as a literal. -/
def Expr.literalTy? : Expr → Option Ty
  | .number _ => some .number
  | .string _ => some .string
  | .template _ => some .string
  | .boolean _ => some .boolean
  | _ => none

namespace Stmt

/-- The first value that a list of statements returns at its top level. -/
def firstReturned? : List Stmt → Option Expr
  | [] => none
  | .ret (some value) :: _ => some value
  | _ :: rest => firstReturned? rest

/-- The return type of a function that is declared without one: that of the literal in a `return`,
where the body is one or has one at its top level. -/
def inferredTy? : Stmt → Option Ty
  | .ret (some value) => value.literalTy?
  | .block body => (firstReturned? body).bind Expr.literalTy?
  | _ => none

end Stmt

end ClassScript
