import ClassScript.Proofs.Closures

/-!
# Variables that are left alone

A variable is a name in a frame. Code can set it in two ways: by an assignment, wherever the frame
is in sight, and by a declaration that stands in the frame itself. Both can be read off the text of
the code. A closure spares a variable when it does not see the frame or does not assign to the name.
-/

namespace ClassScript

/-! ## Assignments and declarations in code -/

mutual

def Expr.assigns (name : String) : Expr → Bool
  | .number _ | .string _ | .boolean _ | .null | .var _ => false
  | .template parts => TemplatePart.anyAssigns name parts
  | .list items => Expr.anyAssigns name items
  | .binary _ left right => left.assigns name || right.assigns name
  | .unary _ operand => operand.assigns name
  | .assign target value => decide (target = name) || value.assigns name
  | .call callee args => callee.assigns name || Expr.anyAssigns name args
  | .index target position => target.assigns name || position.assigns name
  | .indexSet target position value =>
    target.assigns name || position.assigns name || value.assigns name
  | .member object _ => object.assigns name
  | .memberSet object _ value => object.assigns name || value.assigns name

def Expr.anyAssigns (name : String) : List Expr → Bool
  | [] => false
  | e :: es => e.assigns name || Expr.anyAssigns name es

def TemplatePart.anyAssigns (name : String) : List TemplatePart → Bool
  | [] => false
  | .text _ :: parts => TemplatePart.anyAssigns name parts
  | .code e :: parts => e.assigns name || TemplatePart.anyAssigns name parts

end

def Expr.optionAssigns (name : String) : Option Expr → Bool
  | some e => e.assigns name
  | none => false

def Param.anyAssigns (name : String) : List Param → Bool
  | [] => false
  | p :: ps => Expr.optionAssigns name p.default || Param.anyAssigns name ps

mutual

/-- Whether there is an assignment to a name in a statement. The functions and classes that it
declares count with all their code. -/
def Stmt.assigns (name : String) : Stmt → Bool
  | .expr value => value.assigns name
  | .var _ _ value => Expr.optionAssigns name value
  | .const _ value => value.assigns name
  | .function decl => functionAssigns name decl
  | .classDecl decl => classAssigns name decl
  | .ifElse condition thenBranch elseBranch =>
    condition.assigns name || thenBranch.assigns name || Stmt.optionAssigns name elseBranch
  | .forLoop _ start stop step body =>
    start.assigns name || stop.assigns name || Expr.optionAssigns name step || body.assigns name
  | .whileLoop condition body => condition.assigns name || body.assigns name
  | .doWhile body condition => body.assigns name || condition.assigns name
  | .ret value => Expr.optionAssigns name value
  | .block body => Stmt.anyAssigns name body

def Stmt.anyAssigns (name : String) : List Stmt → Bool
  | [] => false
  | s :: ss => s.assigns name || Stmt.anyAssigns name ss

def Stmt.optionAssigns (name : String) : Option Stmt → Bool
  | some s => s.assigns name
  | none => false

def functionAssigns (name : String) : FunctionOf Stmt → Bool
  | ⟨_, params, _, body⟩ => Param.anyAssigns name params || body.assigns name

def accessorAssigns (name : String) : Option (FunctionOf Stmt) → Bool
  | some decl => functionAssigns name decl
  | none => false

def memberBodyAssigns (name : String) : MemberBodyOf Stmt → Bool
  | .field _ _ _ value => Expr.optionAssigns name value
  | .property _ _ getter setter value =>
    accessorAssigns name getter || accessorAssigns name setter || Expr.optionAssigns name value
  | .method decl => functionAssigns name decl
  | .constructor decl => functionAssigns name decl
  | .binary _ decl => functionAssigns name decl
  | .unary _ decl => functionAssigns name decl

def memberAssigns (name : String) : List (MemberOf Stmt) → Bool
  | [] => false
  | ⟨_, _, body⟩ :: members => memberBodyAssigns name body || memberAssigns name members

def classAssigns (name : String) : ClassOf Stmt → Bool
  | ⟨_, _, members⟩ => memberAssigns name members

end

/-- Whether a statement declares a name in the frame that it stands in. Blocks and counting loops
have frames of their own. -/
def Stmt.binds (name : String) : Stmt → Bool
  | .var declared _ _ => decide (declared = name)
  | .const declared _ => decide (declared = name)
  | .function decl => decide (decl.name = name)
  | .classDecl decl => decide (decl.name = name)
  | .ifElse _ thenBranch none => thenBranch.binds name
  | .ifElse _ thenBranch (some elseBranch) => thenBranch.binds name || elseBranch.binds name
  | .whileLoop _ body => body.binds name
  | .doWhile body _ => body.binds name
  | .expr _ | .forLoop .. | .ret _ | .block _ => false

theorem functionAssigns_eq (name : String) (decl : FunctionDecl) :
    functionAssigns name decl = (Param.anyAssigns name decl.params || decl.body.assigns name) := by
  cases decl
  rw [functionAssigns]

/-! ## Variables -/

structure Variable where
  frame : FrameId
  name : String

def Scope.Sees (scope : Scope) (x : Variable) : Prop :=
  x.frame ∈ scope.frames

/-- A closure that does not assign to a variable. A declaration in its body is one in a frame that
its call makes. -/
def Variable.SparedBy (x : Variable) (c : Closure) : Prop :=
  c.scope.Sees x → Param.anyAssigns x.name c.params = false ∧ c.body.assigns x.name = false

def Variable.spared (x : Variable) : Contents :=
  .closures x.SparedBy

variable {x : Variable}

theorem Scope.sees_child {scope : Scope} {id : FrameId} (hid : id ≠ x.frame) :
    (scope.child id).Sees x ↔ scope.Sees x := by
  have hne : x.frame ≠ id := Ne.symm hid
  constructor
  · intro h
    exact (List.mem_cons.mp h).resolve_left hne
  · exact List.mem_cons_of_mem id

end ClassScript
