import ClassScript.Number.Decimal
import ClassScript.Syntax.Stmt
import ClassScript.Text.Quoted

/-!
# Outlines of trees

A tree as one line of nested parentheses, with the name of each form first and `-` for a part that
is not there.
-/

namespace ClassScript

def outlineOption {α : Type} (outline : α → String) : Option α → String
  | some a => outline a
  | none => "-"

mutual

def Expr.outline : Expr → String
  | .number value => Number.printed.text value
  | .string value => Text.quote value
  | .boolean value => if value then "true" else "false"
  | .null => "null"
  | .template parts => "(template" ++ TemplatePart.outlines parts ++ ")"
  | .list items => "(list" ++ Expr.outlines items ++ ")"
  | .var name => "$" ++ name
  | .binary op left right => s!"({op.text} {left.outline} {right.outline})"
  | .unary op operand => s!"(unary {op.text} {operand.outline})"
  | .assign name value => s!"(assign {name} {value.outline})"
  | .call callee args => s!"(call {callee.outline}{Expr.outlines args})"
  | .index target position => s!"(index {target.outline} {position.outline})"
  | .indexSet target position value =>
    s!"(index-set {target.outline} {position.outline} {value.outline})"
  | .member object name => s!"(member {object.outline} {name})"
  | .memberSet object name value => s!"(member-set {object.outline} {name} {value.outline})"

def Expr.outlines : List Expr → String
  | [] => ""
  | e :: es => " " ++ e.outline ++ Expr.outlines es

def TemplatePart.outlines : List TemplatePart → String
  | [] => ""
  | .text value :: parts => " " ++ Text.quote value ++ TemplatePart.outlines parts
  | .code e :: parts => " \x7b" ++ e.outline ++ "\x7d" ++ TemplatePart.outlines parts

end

def Param.outline (p : Param) : String :=
  match p.default with
  | some value => s!"{p.name}: {p.ty.text} = {value.outline}"
  | none => s!"{p.name}: {p.ty.text}"

def Param.outlines (ps : List Param) : String :=
  ", ".intercalate (ps.map outline)

mutual

def Stmt.outline : Stmt → String
  | .expr value => s!"(expr {value.outline})"
  | .var name ty value =>
    s!"(var {name} {outlineOption Ty.text ty} {outlineOption Expr.outline value})"
  | .const name value => s!"(const {name} {value.outline})"
  | .function decl => functionOutline decl
  | .classDecl decl => classOutline decl
  | .ifElse condition thenBranch elseBranch =>
    s!"(if {condition.outline} {thenBranch.outline} {optionOutline elseBranch})"
  | .forLoop counter start stop step body =>
    let head := s!"{counter} {start.outline} {stop.outline} {outlineOption Expr.outline step}"
    s!"(for {head} {body.outline})"
  | .whileLoop condition body => s!"(while {condition.outline} {body.outline})"
  | .doWhile body condition => s!"(do {body.outline} {condition.outline})"
  | .ret value => s!"(return {outlineOption Expr.outline value})"
  | .block body => "(block" ++ Stmt.outlines body ++ ")"

def Stmt.outlines : List Stmt → String
  | [] => ""
  | s :: ss => " " ++ s.outline ++ Stmt.outlines ss

def optionOutline : Option Stmt → String
  | some s => s.outline
  | none => "-"

def functionOutline : FunctionOf Stmt → String
  | ⟨name, params, returnType, body⟩ =>
    let head := s!"{Text.quote name} ({Param.outlines params}) {outlineOption Ty.text returnType}"
    s!"(fn {head} {body.outline})"

def accessorOutline : Option (FunctionOf Stmt) → String
  | some decl => functionOutline decl
  | none => "-"

def memberBodyOutline : MemberBodyOf Stmt → String
  | .field _ readonly ty value =>
    let word := if readonly then "const" else "var"
    s!"{word} {outlineOption Ty.text ty} {outlineOption Expr.outline value}"
  | .property _ ty getter setter value =>
    let accessors := s!"{accessorOutline getter} {accessorOutline setter}"
    s!"prop {outlineOption Ty.text ty} {accessors} {outlineOption Expr.outline value}"
  | .method decl => s!"method {functionOutline decl}"
  | .constructor decl => s!"constructor {functionOutline decl}"
  | .binary op decl => s!"binary {op.text} {functionOutline decl}"
  | .unary op decl => s!"unary {op.text} {functionOutline decl}"

def memberOutlines : List (MemberOf Stmt) → String
  | [] => ""
  | ⟨access, isStatic, body⟩ :: members =>
    let place := if isStatic then "static" else "instance"
    let head := s!"{access.text} {place} {Text.quote body.name}"
    s!" (member {head} {memberBodyOutline body})" ++ memberOutlines members

def classOutline : ClassOf Stmt → String
  | ⟨name, bases, members⟩ =>
    let bases := " ".intercalate (bases.map Ty.text)
    s!"(class {name} ({bases}){memberOutlines members})"

end

end ClassScript
