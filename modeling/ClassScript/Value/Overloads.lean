import ClassScript.Text.Letter
import ClassScript.Typing.Assignable
import ClassScript.Value.Basic

/-!
# Overloads

Which overloads a function may have beside each other, and which of them a call selects.
-/

namespace ClassScript

namespace Overload

def native (params : List Param) (returnType : Option Ty) (function : Native) : Overload :=
  { params, returnType, code := .native function, owner := none }

def types (o : Overload) : List Ty :=
  o.params.map Param.ty

/-- The types of the parameters that have no default. -/
def requiredTypes (o : Overload) : List Ty :=
  (o.params.filter Param.required).map Param.ty

def requiredCount (o : Overload) : Nat :=
  (o.params.filter Param.required).length

def acceptsCount (o : Overload) (count : Nat) : Bool :=
  o.requiredCount ≤ count && count ≤ o.params.length

/-- Every argument has the very type of its parameter, and no parameter is left. -/
def exact (o : Overload) (args : List Ty) : Bool :=
  o.types = args

def compatible (lineage : Lineage) (o : Overload) (args : List Ty) : Bool :=
  (o.types.zip args).all fun (param, arg) => Ty.assignable lineage arg param

/-- Those of some overloads that a call with these argument types could mean: the first exact one
alone, or else all compatible ones. The overloads are found in `α` by `overload`. -/
def choices {α : Type} (overload : α → Overload) (lineage : Lineage) (args : List Ty)
    (all : List α) : List α :=
  let fitting := all.filter fun a => (overload a).acceptsCount args.length
  match fitting.find? fun a => (overload a).exact args with
  | some a => [a]
  | none => fitting.filter fun a => (overload a).compatible lineage args

def choose {α : Type} (overload : α → Overload) (function : String) (lineage : Lineage)
    (args : List Ty) (all : List α) : Except Fault α :=
  match choices overload lineage args all with
  | [a] => .ok a
  | [] => .error (.noOverload function args)
  | many => .error (.ambiguousCall function many.length args)

end Overload

/-- The first required parameter behind one that has a default. -/
def misplaced? : (seenDefault : Bool) → List Param → Option Param
  | _, [] => none
  | seenDefault, p :: ps =>
    if p.required && seenDefault then some p else misplaced? (seenDefault || !p.required) ps

def checkOrder (function : String) (params : List Param) : Except Fault Unit :=
  match misplaced? false params with
  | some p => .error (.parameterOrder p.name function)
  | none => .ok ()

namespace Function

/-- Add an overload without any check. -/
def push (f : Function) (o : Overload) : Function :=
  { f with overloads := f.overloads ++ [o] }

/-- Add an overload that can be told from the others: neither all its parameter types nor its
required ones are those of another. -/
def add (f : Function) (o : Overload) : Except Fault Function := do
  checkOrder f.name o.params
  if f.overloads.any fun other => other.types = o.types then
    throw (.duplicateOverload f.name o.types)
  if f.overloads.any fun other => other.requiredTypes = o.requiredTypes then
    throw (.indistinctOverload f.name o.requiredTypes)
  return f.push o

def candidates (f : Function) (lineage : Lineage) (args : List Ty) : List Overload :=
  Overload.choices id lineage args f.overloads

def resolve (f : Function) (lineage : Lineage) (args : List Ty) : Except Fault Overload :=
  Overload.choose id f.name lineage args f.overloads

end Function

/-! ## Shorthands -/

def isWord (cs : List Char) : Bool :=
  cs.head?.any Text.isWordStart && cs.all Text.isWordPart

/-- A parameter written as `name: Type` or `name: ?Type`. -/
def Param.ofShorthand (text : String) : Except Fault Param :=
  let cs := text.toList
  let name := Text.trimEnd (Text.trimStart (cs.takeWhile (· ≠ ':')))
  match cs.dropWhile (· ≠ ':') with
  | [] => .error (.malformedShorthand text)
  | _ :: rest =>
    let ty := Text.trimEnd (Text.trimStart rest)
    let (nullable, ty) := match ty with
      | '?' :: ty => (true, Text.trimStart ty)
      | _ => (false, ty)
    if isWord name && isWord ty then
      .ok { name := String.ofList name, ty := { name := String.ofList ty, nullable } }
    else .error (.malformedShorthand text)

end ClassScript
