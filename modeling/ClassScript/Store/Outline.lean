import ClassScript.Store.Heap
import ClassScript.Syntax.Outline
import ClassScript.Value.Overloads

/-!
# Outlines of functions, members and containers

One line of text for each, for readers who want to see what a store holds.
-/

namespace ClassScript

namespace Overload

def outline (o : Overload) : String :=
  let code := match o.code with
    | .native _ => "native"
    | .script body _ => body.outline
  let owner := o.owner.getD "-"
  let head := s!"({Param.outlines o.params}) {outlineOption Ty.text o.returnType}"
  s!"{head} owner={owner} required={o.requiredCount} {code}"

end Overload

namespace Member

def outline (ls : Lists) (m : Member) : String :=
  let form := match m.form with
    | .field readonly => if readonly then "const" else "var"
    | .property getter setter =>
      "prop" ++ (if getter.isSome then " get" else "") ++ (if setter.isSome then " set" else "")
  s!"{m.access.text} {form} {m.owner} {m.ty.text} = {ls.shown m.value}"

end Member

namespace Container

def kindOutline (c : Container) : String :=
  match c.kind with
  | .classOf none => "class"
  | .classOf (some parent) => s!"class of #{parent}"
  | .instanceOf cls => s!"instance of #{cls}"

def operatorOutlines (c : Container) : List String :=
  let binary := c.binaryOps.entries.map fun (op, f) =>
    s!"binary {op.text} {f.name}/{f.overloads.length}"
  let unary := c.unaryOps.entries.map fun (op, f) =>
    s!"unary {op.text} {f.name}/{f.overloads.length}"
  (binary ++ unary).mergeSort fun a b => decide (a ≤ b)

end Container

end ClassScript
