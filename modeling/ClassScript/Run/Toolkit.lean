import ClassScript.Run.Call

/-!
# A host with a few functions

Small functions for programs that want to look at the interpreter from inside, and a place where
they can keep a value.
-/

namespace ClassScript

namespace Exec

/-- Collect garbage now. What only the running calls hold is garbage too. -/
def collectGarbage : Exec Nat := fun s =>
  let (s, dropped) := s.collectGarbage
  .ok dropped s

end Exec

/-- The functions of the toolkit, by name. Without a result, the caller gets what its return type
starts with. -/
def Host.toolkit : Host := fun call name args => do
  match name, args with
  | "double", .number n :: _ => return some (.number (n * 2.0))
  | "first", value :: _ => return some value
  | "count", args => return some (.number (Float.ofNat args.length))
  | "list", args => return some (← Exec.newList args)
  | "fail", _ => Exec.fault (.hostFailure "native failure")
  | "gc", _ => return some (.number (Float.ofNat (← Exec.collectGarbage)))
  | "heap", _ => return some (.number (Float.ofNat (← get).heap.size))
  | "type", value :: _ => return some (.string (← Exec.ask (·.typeOf value)).text)
  | "stash", value :: _ =>
    modify fun s => { s with kept := some value }
    return Option.none
  | "recall", _ => return (← get).kept
  | "call", .function f :: args => some <$> call f args
  | _, _ => return Option.none

end ClassScript
