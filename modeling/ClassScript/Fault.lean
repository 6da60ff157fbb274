import ClassScript.Number.Decimal
import ClassScript.Syntax.Access
import ClassScript.Syntax.Expr

/-!
# What can go wrong in a run

Each fault carries what its message quotes; all wording is in `message`.
-/

namespace ClassScript

/-- The class of a fault, as programs and their users know it. -/
inductive FaultKind where
  | reference | type | general | index | depth
deriving Repr, DecidableEq

def FaultKind.text : FaultKind → String
  | .reference => "ReferenceError"
  | .type => "TypeError"
  | .general => "RuntimeError"
  | .index => "IndexOutOfBounds"
  | .depth => "StackOverflow"

inductive SlotKind where
  | variable | field
deriving Repr, DecidableEq

def SlotKind.text : SlotKind → String
  | .variable => "variable"
  | .field => "field"

inductive Fault where
  -- names
  | notDefined (name : String) (suggestion : Option String)
  | alreadyDefined (name : String)
  | redefinedConstant (name : String)
  | neitherTypeNorValue (name : String)
  | redeclared (name : String) (ty existing : Ty)
  | notStorable (valueTy : Ty) (slot : SlotKind) (name : String) (ty : Ty)
  -- functions
  | notOverloadable (name : String) (ty : Ty)
  | parameterOrder (param function : String)
  | duplicateOverload (function : String) (params : List Ty)
  | indistinctOverload (function : String) (required : List Ty)
  | noOverload (function : String) (args : List Ty)
  | ambiguousCall (function : String) (count : Nat) (args : List Ty)
  | missingArgument (param function : String)
  | misfitDefault (valueTy : Ty) (param : String) (ty : Ty)
  | misfitResult (valueTy : Ty) (function : String) (ty : Ty)
  | malformedShorthand (text : String)
  | notCallable (text : String)
  | depthExceeded (limit : Nat)
  /-- A host function gives up. -/
  | hostFailure (message : String)
  -- operators
  | noOperation (op : BinOp) (left right : Ty)
  | notNumeric (text : String)
  | badRepetition (factor : Float)
  | repetitionTooLong
  | notIndexable (ty : Ty)
  | outOfBounds (position : Float) (length : Nat)
  | badStep
  -- classes and objects
  | notAClass (name : String)
  | multipleInheritance (name existing : String)
  | duplicateMember (name owner : String)
  | nullMember (name : String)
  | noMember (name type : String)
  | constantMember (type name : String)
  | readOnlyProperty (type name : String)
  | inaccessible (owner name : String) (access : Access)
  | missingObject (handle : Nat)
  -- output
  | outputFailed (reason : String)

namespace Fault

/-- No string that repetition builds is longer, in bytes. -/
def longestRepetition : Nat := 1024 * 1024 * 1024

def kind : Fault → FaultKind
  | .notDefined .. => .reference
  | .outOfBounds .. => .index
  | .depthExceeded .. => .depth
  | .alreadyDefined .. | .redefinedConstant .. | .neitherTypeNorValue .. | .notOverloadable ..
  | .parameterOrder .. | .duplicateOverload .. | .indistinctOverload .. | .ambiguousCall ..
  | .missingArgument .. | .malformedShorthand .. | .repetitionTooLong | .badStep
  | .multipleInheritance .. | .duplicateMember .. | .missingObject .. | .outputFailed .. => .general
  | .redeclared .. | .notStorable .. | .noOverload .. | .misfitDefault .. | .misfitResult ..
  | .notCallable .. | .hostFailure .. | .noOperation .. | .notNumeric .. | .badRepetition ..
  | .notIndexable .. | .notAClass .. | .nullMember .. | .noMember .. | .constantMember ..
  | .readOnlyProperty .. | .inaccessible .. => .type

def message : Fault → String
  | .notDefined name none => s!"'{name}' is not defined"
  | .notDefined name (some suggestion) => s!"'{name}' is not defined, did you mean '{suggestion}'?"
  | .alreadyDefined name => s!"Constant '{name}' is already defined"
  | .redefinedConstant name => s!"Cannot redefine constant '{name}'"
  | .neitherTypeNorValue name => s!"Either type or value should be provided for the variable {name}"
  | .redeclared name ty existing =>
    s!"Cannot convert type {ty.text} to the type {existing.text} of the variable {name}"
  | .notStorable valueTy slot name ty =>
    s!"'{valueTy.text}' type cannot be stored inside of {slot.text} '{name}' with type '{ty.text}'"
  | .notOverloadable name ty => s!"Cannot overload variable '{name}' of type '{ty.text}'"
  | .parameterOrder param function =>
    s!"Required parameter '{param}' of '{function}' follows a parameter with a default value"
  | .duplicateOverload function [] => s!"Overload of '{function}' with no parameters already exists"
  | .duplicateOverload function params =>
    let types := ", ".intercalate (params.map fun t => "'" ++ t.text ++ "'")
    s!"Overload of '{function}' with {params.length} parameters of types {types} already exists"
  | .indistinctOverload function required =>
    s!"Potentially ambiguous overload: {function}({Ty.listText required})"
  | .noOverload function [] => s!"{function}(): Unable to find overload with 0 parameter(s)"
  | .noOverload function args =>
    let count := args.length
    s!"{function}(): Unable to find overload with {count} parameter(s): {Ty.listText args}"
  | .ambiguousCall function count args =>
    let types := if args.isEmpty then "" else " of types " ++ Ty.listText args
    let found := s!"found {count} overloads of '{function}'"
    s!"Ambiguous overload matching: {found} for {args.length} argument(s){types}"
  | .missingArgument param function => s!"Missing argument for parameter '{param}' of '{function}'"
  | .misfitDefault valueTy param ty =>
    let value := s!"Default value of type '{valueTy.text}'"
    s!"{value} does not fit parameter '{param}' of type '{ty.text}'"
  | .misfitResult valueTy function ty =>
    let value := s!"returned value of type '{valueTy.text}'"
    s!"Cannot convert {value} to the return type '{ty.text}' of '{function}'"
  | .malformedShorthand text => s!"Malformed parameter shorthand '{text}'"
  | .notCallable text => s!"Object {text} is not callable"
  | .depthExceeded limit => s!"Maximum call depth of {limit} exceeded"
  | .hostFailure message => message
  | .noOperation op left right => s!"Cannot {op.verb} '{left.text}' and '{right.text}'"
  | .notNumeric text => s!"Cannot convert '{text}' to Number"
  | .badRepetition factor => s!"Cannot multiply 'String' by {Number.quoted.text factor}"
  | .repetitionTooLong => s!"Repeated string would exceed {longestRepetition} bytes"
  | .notIndexable ty => s!"Cannot access indexer of type '{ty.text}'"
  | .outOfBounds position length =>
    s!"Index {Number.quoted.text position} out of bounds for length {length}"
  | .badStep => "For loop step must be a non-zero number"
  | .notAClass name => s!"Type '{name}' is not a class"
  | .multipleInheritance name existing =>
    s!"Multiple inheritance is not allowed: '{name}' already extends '{existing}'"
  | .duplicateMember name owner => s!"Member '{name}' is already defined in class '{owner}'"
  | .nullMember name => s!"Cannot access '{name}' of null"
  | .noMember name type => s!"Field '{name}' is undefined in type '{type}'"
  | .constantMember type name => s!"Cannot reassign {type}.{name}: field is constant"
  | .readOnlyProperty type name => s!"Property '{type}.{name}' is read-only"
  | .inaccessible owner name access =>
    s!"'{owner}.{name}' is {access.text} and cannot be accessed here"
  | .missingObject handle => s!"Object by index {handle} is not on heap"
  | .outputFailed reason => s!"Cannot write output: {reason}"

def text (f : Fault) : String :=
  f.kind.text ++ ": " ++ f.message

end Fault

end ClassScript
