import ClassScript.Run.Session

/-!
# The command line

`run FILE [--debug] [--max-depth N]` runs a program and prints its value; `check FILE` says whether
a file can be parsed. What a command does is a function of its arguments and of the file.
-/

namespace ClassScript

inductive Command where
  /-- Run a program. `debug` asks for reports of what goes on inside; it changes no result. -/
  | run (file : String) (debug : Bool) (maxDepth : Option Nat)
  | check (file : String)
deriving Repr, DecidableEq

namespace Command

/-! ## Arguments -/

/-- A number of calls: digits, perhaps after a plus sign, that fit 64 bits. -/
def depth? (text : String) : Option Nat :=
  let digits := match text.toList with
    | '+' :: digits => digits
    | digits => digits
  if digits.isEmpty || !digits.all Char.isDigit then none
  else
    let n := digits.foldl (fun n c => n * 10 + (c.toNat - '0'.toNat)) 0
    if n < UInt64.size then some n else none

/-- What the arguments of a command have given so far. -/
structure Given where
  file : Option String := none
  debug : Bool := false
  maxDepth : Option Nat := none

namespace Given

/-- A command takes one file, with a name that is not empty. -/
def addFile (g : Given) (file : String) : Option Given :=
  if g.file.isSome || file.isEmpty then none else some { g with file := some file }

/-- An option can be given once. -/
def addDebug (g : Given) : Option Given :=
  if g.debug then none else some { g with debug := true }

def addDepth (g : Given) (text : String) : Option Given :=
  match g.maxDepth, depth? text with
  | none, some n => some { g with maxDepth := some n }
  | _, _ => none

/-- Arguments that can only be files. -/
def addFiles (g : Given) : List String → Option Given
  | [] => some g
  | file :: files => do (← g.addFile file).addFiles files

end Given

/-- Whether an argument can be the name of a file or a value, and not an option. -/
def isPlain (arg : String) : Bool :=
  arg = "-" || arg.toList.head? != some '-'

/-- The text of a value that is written in one argument with its option. -/
def depthValue? (arg : String) : Option String :=
  let head := "--max-depth=".toList
  if head.isPrefixOf arg.toList then some (String.ofList (arg.toList.drop head.length)) else none

def runArgs : Given → List String → Option Given
  | g, [] => some g
  | g, "--" :: files => g.addFiles files
  | g, "--debug" :: args => do runArgs (← g.addDebug) args
  | g, "--max-depth" :: value :: args =>
    if isPlain value then do runArgs (← g.addDepth value) args else none
  | g, arg :: args =>
    match depthValue? arg with
    | some value => do runArgs (← g.addDepth value) args
    | none => if isPlain arg then do runArgs (← g.addFile arg) args else none

def checkArgs : Given → List String → Option Given
  | g, [] => some g
  | g, "--" :: files => g.addFiles files
  | g, arg :: args => if isPlain arg then do checkArgs (← g.addFile arg) args else none

def ofArgs? : List String → Option Command
  | "run" :: args => do
    let g ← runArgs {} args
    return .run (← g.file) g.debug g.maxDepth
  | "check" :: args => do
    let g ← checkArgs {} args
    return .check (← g.file)
  | _ => none

/-! ## Effects -/

inductive FileProblem where
  | missing
  | denied
  | directory
  | notDirectory
  | notText
deriving Repr, DecidableEq

def FileProblem.text : FileProblem → String
  | .missing => "No such file or directory (os error 2)"
  | .denied => "Permission denied (os error 13)"
  | .directory => "Is a directory (os error 21)"
  | .notDirectory => "Not a directory (os error 20)"
  | .notText => "stream did not contain valid UTF-8"

def decode (bytes : ByteArray) : Except FileProblem String :=
  match String.fromUTF8? bytes with
  | some text => .ok text
  | none => .error .notText

/-- What a command leaves behind: the code that it ends with, and the texts that it prints. -/
structure Report where
  status : UInt32 := 0
  out : String := ""
  err : String := ""
deriving Repr, DecidableEq

namespace Report

def failed (out message : String) : Report :=
  { status := 1, out, err := s!"Error: {message}\n" }

def misuse : Report :=
  { status := 2, err := "error: usage: run FILE [--debug] [--max-depth N] | check FILE\n" }

end Report

/-- Run a program, and print its value unless there is none or it is null. -/
def runText (config : Config) (text file : String) : Report :=
  let session : Session := { config }
  let (result, session) := session.run text file
  let out := session.state.sink.text
  match result with
  | .error failure => .failed out failure.text
  | .ok none | .ok (some .null) => { out }
  | .ok (some value) =>
    match session.state.textOf value with
    | .ok text => { out := out ++ text ++ "\n" }
    | .error f => .failed out f.text

/-- Parse a program, and count its statements. -/
def checkText (text file : String) : Report :=
  match Session.statements text file with
  | .ok program => { out := s!"✓ {file} parses successfully ({program.length} statements)\n" }
  | .error d => .failed "" d.text

def file : Command → String
  | .run file .. => file
  | .check file => file

def perform (c : Command) (content : Except FileProblem String) : Report :=
  match content with
  | .error problem => .failed "" problem.text
  | .ok text =>
    match c with
    | .run file _ maxDepth =>
      let config : Config := {}
      runText { config with maxDepth := maxDepth.getD config.maxDepth } text file
    | .check file => checkText text file

end Command

end ClassScript
