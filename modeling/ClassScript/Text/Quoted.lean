/-!
# Quoted text
-/

namespace ClassScript.Text

def quoteChar (c : Char) : List Char :=
  if c = '"' ∨ c = '\\' then ['\\', c] else if c = '\n' then ['\\', 'n'] else [c]

/-- A text between quotation marks: marks and backslashes inside get a backslash, and a newline is
written as one. -/
def quote (s : String) : String :=
  String.ofList ('"' :: s.toList.flatMap quoteChar ++ ['"'])

end ClassScript.Text
