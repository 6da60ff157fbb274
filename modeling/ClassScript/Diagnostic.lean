import ClassScript.Syntax.Access
import ClassScript.Token.Basic

/-!
# What can be wrong with a source text

Each fault is a cause with a place. The causes carry what their message quotes; all wording is in
`message`.
-/

namespace ClassScript

/-- Why a text cannot be cut into tokens. -/
inductive LexCause where
  | unterminatedComment
  | unterminatedString
  | unterminatedRegex
  | unbalancedOpen
  | unbalancedClose
  | secondPoint
  | invalidDigit (digit : Char) (base : Nat)
  | noDigits (base : Nat)
  | tooLarge (base : Nat)
  | unexpectedChar (char : Char)
deriving Repr, DecidableEq

def LexCause.message : LexCause → String
  | .unterminatedComment => "unterminated block comment"
  | .unterminatedString => "unterminated string literal"
  | .unterminatedRegex => "unterminated regex literal"
  | .unbalancedOpen => "unbalanced '\x7b' in string literal"
  | .unbalancedClose => "unbalanced '\x7d' in string literal"
  | .secondPoint => "malformed number: second decimal point"
  | .invalidDigit digit base => s!"invalid digit '{digit}' in base {base} literal"
  | .noDigits base => s!"base {base} literal has no digits"
  | .tooLarge base => s!"base {base} literal is too large"
  | .unexpectedChar char => s!"unexpected character '{char}'"

inductive Accessor where
  | getter | setter
deriving Repr, DecidableEq, Inhabited

def Accessor.text : Accessor → String
  | .getter => "getter"
  | .setter => "setter"

inductive GrammarCause where
  | unexpected
  | malformedNumber
  /-- Code that a string embeds is wrong; the message is the one about the code. -/
  | interpolation (code message : String)
  | duplicateStatic
  | duplicateAccess (earlier : Access)
  | duplicateAccessor (accessor : Accessor) (property : String)
  | memberTerminator
deriving Repr, DecidableEq

def GrammarCause.message (token : Token) : GrammarCause → String
  | .unexpected => s!"Unexpected token '{token.text}'"
  | .malformedNumber => s!"Malformed number '{token.value}'"
  | .interpolation code message => s!"In interpolation '\x7b{code}\x7d': {message}"
  | .duplicateStatic => "Duplicate 'static' modifier"
  | .duplicateAccess earlier => s!"Accessibility is already '{earlier.text}'"
  | .duplicateAccessor accessor property => s!"Property '{property}' already has a {accessor.text}"
  | .memberTerminator => s!"Expected ';' or '\x7d' after class member, found '{token.text}'"

inductive Diagnostic where
  | lexical (cause : LexCause) (position : Position) (span : Span)
  | grammatical (cause : GrammarCause) (token : Token)
deriving Repr, DecidableEq

namespace Diagnostic

def message : Diagnostic → String
  | .lexical cause _ _ => cause.message
  | .grammatical cause token => cause.message token

def position : Diagnostic → Position
  | .lexical _ position _ => position
  | .grammatical _ token => token.position

def span : Diagnostic → Span
  | .lexical _ _ span => span
  | .grammatical _ token => token.span

/-- The source line with a mark under the fault. -/
def snippet (d : Diagnostic) : String :=
  d.position.snippet d.span.length

/-- The message with the kind of fault before it. -/
def text : Diagnostic → String
  | .lexical cause _ _ => "LexError: " ++ cause.message
  | .grammatical cause token => "SyntaxError: " ++ cause.message token

end Diagnostic

end ClassScript
