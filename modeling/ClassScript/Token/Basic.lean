import ClassScript.Source.Position

/-!
# Tokens

The words and signs of the language with their spellings, and tokens: a kind, a text, and the place
where it stood.
-/

namespace ClassScript

inductive Quote where
  | single | double | backtick
deriving Repr, DecidableEq, Inhabited

namespace Quote

def char : Quote → Char
  | .single => '\''
  | .double => '"'
  | .backtick => '\x60'

def ofChar? (c : Char) : Option Quote :=
  [Quote.single, .double, .backtick].find? fun q => q.char = c

end Quote

/-- The reserved words. Many have no use in the grammar yet. -/
inductive Keyword where
  | nullKw | trueKw | falseKw | thisKw | superKw | varKw | constKw | propKw | functionKw | classKw
  | structKw | interfaceKw | enumKw | operatorKw | constructorKw | deconstructorKw | typeOfKw
  | fromKw | importKw | exportKw | refKw | ifKw | elseKw | switchKw | forKw | doKw | whileKw
  | tryKw | catchKw | finallyKw | globalKw | publicKw | privateKw | protectedKw | overrideKw
  | sealedKw | staticKw | asyncKw | awaitKw | breakKw | continueKw | throwKw | returnKw | yieldKw
  | inKw | isKw | asKw
deriving Repr, DecidableEq, Inhabited

namespace Keyword

/-- The spellings of all keywords, the usual one first where there are two. -/
def spellings : List (String × Keyword) :=
  [("null", .nullKw), ("true", .trueKw), ("false", .falseKw), ("this", .thisKw),
   ("super", .superKw), ("var", .varKw), ("const", .constKw), ("prop", .propKw),
   ("property", .propKw), ("function", .functionKw), ("func", .functionKw), ("class", .classKw),
   ("struct", .structKw), ("interface", .interfaceKw), ("enum", .enumKw),
   ("operator", .operatorKw), ("constructor", .constructorKw),
   ("deconstructor", .deconstructorKw), ("typeof", .typeOfKw), ("from", .fromKw),
   ("import", .importKw), ("export", .exportKw), ("ref", .refKw), ("if", .ifKw),
   ("else", .elseKw), ("switch", .switchKw), ("for", .forKw), ("do", .doKw), ("while", .whileKw),
   ("try", .tryKw), ("catch", .catchKw), ("finally", .finallyKw), ("global", .globalKw),
   ("public", .publicKw), ("private", .privateKw), ("protected", .protectedKw),
   ("override", .overrideKw), ("sealed", .sealedKw), ("static", .staticKw), ("async", .asyncKw),
   ("await", .awaitKw), ("break", .breakKw), ("continue", .continueKw), ("throw", .throwKw),
   ("return", .returnKw), ("yield", .yieldKw), ("in", .inKw), ("is", .isKw), ("as", .asKw)]

def ofText? (text : String) : Option Keyword :=
  spellings.lookup text

def text (k : Keyword) : String :=
  ((spellings.find? fun entry => entry.2 = k).map Prod.fst).getD ""

end Keyword

inductive Symbol where
  | plus | plusEq | plusPlus | minus | minusEq | minusMinus | star | starEq | starStar
  | starStarEq | slash | slashEq | slashSlash | slashSlashEq | percent | percentEq | eq | eqEq
  | eqEqEq | notEq | notEqEq | bar | barEq | barBar | barBarEq | pipeGt | amp | ampEq | ampAmp
  | ampAmpEq | tilde | caret | caretEq | caretCaret | caretCaretEq | dot | dotDot | comma
  | questionDot | questionQuestion | questionQuestionEq | lt | ltEq | shl | shlEq | gt | gtEq
  | shr | shrEq | uShr | uShrEq | arrow | fatArrow | lParen | rParen | lBracket | rBracket
  | lBrace | rBrace | bang | question | colon | colonColon | semicolon | notIn | notIs
  | questionAs
deriving Repr, DecidableEq, Inhabited

namespace Symbol

def spellings : List (String × Symbol) :=
  [("+", .plus), ("+=", .plusEq), ("++", .plusPlus), ("-", .minus), ("-=", .minusEq),
   ("--", .minusMinus), ("*", .star), ("*=", .starEq), ("**", .starStar), ("**=", .starStarEq),
   ("/", .slash), ("/=", .slashEq), ("//", .slashSlash), ("//=", .slashSlashEq), ("%", .percent),
   ("%=", .percentEq), ("=", .eq), ("==", .eqEq), ("===", .eqEqEq), ("!=", .notEq),
   ("!==", .notEqEq), ("|", .bar), ("|=", .barEq), ("||", .barBar), ("||=", .barBarEq),
   ("|>", .pipeGt), ("&", .amp), ("&=", .ampEq), ("&&", .ampAmp), ("&&=", .ampAmpEq),
   ("~", .tilde), ("^", .caret), ("^=", .caretEq), ("^^", .caretCaret), ("^^=", .caretCaretEq),
   (".", .dot), ("..", .dotDot), (",", .comma), ("?.", .questionDot), ("??", .questionQuestion),
   ("??=", .questionQuestionEq), ("<", .lt), ("<=", .ltEq), ("<<", .shl), ("<<=", .shlEq),
   (">", .gt), (">=", .gtEq), (">>", .shr), (">>=", .shrEq), (">>>", .uShr), (">>>=", .uShrEq),
   ("->", .arrow), ("=>", .fatArrow), ("(", .lParen), (")", .rParen), ("[", .lBracket),
   ("]", .rBracket), ("\x7b", .lBrace), ("\x7d", .rBrace), ("!", .bang), ("?", .question),
   (":", .colon), ("::", .colonColon), (";", .semicolon), ("!in", .notIn), ("!is", .notIs),
   ("?as", .questionAs)]

def longest : Nat := 4

def ofText? (text : String) : Option Symbol :=
  spellings.lookup text

def text (s : Symbol) : String :=
  ((spellings.find? fun entry => entry.2 = s).map Prod.fst).getD ""

/-- The operators whose spelling ends in letters. -/
def isWordy : Symbol → Bool
  | .notIn | .notIs | .questionAs => true
  | _ => false

def closes : Symbol → Bool
  | .rParen | .rBracket | .rBrace => true
  | _ => false

end Symbol

inductive Kind where
  | identifier
  /-- The text is decimal, perhaps with `f` or `c` behind. -/
  | number
  /-- The text is a template: a literal dollar sign, brace or backslash has a backslash before it.
  -/
  | string (quote : Quote)
  | regex
  | keyword (word : Keyword)
  | symbol (sign : Symbol)
  /-- The end of the input. -/
  | finish
deriving Repr, DecidableEq, Inhabited

namespace Kind

def text : Kind → String
  | .identifier => "identifier"
  | .number => "number"
  | .string _ => "string"
  | .regex => "regex"
  | .keyword word => word.text
  | .symbol sign => sign.text
  | .finish => "end of input"

def closes : Kind → Bool
  | .symbol sign => sign.closes
  | _ => false

end Kind

structure Token where
  kind : Kind
  value : String
  position : Position
  span : Span
deriving Repr, DecidableEq, Inhabited

namespace Token

def text (t : Token) : String :=
  if t.kind = .finish then Kind.finish.text else t.value

/-- A word that is a keyword only where the grammar asks for it. -/
def isSoft (t : Token) (word : String) : Bool :=
  t.kind = .identifier && t.value = word

end Token

end ClassScript
