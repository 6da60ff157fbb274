import ClassScript.Parse.Expression

/-!
# The grammar of expressions as a relation

Which tokens have which tree. The operators have their levels here, from 0 for the loosest to 7 for
the tightest, and an operation of a level has operands of the next level on its right. Level 8 are
operands with signs before them.

The relation is generative: it says nothing of how tokens are read, of what comes next or of what
was tried before. The tree of a string token is a parameter, as it is for the parser.
-/

namespace ClassScript

/-! ## Operators -/

def BinOp.sign : BinOp → Symbol
  | .bitOr => .bar
  | .bitXor => .caret
  | .bitAnd => .amp
  | .eq => .eqEq
  | .ne => .notEq
  | .lt => .lt
  | .le => .ltEq
  | .gt => .gt
  | .ge => .gtEq
  | .add => .plus
  | .sub => .minus
  | .mul => .star
  | .div => .slash
  | .intDiv => .slashSlash
  | .rem => .percent
  | .pow => .starStar

def BinOp.level : BinOp → Nat
  | .bitOr => 0
  | .bitXor => 1
  | .bitAnd => 2
  | .eq | .ne => 3
  | .lt | .le | .gt | .ge => 4
  | .add | .sub => 5
  | .mul | .div | .intDiv | .rem => 6
  | .pow => 7

def UnOp.sign : UnOp → Symbol
  | .bitNot => .tilde
  | .not => .bang
  | .plus => .plus
  | .neg => .minus

namespace Grammar

/-- The sign of an assignment that first operates on the old value, or of one that does not. -/
def assignSign? : Option BinOp → Option Symbol
  | none => some .eq
  | some .add => some .plusEq
  | some .sub => some .minusEq
  | some .mul => some .starEq
  | some .pow => some .starStarEq
  | some .div => some .slashEq
  | some .intDiv => some .slashSlashEq
  | some .rem => some .percentEq
  | some .bitAnd => some .ampEq
  | some .bitOr => some .barEq
  | some .bitXor => some .caretEq
  | some .eq | some .ne | some .lt | some .le | some .gt | some .ge => none

def stored (op : Option BinOp) (old value : Expr) : Expr :=
  op.elim value fun op => .binary op old value

def Sign (s : Symbol) (t : Token) : Prop :=
  t.kind = .symbol s

def AssignSign (op : Option BinOp) (t : Token) : Prop :=
  ∃ s, assignSign? op = some s ∧ Sign s t

/-! ## Phrases -/

inductive Leaf (string : Parser.StringRule) : Token → Expr → Prop
  | number {t : Token} {e : Expr} (hkind : t.kind = .number)
      (htree : Parser.numberLiteral t = .ok e) : Leaf string t e
  | string {t : Token} {e : Expr} (quote : Quote) (hkind : t.kind = .string quote)
      (htree : string t = .ok e) : Leaf string t e
  | true {t : Token} (hkind : t.kind = .keyword .trueKw) : Leaf string t (.boolean true)
  | false {t : Token} (hkind : t.kind = .keyword .falseKw) : Leaf string t (.boolean false)
  | null {t : Token} (hkind : t.kind = .keyword .nullKw) : Leaf string t .null
  | name {t : Token} (hkind : t.kind = .identifier) : Leaf string t (.var t.value)
  | this {t : Token} (hkind : t.kind = .keyword .thisKw) : Leaf string t (.var "this")

inductive Phrase where
  /-- Any expression. -/
  | assign
  /-- An operation of a level or tighter. -/
  | level (n : Nat)
  /-- An operand with signs before it. -/
  | signed
  /-- An operand with calls, indexes and members behind it. -/
  | suffixed
  | primary
  /-- One or more expressions with commas between them. -/
  | row
  /-- Any number of expressions with commas between them; one may stand behind the last. -/
  | items

open Phrase

/-- The tokens of a phrase and its tree. Several expressions in a row have the tree of a list. -/
inductive Derives (string : Parser.StringRule) : Phrase → List Token → Expr → Prop
  -- assignments
  | assignName {name sign : Token} {op : Option BinOp} {us : List Token} {value : Expr}
      (hname : name.kind = .identifier) (hsign : AssignSign op sign)
      (hvalue : Derives string assign us value) :
      Derives string assign (name :: sign :: us)
        (.assign name.value (stored op (.var name.value) value))
  | assignMember {ts us : List Token} {sign : Token} {op : Option BinOp} {object value : Expr}
      {name : String} (htarget : Derives string (level 0) ts (.member object name))
      (hsign : AssignSign op sign) (hvalue : Derives string assign us value) :
      Derives string assign (ts ++ sign :: us)
        (.memberSet object name (stored op (.member object name) value))
  | assignElement {ts us : List Token} {sign : Token} {op : Option BinOp}
      {list position value : Expr} (htarget : Derives string (level 0) ts (.index list position))
      (hsign : AssignSign op sign) (hvalue : Derives string assign us value) :
      Derives string assign (ts ++ sign :: us)
        (.indexSet list position (stored op (.index list position) value))
  | unassigned {ts : List Token} {e : Expr} (h : Derives string (level 0) ts e) :
      Derives string assign ts e
  -- operations
  | operation {op : BinOp} {ts us : List Token} {sign : Token} {left right : Expr}
      (hleft : Derives string (level op.level) ts left) (hsign : Sign op.sign sign)
      (hright : Derives string (level (op.level + 1)) us right) :
      Derives string (level op.level) (ts ++ sign :: us) (.binary op left right)
  | tighter {n : Nat} {ts : List Token} {e : Expr} (hn : n < 8)
      (h : Derives string (level (n + 1)) ts e) : Derives string (level n) ts e
  | tightest {ts : List Token} {e : Expr} (h : Derives string signed ts e) :
      Derives string (level 8) ts e
  | sign {op : UnOp} {sign : Token} {ts : List Token} {e : Expr} (hsign : Sign op.sign sign)
      (h : Derives string signed ts e) : Derives string signed (sign :: ts) (.unary op e)
  | unsigned {ts : List Token} {e : Expr} (h : Derives string suffixed ts e) :
      Derives string signed ts e
  -- what stands behind an operand
  | emptyCall {ts : List Token} {opening closing : Token} {callee : Expr}
      (hcallee : Derives string suffixed ts callee) (hopening : Sign .lParen opening)
      (hclosing : Sign .rParen closing) :
      Derives string suffixed (ts ++ [opening, closing]) (.call callee [])
  | call {ts us : List Token} {opening closing : Token} {callee : Expr} {args : List Expr}
      (hcallee : Derives string suffixed ts callee) (hopening : Sign .lParen opening)
      (hargs : Derives string row us (.list args)) (hclosing : Sign .rParen closing) :
      Derives string suffixed (ts ++ opening :: us ++ [closing]) (.call callee args)
  | index {ts us : List Token} {opening closing : Token} {target position : Expr}
      (htarget : Derives string suffixed ts target) (hopening : Sign .lBracket opening)
      (hposition : Derives string assign us position) (hclosing : Sign .rBracket closing) :
      Derives string suffixed (ts ++ opening :: us ++ [closing]) (.index target position)
  | member {ts : List Token} {dot name : Token} {object : Expr}
      (hobject : Derives string suffixed ts object) (hdot : Sign .dot dot)
      (hname : name.kind = .identifier) :
      Derives string suffixed (ts ++ [dot, name]) (.member object name.value)
  | bare {ts : List Token} {e : Expr} (h : Derives string primary ts e) :
      Derives string suffixed ts e
  -- operands
  | parens {ts : List Token} {opening closing : Token} {e : Expr} (hopening : Sign .lParen opening)
      (h : Derives string assign ts e) (hclosing : Sign .rParen closing) :
      Derives string primary (opening :: ts ++ [closing]) e
  | list {ts : List Token} {opening closing : Token} {es : List Expr}
      (hopening : Sign .lBracket opening) (h : Derives string items ts (.list es))
      (hclosing : Sign .rBracket closing) :
      Derives string primary (opening :: ts ++ [closing]) (.list es)
  | leaf {t : Token} {e : Expr} (h : Leaf string t e) : Derives string primary [t] e
  -- rows of expressions
  | one {ts : List Token} {e : Expr} (h : Derives string assign ts e) :
      Derives string row ts (.list [e])
  | more {ts us : List Token} {comma : Token} {e : Expr} {es : List Expr}
      (h : Derives string assign ts e) (hcomma : Sign .comma comma)
      (hrest : Derives string row us (.list es)) :
      Derives string row (ts ++ comma :: us) (.list (e :: es))
  | noItem : Derives string items [] (.list [])
  | lastItem {ts : List Token} {e : Expr} (h : Derives string assign ts e) :
      Derives string items ts (.list [e])
  | nextItem {ts us : List Token} {comma : Token} {e : Expr} {es : List Expr}
      (h : Derives string assign ts e) (hcomma : Sign .comma comma)
      (hrest : Derives string items us (.list es)) :
      Derives string items (ts ++ comma :: us) (.list (e :: es))

/-- An operand is an expression. -/
theorem Derives.of_primary {string : Parser.StringRule} {ts : List Token} {e : Expr}
    (h : Derives string primary ts e) : Derives string assign ts e := by
  have hlevel : Derives string (level 8) ts e := .tightest (.unsigned (.bare h))
  exact .unassigned (.tighter (by decide) (.tighter (by decide) (.tighter (by decide)
    (.tighter (by decide) (.tighter (by decide) (.tighter (by decide) (.tighter (by decide)
    (.tighter (by decide) hlevel))))))))

/-! ## The tokens of a phrase -/

theorem Leaf.kind_ne_finish {string : Parser.StringRule} {t : Token} {e : Expr}
    (h : Leaf string t e) : t.kind ≠ .finish := by
  cases h <;> simp [*]

theorem Leaf.mono {string string' : Parser.StringRule} {t : Token} {e : Expr}
    (h : Leaf string t e)
    (ht : ∀ quote, t.kind = .string quote → ∀ e, string t = .ok e → string' t = .ok e) :
    Leaf string' t e := by
  cases h with
  | string quote hkind htree => exact .string quote hkind (ht quote hkind e htree)
  | number hkind htree => exact .number hkind htree
  | true hkind => exact .true hkind
  | false hkind => exact .false hkind
  | null hkind => exact .null hkind
  | name hkind => exact .name hkind
  | this hkind => exact .this hkind

theorem Sign.kind_ne_finish {s : Symbol} {t : Token} (h : Sign s t) : t.kind ≠ .finish := by
  rw [show t.kind = .symbol s from h]
  simp

theorem AssignSign.kind_ne_finish {op : Option BinOp} {t : Token} (h : AssignSign op t) :
    t.kind ≠ .finish := by
  obtain ⟨s, -, hs⟩ := h
  exact hs.kind_ne_finish

/-- The end of the input is part of no phrase. -/
theorem Derives.kind_ne_finish {string : Parser.StringRule} {phrase : Phrase} {ts : List Token}
    {e : Expr} (h : Derives string phrase ts e) : ∀ t ∈ ts, t.kind ≠ .finish := by
  induction h <;>
    grind [Leaf.kind_ne_finish, Sign.kind_ne_finish, AssignSign.kind_ne_finish]

/-- A phrase keeps its tree when the string tokens in it keep theirs. -/
theorem Derives.mono {string string' : Parser.StringRule} {phrase : Phrase} {ts : List Token}
    {e : Expr} (h : Derives string phrase ts e) :
    (∀ t ∈ ts, ∀ quote, t.kind = .string quote → ∀ e, string t = .ok e → string' t = .ok e) →
      Derives string' phrase ts e := by
  induction h with
  | assignName hname hsign _ ih =>
      intro hts
      exact .assignName hname hsign (ih (by grind))
  | assignMember _ hsign _ ihtarget ihvalue =>
      intro hts
      exact .assignMember (ihtarget (by grind)) hsign (ihvalue (by grind))
  | assignElement _ hsign _ ihtarget ihvalue =>
      intro hts
      exact .assignElement (ihtarget (by grind)) hsign (ihvalue (by grind))
  | unassigned _ ih => exact fun hts => .unassigned (ih hts)
  | operation _ hsign _ ihleft ihright =>
      intro hts
      exact .operation (ihleft (by grind)) hsign (ihright (by grind))
  | tighter hn _ ih => exact fun hts => .tighter hn (ih hts)
  | tightest _ ih => exact fun hts => .tightest (ih hts)
  | sign hsign _ ih =>
      intro hts
      exact .sign hsign (ih (by grind))
  | unsigned _ ih => exact fun hts => .unsigned (ih hts)
  | emptyCall _ hopening hclosing ih =>
      intro hts
      exact .emptyCall (ih (by grind)) hopening hclosing
  | call _ hopening _ hclosing ihcallee ihargs =>
      intro hts
      exact .call (ihcallee (by grind)) hopening (ihargs (by grind)) hclosing
  | index _ hopening _ hclosing ihtarget ihposition =>
      intro hts
      exact .index (ihtarget (by grind)) hopening (ihposition (by grind)) hclosing
  | member _ hdot hname ih =>
      intro hts
      exact .member (ih (by grind)) hdot hname
  | bare _ ih => exact fun hts => .bare (ih hts)
  | parens hopening _ hclosing ih =>
      intro hts
      exact .parens hopening (ih (by grind)) hclosing
  | list hopening _ hclosing ih =>
      intro hts
      exact .list hopening (ih (by grind)) hclosing
  | leaf h =>
      intro hts
      exact .leaf (h.mono (hts _ (by simp)))
  | one _ ih => exact fun hts => .one (ih hts)
  | more _ hcomma _ ih ihrest =>
      intro hts
      exact .more (ih (by grind)) hcomma (ihrest (by grind))
  | noItem => exact fun _ => .noItem
  | lastItem _ ih => exact fun hts => .lastItem (ih hts)
  | nextItem _ hcomma _ ih ihrest =>
      intro hts
      exact .nextItem (ih (by grind)) hcomma (ihrest (by grind))

end Grammar

end ClassScript
