import ClassScript.Proofs.Reading

/-!
# The parser reads the whole grammar

Every phrase is read as its tree, wherever it stands and whatever comes behind it, as long as that
does not continue the phrase. Operations of one level lean to the left, as do calls, indexes and
members, while the parser reads them in a loop: for these phrases the statement is that reading one
leads into the loop with its tree.
-/

namespace ClassScript

open Grammar
open Grammar.Phrase

/-! ## What can stand before and behind a phrase -/

/-- No two operations have the same sign. -/
theorem BinOp.sign_injective : Function.Injective BinOp.sign := by
  intro op op' h
  have hfind : ∀ op : BinOp,
      Parser.operatorOf? Parser.levels.flatten (.symbol op.sign) = some op := by
    intro op
    cases op <;> rfl
  exact Option.some.inj ((hfind op).symm.trans (h ▸ hfind op'))

namespace Parser

variable {string : StringRule}

/-- A token of this kind does not continue an operand, nor an operation of a level or tighter. -/
structure Stops (n : Nat) (kind : Kind) : Prop where
  not_lParen : kind ≠ .symbol .lParen
  not_lBracket : kind ≠ .symbol .lBracket
  not_dot : kind ≠ .symbol .dot
  not_sign : ∀ op : BinOp, n ≤ op.level → kind ≠ .symbol op.sign

namespace Stops

variable {n m : Nat} {kind : Kind}

theorem mono (h : Stops n kind) (hnm : n ≤ m) : Stops m kind :=
  ⟨h.1, h.2, h.3, fun op hop => h.4 op (Nat.le_trans hnm hop)⟩

/-- The sign of an operation ends its left operand. -/
theorem of_sign (op : BinOp) : Stops (op.level + 1) (.symbol op.sign) := by
  refine ⟨?_, ?_, ?_, ?_⟩
  · cases op <;> simp [BinOp.sign]
  · cases op <;> simp [BinOp.sign]
  · cases op <;> simp [BinOp.sign]
  · intro op' hlevel hsign
    have hop : op = op' := BinOp.sign_injective (Kind.symbol.inj hsign)
    rw [hop] at hlevel
    omega

theorem of_assignSign {op : Option BinOp} {t : Token} (h : AssignSign op t) : Stops 0 t.kind := by
  have hassign : assignment? t.kind = some op := assignment?_eq_some_iff.mpr h
  refine ⟨?_, ?_, ?_, ?_⟩
  · intro hkind
    rw [hkind] at hassign
    cases hassign
  · intro hkind
    rw [hkind] at hassign
    cases hassign
  · intro hkind
    rw [hkind] at hassign
    cases hassign
  · intro op' _ hkind
    rw [hkind] at hassign
    cases op' <;> cases hassign

theorem operatorOf?_eq_none (h : Stops n kind) (hn : n < 8) :
    operatorOf? (levels.getD n []) kind = none := by
  rw [Option.eq_none_iff_forall_ne_some]
  intro op hop
  obtain ⟨hkind, hlevel⟩ := (operatorOf?_eq_some_iff hn).mp hop
  exact h.not_sign op (Nat.le_of_eq hlevel.symm) hkind

end Stops

structure Closes (kind : Kind) : Prop where
  stops : Stops 0 kind
  assignment : assignment? kind = none

theorem Closes.of_eq {kind : Kind}
    (h : kind = .symbol .rParen ∨ kind = .symbol .rBracket ∨ kind = .symbol .comma ∨
      kind = .finish) : Closes kind := by
  rcases h with rfl | rfl | rfl | rfl
  all_goals
    refine ⟨⟨nofun, nofun, nofun, ?_⟩, rfl⟩
    intro op _
    cases op <;> nofun

/-- How the first token of a phrase can be: no phrase but an empty row begins with a bracket that
closes, and no operand with a sign. -/
def Begins : Phrase → Kind → Prop
  | items, _ => True
  | suffixed, kind => kind.closes = false ∧ prefixOf? kind = none
  | .primary, kind => kind.closes = false ∧ prefixOf? kind = none
  | _, kind => kind.closes = false

theorem closes_eq_false_of_prefix {op : UnOp} : (Kind.symbol op.sign).closes = false := by
  cases op <;> rfl

theorem begins_of_leaf {t : Token} {e : Expr} (h : Leaf string t e) :
    t.kind.closes = false ∧ prefixOf? t.kind = none := by
  cases h with
  | number hkind _ => exact hkind ▸ ⟨rfl, rfl⟩
  | string quote hkind _ => exact hkind ▸ ⟨rfl, rfl⟩
  | true hkind => exact hkind ▸ ⟨rfl, rfl⟩
  | false hkind => exact hkind ▸ ⟨rfl, rfl⟩
  | null hkind => exact hkind ▸ ⟨rfl, rfl⟩
  | name hkind => exact hkind ▸ ⟨rfl, rfl⟩
  | this hkind => exact hkind ▸ ⟨rfl, rfl⟩

theorem begins_of_derives {phrase : Phrase} {ts : List Token} {e : Expr}
    (h : Derives string phrase ts e) : ∀ rest, Begins phrase (nextKind (ts ++ rest)) := by
  induction h with
  | assignName hname hsign hvalue ih =>
      intro rest
      change Kind.closes _ = false
      simp [hname, Kind.closes]
  | assignMember htarget hsign hvalue ihtarget ihvalue =>
      intro rest
      rw [List.append_assoc]
      exact ihtarget _
  | assignElement htarget hsign hvalue ihtarget ihvalue =>
      intro rest
      rw [List.append_assoc]
      exact ihtarget _
  | unassigned h ih => exact ih
  | operation hleft hsign hright ihleft ihright =>
      intro rest
      rw [List.append_assoc]
      exact ihleft _
  | tighter hn h ih => exact ih
  | tightest h ih => exact ih
  | @sign op sign ts e hsign h ih =>
      intro rest
      change sign.kind.closes = false
      rw [show sign.kind = .symbol op.sign from hsign]
      exact closes_eq_false_of_prefix
  | unsigned h ih => exact fun rest => (ih rest).1
  | emptyCall hcallee hopening hclosing ih =>
      intro rest
      rw [List.append_assoc]
      exact ih _
  | call hcallee hopening hargs hclosing ihcallee ihargs =>
      intro rest
      rw [List.append_assoc, List.append_assoc]
      exact ihcallee _
  | index htarget hopening hposition hclosing ihtarget ihposition =>
      intro rest
      rw [List.append_assoc, List.append_assoc]
      exact ihtarget _
  | member hobject hdot hname ih =>
      intro rest
      rw [List.append_assoc]
      exact ih _
  | bare h ih => exact ih
  | @parens ts opening closing e hopening h hclosing ih =>
      intro rest
      change opening.kind.closes = false ∧ prefixOf? opening.kind = none
      rw [show opening.kind = .symbol .lParen from hopening]
      exact ⟨rfl, rfl⟩
  | @list ts opening closing es hopening h hclosing ih =>
      intro rest
      change opening.kind.closes = false ∧ prefixOf? opening.kind = none
      rw [show opening.kind = .symbol .lBracket from hopening]
      exact ⟨rfl, rfl⟩
  | leaf h => exact fun _ => begins_of_leaf h
  | one h ih => exact ih
  | more h hcomma hrest ih ihrest =>
      intro rest
      rw [List.append_assoc]
      exact ih _
  | noItem => exact fun _ => trivial
  | lastItem h ih => exact fun _ => trivial
  | nextItem h hcomma hrest ih ihrest => exact fun _ => trivial

/-- A phrase that is no row and no assignment. -/
def Operates : Phrase → Prop
  | level _ | signed | suffixed | .primary => True
  | assign | row | items => False

/-- A phrase without an assignment is not taken for one to a name. When it is a single name, that
depends on what comes behind it. -/
theorem assignedName?_of_derives {phrase : Phrase} {ts : List Token} {e : Expr}
    (h : Derives string phrase ts e) (hphrase : Operates phrase) :
    ∀ passed rest, ((∃ name, e = .var name) → assignment? (nextKind rest) = none) →
      assignedName? ⟨passed, ts ++ rest⟩ = none := by
  induction h with
  | assignName | assignMember | assignElement | unassigned | one | more | noItem | lastItem |
    nextItem => exact hphrase.elim
  | @operation op ts us sign left right hleft hsign hright ihleft ihright =>
      intro passed rest _
      have hnone : assignment? (.symbol op.sign) = none := by cases op <;> rfl
      rw [List.append_assoc]
      exact ihleft trivial passed _ fun _ => (congrArg assignment? hsign).trans hnone
  | tighter hn h ih => exact ih trivial
  | tightest h ih => exact ih trivial
  | @sign op sign ts e hsign h ih =>
      intro passed rest _
      rw [List.cons_append, assignedName?_cons, if_neg]
      simp [show sign.kind = .symbol op.sign from hsign]
  | unsigned h ih => exact ih trivial
  | emptyCall hcallee hopening hclosing ih =>
      intro passed rest _
      rw [List.append_assoc]
      exact ih trivial passed _ fun _ => congrArg assignment? hopening
  | call hcallee hopening hargs hclosing ihcallee ihargs =>
      intro passed rest _
      rw [List.append_assoc, List.append_assoc]
      exact ihcallee trivial passed _ fun _ => congrArg assignment? hopening
  | index htarget hopening hposition hclosing ihtarget ihposition =>
      intro passed rest _
      rw [List.append_assoc, List.append_assoc]
      exact ihtarget trivial passed _ fun _ => congrArg assignment? hopening
  | member hobject hdot hname ih =>
      intro passed rest _
      rw [List.append_assoc]
      exact ih trivial passed _ fun _ => congrArg assignment? hdot
  | bare h ih => exact ih trivial
  | @parens ts opening closing e hopening h hclosing ih =>
      intro passed rest _
      rw [List.append_assoc, List.cons_append, assignedName?_cons, if_neg]
      simp [show opening.kind = .symbol .lParen from hopening]
  | @list ts opening closing es hopening h hclosing ih =>
      intro passed rest _
      rw [List.append_assoc, List.cons_append, assignedName?_cons, if_neg]
      simp [show opening.kind = .symbol .lBracket from hopening]
  | leaf h =>
      intro passed rest hrest
      rw [List.singleton_append, assignedName?_cons]
      cases h with
      | name hkind => rw [if_pos hkind, hrest ⟨_, rfl⟩, Option.map_none]
      | number hkind _ => rw [if_neg (by simp [hkind])]
      | string quote hkind _ => rw [if_neg (by simp [hkind])]
      | true hkind => rw [if_neg (by simp [hkind])]
      | false hkind => rw [if_neg (by simp [hkind])]
      | null hkind => rw [if_neg (by simp [hkind])]
      | this hkind => rw [if_neg (by simp [hkind])]

/-! ## Reading a phrase -/

/-- What is read after an operand of a level: further operands, while the next sign is of that
level. The tightest level has none. -/
def further (operand : Parser Expr) (bound n k : Nat) (e : Expr) : Parser Expr :=
  match levels.drop n with
  | [] => pure e
  | tier :: tighter => chain tier (operation operand bound tighter) k e

def Completes (string : StringRule) : Phrase → List Token → Expr → Prop
  | assign, ts, e => ∀ bound rest, ts.length ≤ bound → Closes (nextKind rest) →
      Leads (expressionAt string bound) ts (pure e) rest
  | level n, ts, e => ∀ bound rest, ts.length ≤ bound + 1 → Stops (n + 1) (nextKind rest) →
      let operand := unary string (expressionAt string bound) (bound + 1)
      ∃ k, bound + 1 ≤ k + ts.length ∧
        Leads (operation operand (bound + 1) (levels.drop n)) ts
          (further operand (bound + 1) n k e) rest
  | signed, ts, e => ∀ bound m rest, m ≤ bound + 1 → ts.length ≤ m → Stops 9 (nextKind rest) →
      Leads (unary string (expressionAt string bound) m) ts (pure e) rest
  | suffixed, ts, e => ∀ bound m rest, m ≤ bound → ts.length ≤ m + 1 →
      let nested := expressionAt string bound
      ∃ k, m + 1 ≤ k + ts.length ∧
        Leads (primary string nested m >>= suffixes nested m) ts (suffixes nested k e) rest
  | .primary, ts, e => ∀ bound m rest, m ≤ bound → ts.length ≤ m + 1 →
      Leads (primary string (expressionAt string bound) m) ts (pure e) rest
  | row, ts, e => ∀ bound k rest es, e = .list es → ts.length ≤ bound → ts.length ≤ k →
      nextKind rest = .symbol .rParen →
      Leads (commaSeparated (expressionAt string bound) k) ts (pure es) rest
  | items, ts, e => ∀ bound k rest es closing, e = .list es → ts.length ≤ bound →
      ts.length + 1 ≤ k → Sign .rBracket closing →
      Leads (primary.elements (expressionAt string bound) k) (ts ++ [closing]) (pure es) rest

theorem leads_acceptSign_of_begins {ts us : List Token} {s : Symbol} {rest : List Token}
    (h : ∀ rest, Begins assign (nextKind (ts ++ rest))) (hs : s.closes = true) :
    Leads (acceptSign s) [] (pure false) (ts ++ us ++ rest) := by
  refine leads_acceptSign_of_ne ?_
  intro hkind
  have hbegins : (nextKind (ts ++ (us ++ rest))).closes = false := h (us ++ rest)
  rw [← List.append_assoc, hkind] at hbegins
  exact absurd hs (by simp [show s.closes = false from hbegins])

/-! ### Rows -/

section Rows

variable {ts us : List Token} {e : Expr} {es : List Expr} {comma : Token}

theorem completes_one (h : Completes string assign ts e) (hne : 1 ≤ ts.length) :
    Completes string row ts (.list [e]) := by
  intro bound k rest es he hbound hk hnext
  cases he
  obtain ⟨k, rfl⟩ : ∃ j, k = j + 1 := ⟨k - 1, by omega⟩
  have hitem := h bound rest hbound (.of_eq (Or.inl hnext))
  have hcomma : Leads (acceptSign .comma) [] (pure false) rest :=
    leads_acceptSign_of_ne (by simp [hnext])
  exact hitem.last (hcomma.last (.refl _ rest))

theorem completes_more (h : Completes string assign ts e) (hcomma : Sign .comma comma)
    (hrow : Completes string row us (.list es)) :
    Completes string row (ts ++ comma :: us) (.list (e :: es)) := by
  intro bound k rest es' he hbound hk hnext
  cases he
  simp only [List.length_append, List.length_cons] at hbound hk
  obtain ⟨k, rfl⟩ : ∃ j, k = j + 1 := ⟨k - 1, by omega⟩
  have hitem := h bound (comma :: us ++ rest) (by omega) (.of_eq (Or.inr (Or.inr (Or.inl hcomma))))
  have hothers := hrow bound k rest es rfl (by omega) (by omega) hnext
  have hsep : Leads (acceptSign .comma) [comma] (pure true) (us ++ rest) := leads_acceptSign hcomma
  exact hitem.bind (hsep.bind (hothers.last (.refl _ rest)))

theorem completes_noItem : Completes string items [] (.list []) := by
  intro bound k rest es closing he hbound hk hclosing
  cases he
  obtain ⟨k, rfl⟩ : ∃ j, k = j + 1 := ⟨k - 1, by simp at hk; omega⟩
  have hend : Leads (acceptSign .rBracket) [closing] (pure true) rest := leads_acceptSign hclosing
  exact hend.last (.refl _ rest)

theorem completes_lastItem (h : Completes string assign ts e)
    (hbegins : ∀ rest, Begins assign (nextKind (ts ++ rest))) :
    Completes string items ts (.list [e]) := by
  intro bound k rest es closing he hbound hk hclosing
  cases he
  obtain ⟨k, rfl⟩ : ∃ j, k = j + 1 := ⟨k - 1, by omega⟩
  have hopen : Leads (acceptSign .rBracket) [] (pure false) (ts ++ [closing] ++ rest) :=
    leads_acceptSign_of_begins hbegins rfl
  have hitem := h bound ([closing] ++ rest) hbound (.of_eq (Or.inr (Or.inl hclosing)))
  have hcomma : Leads (acceptSign .comma) [] (pure false) ([closing] ++ rest) :=
    leads_acceptSign_of_ne (by simp [show closing.kind = _ from hclosing])
  have hend : Leads (expectSign .rBracket) [closing] (pure ()) rest := leads_expectSign hclosing
  exact hopen.bind (hitem.bind (hcomma.bind (hend.last (.refl _ rest))))

theorem completes_nextItem (h : Completes string assign ts e)
    (hbegins : ∀ rest, Begins assign (nextKind (ts ++ rest))) (hcomma : Sign .comma comma)
    (hrow : Completes string items us (.list es)) :
    Completes string items (ts ++ comma :: us) (.list (e :: es)) := by
  intro bound k rest es' closing he hbound hk hclosing
  cases he
  simp only [List.length_append, List.length_cons] at hbound hk
  obtain ⟨k, rfl⟩ : ∃ j, k = j + 1 := ⟨k - 1, by omega⟩
  rw [List.append_assoc]
  have hopen : Leads (acceptSign .rBracket) [] (pure false)
      ((ts ++ (comma :: us ++ [closing])) ++ rest) := leads_acceptSign_of_begins hbegins rfl
  have hitem := h bound ((comma :: us ++ [closing]) ++ rest) (by omega)
    (.of_eq (Or.inr (Or.inr (Or.inl hcomma))))
  have hsep : Leads (acceptSign .comma) [comma] (pure true) ((us ++ [closing]) ++ rest) :=
    leads_acceptSign hcomma
  have hothers := hrow bound k rest es closing rfl (by omega) (by omega) hclosing
  exact hopen.bind (hitem.bind (hsep.bind (hothers.last (.refl _ rest))))

end Rows

/-! ### Operands -/

section Operands

variable {ts us : List Token} {e : Expr} {opening closing : Token}

theorem completes_leaf {t : Token} (h : Leaf string t e) :
    Completes string .primary [t] e := by
  intro bound m rest hm hlength
  unfold primary
  refine (leads_advance h.kind_ne_finish).last ?_
  cases h with
  | number hkind htree =>
      simp only [hkind, htree]
      exact .refl _ rest
  | string quote hkind htree =>
      simp only [hkind, htree]
      exact .refl _ rest
  | true hkind =>
      simp only [hkind]
      exact .refl _ rest
  | false hkind =>
      simp only [hkind]
      exact .refl _ rest
  | null hkind =>
      simp only [hkind]
      exact .refl _ rest
  | name hkind =>
      simp only [hkind]
      exact .refl _ rest
  | this hkind =>
      simp only [hkind]
      exact .refl _ rest

theorem completes_parens (hopening : Sign .lParen opening) (h : Completes string assign ts e)
    (hclosing : Sign .rParen closing) :
    Completes string .primary (opening :: ts ++ [closing]) e := by
  intro bound m rest hm hlength
  simp only [List.length_append, List.length_cons, List.length_nil] at hlength
  have hkind : opening.kind = .symbol .lParen := hopening
  have hinner := h bound ([closing] ++ rest) (by omega) (.of_eq (Or.inl hclosing))
  have hend : Leads (expectSign .rParen) [closing] (pure ()) rest := leads_expectSign hclosing
  have hopen : Leads advance [opening] (pure opening) ((ts ++ [closing]) ++ rest) :=
    leads_advance (by simp [hkind])
  unfold primary
  refine hopen.bind ?_
  simp only [hkind]
  exact hinner.bind (hend.last (.refl _ rest))

theorem completes_list {es : List Expr} (hopening : Sign .lBracket opening)
    (h : Completes string items ts (.list es)) (hclosing : Sign .rBracket closing) :
    Completes string .primary (opening :: ts ++ [closing]) (.list es) := by
  intro bound m rest hm hlength
  simp only [List.length_append, List.length_cons, List.length_nil] at hlength
  have hkind : opening.kind = .symbol .lBracket := hopening
  have hitems := h bound m rest es closing rfl (by omega) (by omega) hclosing
  have hopen : Leads advance [opening] (pure opening) ((ts ++ [closing]) ++ rest) :=
    leads_advance (by simp [hkind])
  unfold primary
  refine hopen.bind ?_
  simp only [hkind]
  exact hitems.last (.refl _ rest)

theorem completes_bare (h : Completes string .primary ts e) (hne : 1 ≤ ts.length) :
    Completes string suffixed ts e := by
  intro bound m rest hm hlength
  have hoperand := h bound m rest hm hlength
  exact ⟨m, by omega, hoperand.last (.refl _ rest)⟩

/-- Reading an operand leads into the loop, also with one thing more behind it. -/
theorem completes_suffix {suffix : List Token} {e' : Expr} (h : Completes string suffixed ts e)
    (hne : 1 ≤ suffix.length)
    (hstep : ∀ bound k rest, suffix.length ≤ bound + 1 → suffix.length ≤ k + 1 →
      Leads (suffixes (expressionAt string bound) (k + 1) e) suffix
        (suffixes (expressionAt string bound) k e') rest) :
    Completes string suffixed (ts ++ suffix) e' := by
  intro bound m rest hm hlength
  rw [List.length_append] at hlength
  obtain ⟨k, hk, hoperand⟩ := h bound m (suffix ++ rest) hm (by omega)
  obtain ⟨k, rfl⟩ : ∃ j, k = j + 1 := ⟨k - 1, by omega⟩
  refine ⟨k, ?_, hoperand.trans (hstep bound k rest (by omega) (by omega))⟩
  rw [List.length_append]
  omega

theorem completes_emptyCall (h : Completes string suffixed ts e) (hopening : Sign .lParen opening)
    (hclosing : Sign .rParen closing) :
    Completes string suffixed (ts ++ [opening, closing]) (.call e []) := by
  refine completes_suffix h (by simp) ?_
  intro bound k rest _ _
  have hopen : Leads (acceptSign .lParen) [opening] (pure true) ([closing] ++ rest) :=
    leads_acceptSign hopening
  have hend : Leads (acceptSign .rParen) [closing] (pure true) rest := leads_acceptSign hclosing
  have hargs : Leads (arguments (expressionAt string bound) k) [closing] (pure []) rest :=
    hend.last (.refl _ rest)
  exact hopen.bind (hargs.last (.refl _ rest))

theorem completes_call {args : List Expr} (h : Completes string suffixed ts e)
    (hopening : Sign .lParen opening) (hrow : Completes string row us (.list args))
    (hbegins : ∀ rest, Begins row (nextKind (us ++ rest))) (hclosing : Sign .rParen closing) :
    Completes string suffixed (ts ++ opening :: us ++ [closing]) (.call e args) := by
  rw [List.append_assoc]
  refine completes_suffix h (by simp) ?_
  intro bound k rest hbound hk
  simp only [List.length_append, List.length_cons, List.length_nil] at hbound hk
  have hopen : Leads (acceptSign .lParen) [opening] (pure true) ((us ++ [closing]) ++ rest) :=
    leads_acceptSign hopening
  have hsome : Leads (acceptSign .rParen) [] (pure false) (us ++ [closing] ++ rest) :=
    leads_acceptSign_of_begins hbegins rfl
  have hitems := hrow bound k ([closing] ++ rest) args rfl (by omega) (by omega) hclosing
  have hend : Leads (expectSign .rParen) [closing] (pure ()) rest := leads_expectSign hclosing
  have hargs : Leads (arguments (expressionAt string bound) k) (us ++ [closing]) (pure args) rest :=
    hsome.bind (hitems.bind (hend.last (.refl _ rest)))
  exact hopen.bind (hargs.last (.refl _ rest))

theorem completes_index {position : Expr} (h : Completes string suffixed ts e)
    (hopening : Sign .lBracket opening) (hposition : Completes string assign us position)
    (hclosing : Sign .rBracket closing) :
    Completes string suffixed (ts ++ opening :: us ++ [closing]) (.index e position) := by
  rw [List.append_assoc]
  refine completes_suffix h (by simp) ?_
  intro bound k rest hbound hk
  simp only [List.length_append, List.length_cons, List.length_nil] at hbound hk
  have hkind : opening.kind = .symbol .lBracket := hopening
  have hcall : Leads (acceptSign .lParen) [] (pure false) ((opening :: us ++ [closing]) ++ rest) :=
    leads_acceptSign_of_ne (by simp [hkind])
  have hopen : Leads (acceptSign .lBracket) [opening] (pure true) ((us ++ [closing]) ++ rest) :=
    leads_acceptSign hopening
  have hinner := hposition bound ([closing] ++ rest) (by omega) (.of_eq (Or.inr (Or.inl hclosing)))
  have hend : Leads (expectSign .rBracket) [closing] (pure ()) rest := leads_expectSign hclosing
  exact hcall.bind (hopen.bind (hinner.bind (hend.last (.refl _ rest))))

theorem completes_member {dot name : Token} (h : Completes string suffixed ts e)
    (hdot : Sign .dot dot) (hname : name.kind = .identifier) :
    Completes string suffixed (ts ++ [dot, name]) (.member e name.value) := by
  refine completes_suffix h (by simp) ?_
  intro bound k rest _ _
  have hkind : dot.kind = .symbol .dot := hdot
  have hcall : Leads (acceptSign .lParen) [] (pure false) ([dot, name] ++ rest) :=
    leads_acceptSign_of_ne (by simp [hkind])
  have hindex : Leads (acceptSign .lBracket) [] (pure false) ([dot, name] ++ rest) :=
    leads_acceptSign_of_ne (by simp [hkind])
  have hopen : Leads (acceptSign .dot) [dot] (pure true) ([name] ++ rest) := leads_acceptSign hdot
  have hend : Leads expectName [name] (pure name.value) rest := leads_expectName hname
  exact hcall.bind (hindex.bind (hopen.bind (hend.last (.refl _ rest))))

theorem leads_suffixes_of_stops {nested : Parser Expr} {n : Nat} {rest : List Token}
    (h : Stops n (nextKind rest)) (k : Nat) (e : Expr) :
    Leads (suffixes nested k e) [] (pure e) rest := by
  cases k with
  | zero => exact .refl _ rest
  | succ k =>
      have hcall : Leads (acceptSign .lParen) [] (pure false) rest :=
        leads_acceptSign_of_ne h.not_lParen
      have hindex : Leads (acceptSign .lBracket) [] (pure false) rest :=
        leads_acceptSign_of_ne h.not_lBracket
      have hdot : Leads (acceptSign .dot) [] (pure false) rest := leads_acceptSign_of_ne h.not_dot
      exact hcall.last (hindex.last (hdot.last (.refl _ rest)))

theorem completes_unsigned (h : Completes string suffixed ts e) (hne : 1 ≤ ts.length)
    (hbegins : ∀ rest, Begins suffixed (nextKind (ts ++ rest))) :
    Completes string signed ts e := by
  intro bound m rest hm hlength hstops
  obtain ⟨m, rfl⟩ : ∃ j, m = j + 1 := ⟨m - 1, by omega⟩
  obtain ⟨k, -, hoperand⟩ := h bound m rest (by omega) hlength
  have hread := hoperand.trans (leads_suffixes_of_stops hstops k e)
  rw [List.append_nil] at hread
  unfold unary
  refine Leads.peek ?_
  rw [show prefixOf? (nextToken (ts ++ rest)).kind = none from (hbegins rest).2]
  exact hread

theorem completes_sign {op : UnOp} {sign : Token} (hsign : Sign op.sign sign)
    (h : Completes string signed ts e) :
    Completes string signed (sign :: ts) (.unary op e) := by
  intro bound m rest hm hlength hstops
  rw [List.length_cons] at hlength
  obtain ⟨m, rfl⟩ : ∃ j, m = j + 1 := ⟨m - 1, by omega⟩
  have hkind : sign.kind = .symbol op.sign := hsign
  have hoperand := h bound m rest (by omega) (by omega) hstops
  have hopen : Leads advance [sign] (pure sign) (ts ++ rest) := leads_advance (by simp [hkind])
  unfold unary
  refine Leads.peek ?_
  rw [show prefixOf? (nextToken (sign :: ts ++ rest)).kind = some op from
    prefixOf?_eq_some_iff.mpr hsign]
  exact hopen.bind (hoperand.last (.refl _ rest))

end Operands

/-! ### Operations -/

section Operations

variable {ts us : List Token} {e : Expr} {n : Nat}

theorem further_of_lt (hn : n < 8) (operand : Parser Expr) (bound k : Nat) (e : Expr) :
    further operand bound n k e =
      chain (levels.getD n []) (operation operand bound (levels.drop (n + 1))) k e := by
  unfold further
  rw [levels_drop hn]

theorem leads_further_of_stops {operand : Parser Expr} {bound : Nat} {rest : List Token}
    (h : Stops n (nextKind rest)) (hn : n ≤ 8) (k : Nat) (e : Expr) :
    Leads (further operand bound n k e) [] (pure e) rest := by
  rcases Nat.lt_or_eq_of_le hn with hlt | rfl
  · rw [further_of_lt hlt]
    cases k with
    | zero => exact .refl _ rest
    | succ k =>
        unfold chain
        refine Leads.peek ?_
        rw [show operatorOf? (levels.getD n []) (nextToken ([] ++ rest)).kind = none from
          h.operatorOf?_eq_none hlt]
        exact .refl _ rest
  · exact .refl _ rest

/-- An operation is read as a whole when what comes behind it does not continue it. -/
theorem Completes.leads_operation (h : Completes string (level n) ts e) (hn : n ≤ 8)
    (bound : Nat) (rest : List Token) (hlength : ts.length ≤ bound + 1)
    (hstops : Stops n (nextKind rest)) :
    Leads (operation (unary string (expressionAt string bound) (bound + 1)) (bound + 1)
      (levels.drop n)) ts (pure e) rest := by
  obtain ⟨k, -, hread⟩ := h bound rest hlength (hstops.mono (Nat.le_succ n))
  have hwhole := hread.trans (leads_further_of_stops hstops hn k e)
  rwa [List.append_nil] at hwhole

theorem completes_tightest (h : Completes string signed ts e) :
    Completes string (level 8) ts e := by
  intro bound rest hlength hstops
  exact ⟨bound + 1, Nat.le_add_right _ _, h bound (bound + 1) rest (Nat.le_refl _) hlength hstops⟩

theorem completes_tighter (hn : n < 8) (h : Completes string (level (n + 1)) ts e) :
    Completes string (level n) ts e := by
  intro bound rest hlength hstops
  have hfirst := h.leads_operation hn bound rest hlength hstops
  refine ⟨bound + 1, Nat.le_add_right _ _, ?_⟩
  rw [levels_drop hn, further_of_lt hn]
  exact hfirst.last (.refl _ rest)

theorem completes_operation {op : BinOp} {sign : Token} {left right : Expr}
    (hleft : Completes string (level op.level) ts left) (hsign : Sign op.sign sign)
    (hright : Completes string (level (op.level + 1)) us right) :
    Completes string (level op.level) (ts ++ sign :: us) (.binary op left right) := by
  intro bound rest hlength hstops
  rw [List.length_append, List.length_cons] at hlength
  have hlevel : op.level < 8 := by cases op <;> decide
  have hkind : sign.kind = .symbol op.sign := hsign
  have hends : Stops (op.level + 1) (nextKind (sign :: us ++ rest)) := by
    rw [List.cons_append, nextKind_cons, hkind]
    exact .of_sign op
  obtain ⟨k, hk, hread⟩ := hleft bound (sign :: us ++ rest) (by omega) hends
  obtain ⟨k, rfl⟩ : ∃ j, k = j + 1 := ⟨k - 1, by omega⟩
  refine ⟨k, ?_, hread.trans ?_⟩
  · rw [List.length_append, List.length_cons]
    omega
  -- one round of the loop
  have hoperand := hright.leads_operation hlevel bound rest (by omega) hstops
  have hopen : Leads advance [sign] (pure sign) (us ++ rest) := leads_advance (by simp [hkind])
  rw [further_of_lt hlevel, further_of_lt hlevel]
  refine Leads.peek ?_
  rw [show operatorOf? (levels.getD op.level []) (nextToken (sign :: us ++ rest)).kind = some op
    from (operatorOf?_eq_some_iff hlevel).mpr ⟨hkind, rfl⟩]
  exact hopen.bind (hoperand.last (.refl _ rest))

end Operations

/-! ### Assignments -/

section Assignments

variable {ts us : List Token} {e value : Expr} {op : Option BinOp} {sign : Token}

theorem completes_unassigned (h : Derives string (level 0) ts e)
    (hread : Completes string (level 0) ts e) (hne : 1 ≤ ts.length) :
    Completes string assign ts e := by
  intro bound rest hbound hcloses
  obtain ⟨bound, rfl⟩ : ∃ j, bound = j + 1 := ⟨bound - 1, by omega⟩
  have htarget := hread.leads_operation (Nat.zero_le 8) bound rest hbound hcloses.stops
  intro passed
  have hname : assignedName? ⟨passed, ts ++ rest⟩ = none :=
    assignedName?_of_derives h trivial passed rest fun _ => hcloses.assignment
  unfold expressionAt assignment
  rw [get_bind, hname]
  refine htarget.last (Leads.peek ?_) passed
  rw [show assignment? (nextToken ([] ++ rest)).kind = none from hcloses.assignment]
  exact .refl _ rest

theorem completes_assignName {name : Token} (hname : name.kind = .identifier)
    (hsign : AssignSign op sign) (hvalue : Completes string assign us value) :
    Completes string assign (name :: sign :: us)
      (.assign name.value (stored op (.var name.value) value)) := by
  intro bound rest hbound hcloses
  simp only [List.length_cons] at hbound
  obtain ⟨bound, rfl⟩ : ∃ j, bound = j + 1 := ⟨bound - 1, by omega⟩
  have hread := hvalue bound rest (by omega) hcloses
  have hpass : Leads advance [name] (pure name) (sign :: us ++ rest) :=
    leads_advance (by simp [hname])
  have hpass' : Leads advance [sign] (pure sign) (us ++ rest) :=
    leads_advance hsign.kind_ne_finish
  intro passed
  have hassigned : assignedName? ⟨passed, name :: sign :: us ++ rest⟩ = some (name.value, op) := by
    rw [List.cons_append, assignedName?_cons, if_pos hname, List.cons_append, nextKind_cons,
      assignment?_eq_some_iff.mpr hsign, Option.map_some]
  unfold expressionAt assignment
  rw [get_bind, hassigned, ← assigned_eq_stored]
  exact hpass.bind (hpass'.bind (hread.last (.refl _ rest))) passed

/-- An assignment to a member or an element, which are the targets that are read as operands. -/
theorem completes_assignTarget {target : Expr} {set : Expr → Expr}
    (htarget : Derives string (level 0) ts target) (hread : Completes string (level 0) ts target)
    (hset : (∃ object name, target = .member object name ∧ set = .memberSet object name) ∨
      ∃ list position, target = .index list position ∧ set = .indexSet list position)
    (hne : 1 ≤ ts.length) (hsign : AssignSign op sign)
    (hvalue : Completes string assign us value) :
    Completes string assign (ts ++ sign :: us) (set (stored op target value)) := by
  intro bound rest hbound hcloses
  rw [List.length_append, List.length_cons] at hbound
  obtain ⟨bound, rfl⟩ : ∃ j, bound = j + 1 := ⟨bound - 1, by omega⟩
  have hoperand := hread.leads_operation (Nat.zero_le 8) bound (sign :: us ++ rest) (by omega)
    (Stops.of_assignSign hsign)
  have hpass : Leads advance [sign] (pure sign) (us ++ rest) :=
    leads_advance hsign.kind_ne_finish
  have hassigned := hvalue bound rest (by omega) hcloses
  have hnoName : ∀ name, target ≠ .var name := by
    rcases hset with ⟨object, name, rfl, -⟩ | ⟨list, position, rfl, -⟩ <;> simp
  intro passed
  have hname : assignedName? ⟨passed, ts ++ (sign :: us ++ rest)⟩ = none :=
    assignedName?_of_derives htarget trivial passed _ fun ⟨name, heq⟩ =>
      absurd heq (hnoName name)
  unfold expressionAt assignment
  rw [get_bind, List.append_assoc, hname, ← assigned_eq_stored, ← List.append_assoc]
  refine hoperand.bind (Leads.peek ?_) passed
  rw [show assignment? (nextToken (sign :: us ++ rest)).kind = some op from
    assignment?_eq_some_iff.mpr hsign]
  rcases hset with ⟨object, name, rfl, rfl⟩ | ⟨list, position, rfl, rfl⟩
  · exact hpass.bind (hassigned.last (.refl _ rest))
  · exact hpass.bind (hassigned.last (.refl _ rest))

end Assignments

/-- Only a row of items can be empty: no other phrase begins with a bracket that closes. -/
theorem length_pos_of_derives {phrase : Phrase} {ts : List Token} {e : Expr}
    (h : Derives string phrase ts e) (hphrase : phrase ≠ items) : 1 ≤ ts.length := by
  cases ts with
  | cons t ts => simp
  | nil =>
      have hbegins := begins_of_derives h [⟨.symbol .rParen, "", default, default⟩]
      cases phrase with
      | items => exact absurd rfl hphrase
      | suffixed => cases hbegins.1
      | primary => cases hbegins.1
      | _ => cases hbegins

/-- Every phrase is read as its tree. -/
theorem completes_of_derives {phrase : Phrase} {ts : List Token} {e : Expr}
    (h : Derives string phrase ts e) : Completes string phrase ts e := by
  induction h with
  | assignName hname hsign _ ih => exact completes_assignName hname hsign ih
  | assignMember htarget hsign _ ihtarget ihvalue =>
      exact completes_assignTarget htarget ihtarget (Or.inl ⟨_, _, rfl, rfl⟩)
        (length_pos_of_derives htarget nofun) hsign ihvalue
  | assignElement htarget hsign _ ihtarget ihvalue =>
      exact completes_assignTarget htarget ihtarget (Or.inr ⟨_, _, rfl, rfl⟩)
        (length_pos_of_derives htarget nofun) hsign ihvalue
  | unassigned h ih => exact completes_unassigned h ih (length_pos_of_derives h nofun)
  | operation _ hsign _ ihleft ihright => exact completes_operation ihleft hsign ihright
  | tighter hn _ ih => exact completes_tighter hn ih
  | tightest _ ih => exact completes_tightest ih
  | sign hsign _ ih => exact completes_sign hsign ih
  | unsigned h ih =>
      exact completes_unsigned ih (length_pos_of_derives h nofun) (begins_of_derives h)
  | emptyCall _ hopening hclosing ih => exact completes_emptyCall ih hopening hclosing
  | call _ hopening hargs hclosing ihcallee ihargs =>
      exact completes_call ihcallee hopening ihargs (begins_of_derives hargs) hclosing
  | index _ hopening _ hclosing ihtarget ihposition =>
      exact completes_index ihtarget hopening ihposition hclosing
  | member _ hdot hname ih => exact completes_member ih hdot hname
  | bare h ih => exact completes_bare ih (length_pos_of_derives h nofun)
  | parens hopening _ hclosing ih => exact completes_parens hopening ih hclosing
  | list hopening _ hclosing ih => exact completes_list hopening ih hclosing
  | leaf h => exact completes_leaf h
  | one h ih => exact completes_one ih (length_pos_of_derives h nofun)
  | more _ hcomma _ ih ihrest => exact completes_more ih hcomma ihrest
  | noItem => exact completes_noItem
  | lastItem h ih => exact completes_lastItem ih (begins_of_derives h)
  | nextItem h hcomma _ ih ihrest =>
      exact completes_nextItem ih (begins_of_derives h) hcomma ihrest

end Parser

end ClassScript
