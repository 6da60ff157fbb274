import ClassScript.Proofs.Reading

/-!
# The parser keeps to the grammar

Whatever a parser takes from its cursor is a phrase, with the tree it gives. The loops over further
operands and over what stands behind an operand extend a phrase that was read before.
-/

namespace ClassScript.Parser

open Grammar
open Grammar.Phrase

variable {string : StringRule}

def Reads (string : StringRule) (phrase : Phrase) (p : Parser Expr) : Prop :=
  ∀ ⦃c c' : Cursor⦄ ⦃e : Expr⦄, p c = .ok e c' →
    ∃ ts, c.rest = ts ++ c'.rest ∧ Derives string phrase ts e

/-! ## Rows of expressions -/

section Rows

variable {nested : Parser Expr}

theorem row_of_commaSeparated (hnested : Reads string assign nested) {bound : Nat} :
    ∀ {c c' : Cursor} {es : List Expr}, commaSeparated nested bound c = .ok es c' →
      ∃ ts, c.rest = ts ++ c'.rest ∧ Derives string row ts (.list es) := by
  induction bound with
  | zero =>
      intro c c' es h
      cases h
  | succ bound ih =>
      intro c c' es h
      obtain ⟨first, c₁, hfirst, h₁⟩ := exists_of_bind_eq_ok h
      obtain ⟨ts, hts, hphrase⟩ := hnested hfirst
      obtain ⟨found, c₂, hcomma, h₂⟩ := exists_of_bind_eq_ok h₁
      rcases acceptSign_eq_ok hcomma with ⟨rfl, comma, hcomma, hrest⟩ | ⟨rfl, -, rfl⟩
      · obtain ⟨others, c₃, hothers, h₃⟩ := exists_of_bind_eq_ok h₂
        obtain ⟨rfl, rfl⟩ := pure_eq_ok h₃
        obtain ⟨us, hus, hothers⟩ := ih hothers
        refine ⟨ts ++ comma :: us, ?_, .more hphrase hcomma hothers⟩
        rw [hts, hrest, hus, List.append_assoc, List.cons_append]
      · obtain ⟨rfl, rfl⟩ := pure_eq_ok h₂
        exact ⟨ts, hts, .one hphrase⟩

/-- After its opening bracket a list has its items and the closing one. -/
theorem items_of_elements (hnested : Reads string assign nested) {bound : Nat} :
    ∀ {c c' : Cursor} {es : List Expr}, primary.elements nested bound c = .ok es c' →
      ∃ ts closing, c.rest = ts ++ closing :: c'.rest ∧ Sign .rBracket closing ∧
        Derives string items ts (.list es) := by
  induction bound with
  | zero =>
      intro c c' es h
      cases h
  | succ bound ih =>
      intro c c' es h
      obtain ⟨found, c₁, hclosing, h₁⟩ := exists_of_bind_eq_ok h
      rcases acceptSign_eq_ok hclosing with ⟨rfl, closing, hclosing, hrest⟩ | ⟨rfl, -, rfl⟩
      · obtain ⟨rfl, rfl⟩ := pure_eq_ok h₁
        exact ⟨[], closing, hrest, hclosing, .noItem⟩
      · obtain ⟨first, c₂, hfirst, h₂⟩ := exists_of_bind_eq_ok h₁
        obtain ⟨ts, hts, hphrase⟩ := hnested hfirst
        obtain ⟨found, c₃, hcomma, h₃⟩ := exists_of_bind_eq_ok h₂
        rcases acceptSign_eq_ok hcomma with ⟨rfl, comma, hcomma, hrest⟩ | ⟨rfl, -, rfl⟩
        · obtain ⟨others, c₄, hothers, h₄⟩ := exists_of_bind_eq_ok h₃
          obtain ⟨rfl, rfl⟩ := pure_eq_ok h₄
          obtain ⟨us, closing, hus, hclosing, hothers⟩ := ih hothers
          refine ⟨ts ++ comma :: us, closing, ?_, hclosing, .nextItem hphrase hcomma hothers⟩
          rw [hts, hrest, hus, List.append_assoc, List.cons_append]
        · obtain ⟨_, c₄, hclosing, h₄⟩ := exists_of_bind_eq_ok h₃
          obtain ⟨rfl, rfl⟩ := pure_eq_ok h₄
          obtain ⟨closing, hclosing, hrest⟩ := expectSign_eq_ok hclosing
          exact ⟨ts, closing, hrest ▸ hts, hclosing, .lastItem hphrase⟩

end Rows

/-! ## Operands -/

section Operands

variable {nested : Parser Expr}

theorem reads_primary (hnested : Reads string assign nested) (bound : Nat) :
    Reads string Phrase.primary (primary string nested bound) := by
  intro c c' e h
  unfold primary at h
  obtain ⟨t, d, ht, h₁⟩ := exists_of_bind_eq_ok h
  obtain ⟨-, hrest⟩ := advance_eq_ok ht
  have hleaf : ∀ {kind : Kind}, t.kind = kind → kind ≠ .finish → d = c' → Leaf string t e →
      ∃ ts, c.rest = ts ++ c'.rest ∧ Derives string Phrase.primary ts e := by
    rintro kind rfl hkind rfl hleaf
    exact ⟨[t], hrest hkind, .leaf hleaf⟩
  generalize hkind : t.kind = kind at h₁
  split at h₁
  next =>
      obtain ⟨inner, c₂, hinner, h₂⟩ := exists_of_bind_eq_ok h₁
      obtain ⟨ts, hts, hinner⟩ := hnested hinner
      obtain ⟨_, c₃, hclosing, h₃⟩ := exists_of_bind_eq_ok h₂
      obtain ⟨rfl, rfl⟩ := pure_eq_ok h₃
      obtain ⟨closing, hclosing, hrest'⟩ := expectSign_eq_ok hclosing
      refine ⟨t :: ts ++ [closing], ?_, .parens hkind hinner hclosing⟩
      rw [hrest (by simp [hkind]), hts, hrest']
      simp
  next =>
      obtain ⟨es, c₂, helements, h₂⟩ := exists_of_bind_eq_ok h₁
      obtain ⟨rfl, rfl⟩ := pure_eq_ok h₂
      obtain ⟨ts, closing, hts, hclosing, hitems⟩ := items_of_elements hnested helements
      refine ⟨t :: ts ++ [closing], ?_, .list hkind hitems hclosing⟩
      rw [hrest (by simp [hkind]), hts]
      simp
  next =>
      obtain ⟨htree, hd⟩ := ofExcept_eq_ok h₁
      exact hleaf hkind nofun hd (.number hkind htree)
  next quote =>
      obtain ⟨htree, hd⟩ := ofExcept_eq_ok h₁
      exact hleaf hkind nofun hd (.string quote hkind htree)
  next =>
      obtain ⟨rfl, hd⟩ := pure_eq_ok h₁
      exact hleaf hkind nofun hd (.true hkind)
  next =>
      obtain ⟨rfl, hd⟩ := pure_eq_ok h₁
      exact hleaf hkind nofun hd (.false hkind)
  next =>
      obtain ⟨rfl, hd⟩ := pure_eq_ok h₁
      exact hleaf hkind nofun hd (.null hkind)
  next =>
      obtain ⟨rfl, hd⟩ := pure_eq_ok h₁
      exact hleaf hkind nofun hd (.this hkind)
  next =>
      obtain ⟨rfl, hd⟩ := pure_eq_ok h₁
      exact hleaf hkind nofun hd (.name hkind)
  next => cases h₁

theorem call_of_arguments (hnested : Reads string assign nested) {bound : Nat} {c c' : Cursor}
    {args : List Expr} (h : arguments nested bound c = .ok args c') {ts : List Token}
    {callee : Expr} (hcallee : Derives string suffixed ts callee) {opening : Token}
    (hopening : Sign .lParen opening) :
    ∃ us, c.rest = us ++ c'.rest ∧
      Derives string suffixed (ts ++ opening :: us) (.call callee args) := by
  obtain ⟨found, c₁, hempty, h₁⟩ := exists_of_bind_eq_ok h
  rcases acceptSign_eq_ok hempty with ⟨rfl, closing, hclosing, hrest⟩ | ⟨rfl, -, rfl⟩
  · obtain ⟨rfl, rfl⟩ := pure_eq_ok h₁
    exact ⟨[closing], hrest, .emptyCall hcallee hopening hclosing⟩
  · obtain ⟨args, c₂, hargs, h₂⟩ := exists_of_bind_eq_ok h₁
    obtain ⟨us, hus, hargs⟩ := row_of_commaSeparated hnested hargs
    obtain ⟨_, c₃, hclosing, h₃⟩ := exists_of_bind_eq_ok h₂
    obtain ⟨rfl, rfl⟩ := pure_eq_ok h₃
    obtain ⟨closing, hclosing, hrest⟩ := expectSign_eq_ok hclosing
    refine ⟨us ++ [closing], by rw [hus, hrest]; simp, ?_⟩
    have hcall := Derives.call hcallee hopening hargs hclosing
    rwa [List.append_assoc] at hcall

theorem suffixed_of_suffixes (hnested : Reads string assign nested) {bound : Nat} :
    ∀ {c c' : Cursor} {operand e : Expr} {ts : List Token},
      suffixes nested bound operand c = .ok e c' → Derives string suffixed ts operand →
      ∃ us, c.rest = us ++ c'.rest ∧ Derives string suffixed (ts ++ us) e := by
  induction bound with
  | zero =>
      intro c c' operand e ts h hoperand
      obtain ⟨rfl, rfl⟩ := pure_eq_ok h
      exact ⟨[], rfl, by rwa [List.append_nil]⟩
  | succ bound ih =>
      intro c c' operand e ts h hoperand
      -- a phrase that is longer by some tokens goes on where those tokens end
      have hstep : ∀ {d : Cursor} {operand' : Expr} {us : List Token}, c.rest = us ++ d.rest →
          suffixes nested bound operand' d = .ok e c' →
          Derives string suffixed (ts ++ us) operand' →
          ∃ us, c.rest = us ++ c'.rest ∧ Derives string suffixed (ts ++ us) e := by
        intro d operand' us hus h hoperand'
        obtain ⟨vs, hvs, he⟩ := ih h hoperand'
        refine ⟨us ++ vs, by rw [hus, hvs, List.append_assoc], ?_⟩
        rwa [← List.append_assoc]
      obtain ⟨found, c₁, hopening, h₁⟩ := exists_of_bind_eq_ok h
      rcases acceptSign_eq_ok hopening with ⟨rfl, opening, hopening, hrest⟩ | ⟨rfl, -, rfl⟩
      · obtain ⟨args, c₂, hargs, h₂⟩ := exists_of_bind_eq_ok h₁
        obtain ⟨us, hus, hcall⟩ := call_of_arguments hnested hargs hoperand hopening
        exact hstep (by rw [hrest, hus, List.cons_append]) h₂ hcall
      obtain ⟨found, c₂, hopening, h₂⟩ := exists_of_bind_eq_ok h₁
      rcases acceptSign_eq_ok hopening with ⟨rfl, opening, hopening, hrest⟩ | ⟨rfl, -, rfl⟩
      · obtain ⟨position, c₃, hposition, h₃⟩ := exists_of_bind_eq_ok h₂
        obtain ⟨us, hus, hposition⟩ := hnested hposition
        obtain ⟨_, c₄, hclosing, h₄⟩ := exists_of_bind_eq_ok h₃
        obtain ⟨closing, hclosing, hrest'⟩ := expectSign_eq_ok hclosing
        have hindex := Derives.index hoperand hopening hposition hclosing
        rw [List.append_assoc] at hindex
        exact hstep (by rw [hrest, hus, hrest']; simp) h₄ hindex
      obtain ⟨found, c₃, hdot, h₃⟩ := exists_of_bind_eq_ok h₂
      rcases acceptSign_eq_ok hdot with ⟨rfl, dot, hdot, hrest⟩ | ⟨rfl, -, rfl⟩
      · obtain ⟨name, c₄, hname, h₄⟩ := exists_of_bind_eq_ok h₃
        obtain ⟨t, ht, rfl, hrest'⟩ := expectName_eq_ok hname
        exact hstep (by rw [hrest, hrest']; simp) h₄ (.member hoperand hdot ht)
      · obtain ⟨rfl, rfl⟩ := pure_eq_ok h₃
        exact ⟨[], rfl, by rwa [List.append_nil]⟩

theorem reads_unary (hnested : Reads string assign nested) (bound : Nat) :
    Reads string signed (unary string nested bound) := by
  induction bound with
  | zero =>
      intro c c' e h
      cases h
  | succ bound ih =>
      intro c c' e h
      unfold unary at h
      rw [peek_bind] at h
      cases hop : prefixOf? c.peek.kind with
      | some op =>
          rw [hop] at h
          obtain ⟨t, c₁, ht, h⟩ := exists_of_bind_eq_ok h
          obtain ⟨operand, c₂, hoperand, h⟩ := exists_of_bind_eq_ok h
          obtain ⟨rfl, rfl⟩ := pure_eq_ok h
          obtain ⟨ts, hts, hoperand⟩ := ih hoperand
          obtain ⟨rfl, hrest⟩ := advance_eq_ok ht
          have hsign : c.peek.kind = .symbol op.sign := prefixOf?_eq_some_iff.mp hop
          refine ⟨c.peek :: ts, ?_, .sign hsign hoperand⟩
          rw [hrest (by simp [hsign]), hts, List.cons_append]
      | none =>
          rw [hop] at h
          obtain ⟨operand, c₁, hoperand, h⟩ := exists_of_bind_eq_ok h
          obtain ⟨ts, hts, hoperand⟩ := reads_primary hnested bound hoperand
          obtain ⟨us, hus, he⟩ := suffixed_of_suffixes hnested h (.bare hoperand)
          exact ⟨ts ++ us, by rw [hts, hus, List.append_assoc], .unsigned he⟩

end Operands

/-! ## Operations -/

section Operations

theorem level_of_chain {n : Nat} (hn : n < 8) {tight : Parser Expr}
    (htight : Reads string (level (n + 1)) tight) {bound : Nat} :
    ∀ {c c' : Cursor} {left e : Expr} {ts : List Token},
      chain (levels.getD n []) tight bound left c = .ok e c' →
      Derives string (level n) ts left →
      ∃ us, c.rest = us ++ c'.rest ∧ Derives string (level n) (ts ++ us) e := by
  induction bound with
  | zero =>
      intro c c' left e ts h hleft
      obtain ⟨rfl, rfl⟩ := pure_eq_ok h
      exact ⟨[], rfl, by rwa [List.append_nil]⟩
  | succ bound ih =>
      intro c c' left e ts h hleft
      unfold chain at h
      rw [peek_bind] at h
      cases hop : operatorOf? (levels.getD n []) c.peek.kind with
      | none =>
          rw [hop] at h
          obtain ⟨rfl, rfl⟩ := pure_eq_ok h
          exact ⟨[], rfl, by rwa [List.append_nil]⟩
      | some op =>
          rw [hop] at h
          obtain ⟨hsign, rfl⟩ := (operatorOf?_eq_some_iff hn).mp hop
          obtain ⟨t, c₁, ht, h⟩ := exists_of_bind_eq_ok h
          obtain ⟨rfl, hrest⟩ := advance_eq_ok ht
          obtain ⟨right, c₂, hright, h⟩ := exists_of_bind_eq_ok h
          obtain ⟨us, hus, hright⟩ := htight hright
          obtain ⟨vs, hvs, he⟩ := ih h (.operation hleft hsign hright)
          refine ⟨c.peek :: us ++ vs, ?_, ?_⟩
          · rw [hrest (by simp [hsign]), hus, hvs]
            simp
          · simpa using he

theorem reads_operation {operand : Parser Expr} (hoperand : Reads string signed operand)
    (bound : Nat) {n : Nat} (hn : n ≤ 8) :
    Reads string (level n) (operation operand bound (levels.drop n)) := by
  -- from the tightest level outwards
  obtain ⟨k, hk⟩ := Nat.exists_eq_add_of_le hn
  induction k generalizing n with
  | zero =>
      obtain rfl : n = 8 := by omega
      intro c c' e h
      obtain ⟨ts, hts, he⟩ := hoperand h
      exact ⟨ts, hts, .tightest he⟩
  | succ k ih =>
      have hn : n < 8 := by omega
      have htight := ih (n := n + 1) (by omega) (by omega)
      intro c c' e h
      rw [levels_drop hn] at h
      obtain ⟨left, c₁, hleft, h₁⟩ := exists_of_bind_eq_ok h
      obtain ⟨ts, hts, hleft⟩ := htight hleft
      obtain ⟨us, hus, he⟩ := level_of_chain hn htight h₁ (.tighter hn hleft)
      exact ⟨ts ++ us, by rw [hts, hus, List.append_assoc], he⟩

end Operations

/-! ## Assignments -/

theorem assignedName?_eq_some {c : Cursor} {name : String} {op : Option BinOp}
    (h : assignedName? c = some (name, op)) :
    ∃ t sign rest, c.rest = t :: sign :: rest ∧ t.kind = .identifier ∧ t.value = name ∧
      AssignSign op sign := by
  obtain ⟨passed, rest⟩ := c
  rcases rest with _ | ⟨t, rest⟩
  · cases h
  rw [assignedName?_cons] at h
  by_cases ht : t.kind = .identifier
  · rw [if_pos ht] at h
    obtain ⟨op', hop, heq⟩ := Option.map_eq_some_iff.mp h
    cases heq
    rcases rest with _ | ⟨sign, rest⟩
    · cases hop
    · exact ⟨t, sign, rest, rfl, ht, rfl, assignment?_eq_some_iff.mp hop⟩
  · rw [if_neg ht] at h
    cases h

/-- What comes after the target of an assignment: the sign and a value. -/
theorem value_of_assignSign {nested : Parser Expr} (hnested : Reads string assign nested)
    {set : Expr → Expr} {op : Option BinOp} {c c' : Cursor} {e : Expr}
    (hsign : AssignSign op c.peek)
    (h : (do let _ ← advance; let value ← nested; return set value : Parser Expr) c = .ok e c') :
    ∃ us value, c.rest = c.peek :: us ++ c'.rest ∧ set value = e ∧
      Derives string assign us value := by
  obtain ⟨sign, c₁, hadvance, h₁⟩ := exists_of_bind_eq_ok h
  obtain ⟨value, c₂, hvalue, h₂⟩ := exists_of_bind_eq_ok h₁
  obtain ⟨he, rfl⟩ := pure_eq_ok h₂
  obtain ⟨us, hus, hvalue⟩ := hnested hvalue
  obtain ⟨rfl, hnext⟩ := advance_eq_ok hadvance
  refine ⟨us, value, ?_, he, hvalue⟩
  rw [hnext hsign.kind_ne_finish, hus, List.cons_append]

theorem reads_assignment {nested : Parser Expr} (hnested : Reads string assign nested)
    (bound : Nat) : Reads string assign (assignment string nested bound) := by
  intro c c' e h
  unfold assignment at h
  rw [get_bind] at h
  cases hname : assignedName? c with
  | some found =>
      obtain ⟨name, op⟩ := found
      rw [hname] at h
      obtain ⟨t, sign, rest, hrest, ht, rfl, hsign⟩ := assignedName?_eq_some hname
      obtain ⟨t', c₁, hadvance, h₁⟩ := exists_of_bind_eq_ok h
      obtain ⟨rfl, hnext⟩ := advance_eq_ok hadvance
      have hpeek : c.peek = t := by rw [Cursor.peek, hrest, List.headD_cons]
      have hc₁ : c₁.rest = sign :: rest := by
        have hcons := hnext (by simp [hpeek, ht])
        exact (List.cons.inj (hcons.symm.trans hrest)).2
      have hpeek₁ : c₁.peek = sign := by rw [Cursor.peek, hc₁, List.headD_cons]
      obtain ⟨us, value, hus, rfl, hvalue⟩ := value_of_assignSign hnested (hpeek₁ ▸ hsign) h₁
      refine ⟨t :: sign :: us, ?_, ?_⟩
      · rw [hrest, ← hc₁, hus, hpeek₁, List.cons_append, List.cons_append, List.cons_append]
      · rw [assigned_eq_stored]
        exact .assignName ht hsign hvalue
  | none =>
      rw [hname] at h
      obtain ⟨target, c₁, htarget, h₁⟩ := exists_of_bind_eq_ok h
      obtain ⟨ts, hts, htarget⟩ :=
        reads_operation (reads_unary hnested bound) bound (Nat.zero_le 8) htarget
      rw [peek_bind] at h₁
      cases hop : assignment? c₁.peek.kind with
      | none =>
          rw [hop] at h₁
          obtain ⟨rfl, rfl⟩ := pure_eq_ok h₁
          exact ⟨ts, hts, .unassigned htarget⟩
      | some op =>
          rw [hop] at h₁
          have hsign : AssignSign op c₁.peek := assignment?_eq_some_iff.mp hop
          cases target with
          | member object name =>
              obtain ⟨us, value, hus, rfl, hvalue⟩ := value_of_assignSign hnested hsign h₁
              refine ⟨ts ++ c₁.peek :: us, by rw [hts, hus, List.append_assoc], ?_⟩
              rw [assigned_eq_stored]
              exact .assignMember htarget hsign hvalue
          | index list position =>
              obtain ⟨us, value, hus, rfl, hvalue⟩ := value_of_assignSign hnested hsign h₁
              refine ⟨ts ++ c₁.peek :: us, by rw [hts, hus, List.append_assoc], ?_⟩
              rw [assigned_eq_stored]
              exact .assignElement htarget hsign hvalue
          | _ => cases h₁

/-- Whatever is read as an expression is one. -/
theorem reads_expressionAt (string : StringRule) (bound : Nat) :
    Reads string assign (expressionAt string bound) := by
  induction bound with
  | zero =>
      intro c c' e h
      cases h
  | succ bound ih => exact reads_assignment ih (bound + 1)

end ClassScript.Parser
