import ClassScript.Proofs.GrammarComplete
import ClassScript.Proofs.GrammarSound

/-!
# How far an expression goes

The parser takes all that continues an expression: whatever it leaves begins with a token that does
not. The loops end because their bound is reached only at the end of the tokens.
-/

namespace ClassScript

namespace Grammar

theorem Leaf.kind_ne_rBrace {string : Parser.StringRule} {t : Token} {e : Expr}
    (h : Leaf string t e) : t.kind ≠ .symbol .rBrace := by
  cases h <;> simp [*]

theorem Sign.kind_ne_rBrace {s : Symbol} {t : Token} (h : Sign s t) (hs : s ≠ .rBrace) :
    t.kind ≠ .symbol .rBrace := by
  rw [show t.kind = .symbol s from h]
  simpa using hs

theorem AssignSign.kind_ne_rBrace {op : Option BinOp} {t : Token} (h : AssignSign op t) :
    t.kind ≠ .symbol .rBrace := by
  obtain ⟨s, hop, hs⟩ := h
  refine hs.kind_ne_rBrace ?_
  rintro rfl
  unfold assignSign? at hop
  split at hop <;> cases hop

theorem sign_ne_rBrace (op : BinOp) : op.sign ≠ .rBrace := by
  cases op <;> nofun

theorem unarySign_ne_rBrace (op : UnOp) : op.sign ≠ .rBrace := by
  cases op <;> nofun

/-- A closing brace is part of no phrase. -/
theorem Derives.kind_ne_rBrace {string : Parser.StringRule} {phrase : Phrase} {ts : List Token}
    {e : Expr} (h : Derives string phrase ts e) : ∀ t ∈ ts, t.kind ≠ .symbol .rBrace := by
  induction h <;>
    grind [Leaf.kind_ne_rBrace, Sign.kind_ne_rBrace, AssignSign.kind_ne_rBrace, sign_ne_rBrace,
      unarySign_ne_rBrace]

end Grammar

namespace Parser

open Grammar
open Grammar.Phrase

variable {string : StringRule} {nested : Parser Expr}

theorem closes_finish : Closes .finish :=
  .of_eq (.inr (.inr (.inr rfl)))

theorem Stops.of_marks {kind : Kind} (hparen : kind ≠ .symbol .lParen)
    (hbracket : kind ≠ .symbol .lBracket) (hdot : kind ≠ .symbol .dot) : Stops 8 kind := by
  refine ⟨hparen, hbracket, hdot, fun op hop => ?_⟩
  cases op <;> simp [BinOp.level] at hop

/-- A token that is no sign of a level either stops more. -/
theorem Stops.of_operatorOf? {n : Nat} (hn : n < 8) {kind : Kind} (h : Stops (n + 1) kind)
    (hop : operatorOf? (levels.getD n []) kind = none) : Stops n kind := by
  refine ⟨h.not_lParen, h.not_lBracket, h.not_dot, fun op hle hkind => ?_⟩
  rcases Nat.eq_or_lt_of_le hle with hlevel | hlt
  · rw [(operatorOf?_eq_some_iff hn).mpr ⟨hkind, hlevel.symm⟩] at hop
    cases hop
  · exact h.not_sign op hlt hkind

theorem nextKind_of_length_le_zero {c : Cursor} (h : c.rest.length ≤ 0) :
    nextKind c.rest = .finish := by
  rw [List.eq_nil_of_length_eq_zero (Nat.le_zero.mp h)]
  rfl

theorem Reads.length_lt {phrase : Phrase} {p : Parser Expr} (hp : Reads string phrase p)
    (hphrase : phrase ≠ items) {c c' : Cursor} {e : Expr} (h : p c = .ok e c') :
    c'.rest.length < c.rest.length := by
  obtain ⟨ts, hts, hderives⟩ := hp h
  have hpos := length_pos_of_derives hderives hphrase
  rw [hts, List.length_append]
  omega

theorem length_of_arguments (hnested : Reads string assign nested) {bound : Nat} {c c' : Cursor}
    {args : List Expr} (h : arguments nested bound c = .ok args c') :
    c'.rest.length < c.rest.length := by
  obtain ⟨found, c₁, hempty, h₁⟩ := exists_of_bind_eq_ok h
  rcases acceptSign_eq_ok hempty with ⟨rfl, closing, -, hrest⟩ | ⟨rfl, -, rfl⟩
  · obtain ⟨-, rfl⟩ := pure_eq_ok h₁
    simp [hrest]
  · obtain ⟨args, c₂, hargs, h₂⟩ := exists_of_bind_eq_ok h₁
    obtain ⟨us, hus, -⟩ := row_of_commaSeparated hnested hargs
    obtain ⟨_, c₃, hclosing, h₃⟩ := exists_of_bind_eq_ok h₂
    obtain ⟨-, rfl⟩ := pure_eq_ok h₃
    obtain ⟨closing, -, hrest⟩ := expectSign_eq_ok hclosing
    simp only [hus, hrest, List.length_append, List.length_cons]
    omega

/-! ## Operands -/

/-- What comes behind an operand does not continue it. -/
theorem stops_of_suffixes (hnested : Reads string assign nested) {bound : Nat} :
    ∀ {c c' : Cursor} {operand e : Expr}, c.rest.length ≤ bound →
      suffixes nested bound operand c = .ok e c' → Stops 8 (nextKind c'.rest) := by
  induction bound with
  | zero =>
      intro c c' operand e hbound h
      obtain ⟨-, rfl⟩ := pure_eq_ok h
      rw [nextKind_of_length_le_zero hbound]
      exact closes_finish.stops.mono (Nat.zero_le 8)
  | succ bound ih =>
      intro c c' operand e hbound h
      obtain ⟨found, c₁, hopening, h₁⟩ := exists_of_bind_eq_ok h
      rcases acceptSign_eq_ok hopening with ⟨rfl, opening, -, hrest⟩ | ⟨rfl, hparen, rfl⟩
      · obtain ⟨args, c₂, hargs, h₂⟩ := exists_of_bind_eq_ok h₁
        have hlength := length_of_arguments hnested hargs
        exact ih (by rw [hrest, List.length_cons] at hbound; omega) h₂
      obtain ⟨found, c₂, hopening, h₂⟩ := exists_of_bind_eq_ok h₁
      rcases acceptSign_eq_ok hopening with ⟨rfl, opening, -, hrest⟩ | ⟨rfl, hbracket, rfl⟩
      · obtain ⟨position, c₃, hposition, h₃⟩ := exists_of_bind_eq_ok h₂
        have hlength := hnested.length_lt (by simp) hposition
        obtain ⟨_, c₄, hclosing, h₄⟩ := exists_of_bind_eq_ok h₃
        obtain ⟨closing, -, hrest'⟩ := expectSign_eq_ok hclosing
        rw [hrest, List.length_cons] at hbound
        rw [hrest', List.length_cons] at hlength
        exact ih (by omega) h₄
      obtain ⟨found, c₃, hdot, h₃⟩ := exists_of_bind_eq_ok h₂
      rcases acceptSign_eq_ok hdot with ⟨rfl, dot, -, hrest⟩ | ⟨rfl, hdot, rfl⟩
      · obtain ⟨name, c₄, hname, h₄⟩ := exists_of_bind_eq_ok h₃
        obtain ⟨t, -, -, hrest'⟩ := expectName_eq_ok hname
        rw [hrest, hrest', List.length_cons, List.length_cons] at hbound
        exact ih (by omega) h₄
      · obtain ⟨-, rfl⟩ := pure_eq_ok h₃
        exact .of_marks hparen hbracket hdot

/-- What a parser leaves of at most `bound` tokens begins with a token of some kind. -/
def EndsBefore (P : Kind → Prop) (bound : Nat) (p : Parser Expr) : Prop :=
  ∀ ⦃c c' : Cursor⦄ ⦃e : Expr⦄, c.rest.length ≤ bound → p c = .ok e c' → P (nextKind c'.rest)

theorem endsBefore_unary (hnested : Reads string assign nested) (bound : Nat) :
    EndsBefore (Stops 8) bound (unary string nested bound) := by
  induction bound with
  | zero =>
      intro c c' e _ h
      cases h
  | succ bound ih =>
      intro c c' e hbound h
      unfold unary at h
      rw [peek_bind] at h
      cases hop : prefixOf? c.peek.kind with
      | some op =>
          rw [hop] at h
          obtain ⟨t, c₁, ht, h₁⟩ := exists_of_bind_eq_ok h
          obtain ⟨operand, c₂, hoperand, h₂⟩ := exists_of_bind_eq_ok h₁
          obtain ⟨-, rfl⟩ := pure_eq_ok h₂
          obtain ⟨rfl, hrest⟩ := advance_eq_ok ht
          have hsign : c.peek.kind = .symbol op.sign := prefixOf?_eq_some_iff.mp hop
          rw [hrest (by simp [hsign]), List.length_cons] at hbound
          exact ih (by omega) hoperand
      | none =>
          rw [hop] at h
          obtain ⟨operand, c₁, hoperand, h₁⟩ := exists_of_bind_eq_ok h
          have hlength := (reads_primary hnested bound).length_lt (by simp) hoperand
          exact stops_of_suffixes hnested (by omega) h₁

/-! ## Operations -/

/-- What comes behind an operation does not continue it, if what comes behind an operand does not
continue the operand. -/
theorem stops_of_chain {n : Nat} (hn : n < 8) {tight : Parser Expr}
    (htight : Reads string (level (n + 1)) tight) {bound : Nat}
    (hends : EndsBefore (Stops (n + 1)) bound tight) {k : Nat} :
    ∀ {c c' : Cursor} {left e : Expr}, c.rest.length ≤ k → c.rest.length ≤ bound →
      Stops (n + 1) (nextKind c.rest) →
      chain (levels.getD n []) tight k left c = .ok e c' → Stops n (nextKind c'.rest) := by
  induction k with
  | zero =>
      intro c c' left e hk _ _ h
      obtain ⟨-, rfl⟩ := pure_eq_ok h
      rw [nextKind_of_length_le_zero hk]
      exact closes_finish.stops.mono (Nat.zero_le n)
  | succ k ih =>
      intro c c' left e hk hbound hstops h
      unfold chain at h
      rw [peek_bind] at h
      cases hop : operatorOf? (levels.getD n []) c.peek.kind with
      | none =>
          rw [hop] at h
          obtain ⟨-, rfl⟩ := pure_eq_ok h
          exact hstops.of_operatorOf? hn hop
      | some op =>
          rw [hop] at h
          obtain ⟨hsign, rfl⟩ := (operatorOf?_eq_some_iff hn).mp hop
          obtain ⟨t, c₁, ht, h₁⟩ := exists_of_bind_eq_ok h
          obtain ⟨rfl, hrest⟩ := advance_eq_ok ht
          rw [hrest (by simp [hsign]), List.length_cons] at hk hbound
          obtain ⟨right, c₂, hright, h₂⟩ := exists_of_bind_eq_ok h₁
          have hlength := htight.length_lt (by simp) hright
          exact ih (by omega) (by omega) (hends (by omega) hright) h₂

theorem endsBefore_operation {operand : Parser Expr} (hoperand : Reads string signed operand)
    {bound : Nat} (hends : EndsBefore (Stops 8) bound operand) {n : Nat} (hn : n ≤ 8) :
    EndsBefore (Stops n) bound (operation operand bound (levels.drop n)) := by
  -- from the tightest level outwards
  obtain ⟨k, hk⟩ := Nat.exists_eq_add_of_le hn
  induction k generalizing n with
  | zero =>
      obtain rfl : n = 8 := by omega
      exact hends
  | succ k ih =>
      have hn : n < 8 := by omega
      have htight := reads_operation hoperand bound (n := n + 1) (by omega)
      have hends' := ih (n := n + 1) (by omega) (by omega)
      intro c c' e hbound h
      rw [levels_drop hn] at h
      obtain ⟨left, c₁, hleft, h₁⟩ := exists_of_bind_eq_ok h
      have hlength := htight.length_lt (by simp) hleft
      exact stops_of_chain hn htight hends' (by omega) (by omega) (hends' hbound hleft) h₁

/-! ## Expressions -/

theorem closes_of_value {bound : Nat} (hends : EndsBefore Closes bound nested) {set : Expr → Expr}
    {c c' : Cursor} {e : Expr} (hpeek : c.peek.kind ≠ .finish) (hbound : c.rest.length ≤ bound + 1)
    (h : (do let _ ← advance; let value ← nested; return set value : Parser Expr) c = .ok e c') :
    Closes (nextKind c'.rest) := by
  obtain ⟨sign, c₁, hadvance, h₁⟩ := exists_of_bind_eq_ok h
  obtain ⟨value, c₂, hvalue, h₂⟩ := exists_of_bind_eq_ok h₁
  obtain ⟨-, rfl⟩ := pure_eq_ok h₂
  obtain ⟨rfl, hrest⟩ := advance_eq_ok hadvance
  rw [hrest hpeek, List.length_cons] at hbound
  exact hends (by omega) hvalue

theorem endsBefore_assignment (hnested : Reads string assign nested) {bound : Nat}
    (hends : EndsBefore Closes bound nested) :
    EndsBefore Closes (bound + 1) (assignment string nested (bound + 1)) := by
  intro c c' e hbound h
  unfold assignment at h
  rw [get_bind] at h
  cases hname : assignedName? c with
  | some found =>
      obtain ⟨name, op⟩ := found
      rw [hname] at h
      obtain ⟨t, sign, rest, hrest, ht, -, hsign⟩ := assignedName?_eq_some hname
      obtain ⟨t', c₁, hadvance, h₁⟩ := exists_of_bind_eq_ok h
      obtain ⟨rfl, hnext⟩ := advance_eq_ok hadvance
      have hpeek : c.peek = t := by rw [Cursor.peek, hrest, List.headD_cons]
      have hc₁ : c₁.rest = sign :: rest := by
        have hcons := hnext (by simp [hpeek, ht])
        exact (List.cons.inj (hcons.symm.trans hrest)).2
      have hpeek₁ : c₁.peek = sign := by rw [Cursor.peek, hc₁, List.headD_cons]
      have hlength : c₁.rest.length ≤ bound + 1 := by
        rw [hrest, ← hc₁, List.length_cons] at hbound
        omega
      exact closes_of_value hends (hpeek₁ ▸ hsign.kind_ne_finish) hlength h₁
  | none =>
      rw [hname] at h
      obtain ⟨target, c₁, htarget, h₁⟩ := exists_of_bind_eq_ok h
      have hreads := reads_unary hnested (bound + 1)
      have hlength :=
        (reads_operation hreads (bound + 1) (Nat.zero_le 8)).length_lt (by simp) htarget
      have hstops := endsBefore_operation hreads (endsBefore_unary hnested (bound + 1))
        (Nat.zero_le 8) hbound htarget
      rw [peek_bind] at h₁
      cases hop : assignment? c₁.peek.kind with
      | none =>
          rw [hop] at h₁
          obtain ⟨-, rfl⟩ := pure_eq_ok h₁
          exact ⟨hstops, hop⟩
      | some op =>
          rw [hop] at h₁
          have hpeek : c₁.peek.kind ≠ .finish :=
            AssignSign.kind_ne_finish (assignment?_eq_some_iff.mp hop)
          cases target with
          | member object name => exact closes_of_value hends hpeek (by omega) h₁
          | index list position => exact closes_of_value hends hpeek (by omega) h₁
          | _ => cases h₁

theorem endsBefore_expressionAt (string : StringRule) (bound : Nat) :
    EndsBefore Closes bound (expressionAt string bound) := by
  induction bound with
  | zero =>
      intro c c' e _ h
      cases h
  | succ bound ih => exact endsBefore_assignment (reads_expressionAt string bound) ih

/-- An expression is read from tokens that the grammar derives it from, if what comes behind them
does not continue it. -/
theorem expression_of_derives {ts rest : List Token} {e : Expr} (h : Derives string assign ts e)
    (hrest : Closes (nextKind rest)) (passed : List Token) :
    expressionWith string ⟨passed, ts ++ rest⟩ = .ok e ⟨ts.reverse ++ passed, rest⟩ :=
  completes_of_derives h (ts ++ rest).length rest (by simp) hrest passed

/-- Whatever is read as an expression is one, and goes as far as it can. -/
theorem derives_of_expression {c c' : Cursor} {e : Expr} (h : expressionWith string c = .ok e c') :
    ∃ ts, c.rest = ts ++ c'.rest ∧ Derives string assign ts e ∧ Closes (nextKind c'.rest) ∧
      c'.passed = ts.reverse ++ c.passed := by
  have hread : expressionAt string c.rest.length c = .ok e c' := h
  obtain ⟨ts, hts, hderives⟩ := reads_expressionAt string _ hread
  have hcloses := endsBefore_expressionAt string _ (Nat.le_refl _) hread
  refine ⟨ts, hts, hderives, hcloses, ?_⟩
  have hagain := expression_of_derives hderives hcloses c.passed
  rw [← hts] at hagain
  exact congrArg Cursor.passed (EStateM.Result.ok.inj (h.symm.trans hagain)).2

end Parser

end ClassScript
