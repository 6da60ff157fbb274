import ClassScript.Proofs.Cutting
import ClassScript.Proofs.Placement
import ClassScript.Proofs.Reading

/-!
# The grammar does not look at places

One lemma for each rule of the grammar: on alike tokens it does the same. Code embedded in a string
is tokenized again, as a text of its own, so there the lemma about the tokenizer comes in: the same
text in another file has alike tokens.
-/

namespace ClassScript

namespace Parser

variable {A : Mark → Mark → Prop} {L : Link A} {α : Type}

def StringRule.Steady (A : Mark → Mark → Prop) (string : StringRule) : Prop :=
  ∀ t u, t.Like A u → Same A (string t) (string u)

theorem numberLiteral_steady : StringRule.Steady A numberLiteral := by
  intro t u h
  have hmalformed : Same A (.error (.grammatical .malformedNumber t) : Except Diagnostic Expr)
      (.error (.grammatical .malformedNumber u)) := .error (.grammatical h)
  simp only [numberLiteral, h.value]
  split
  · split
    · split
      · exact .ok _
      · exact hmalformed
    · exact hmalformed
  · split
    · exact .ok _
    · exact hmalformed

/-! ## The head of a loop -/

def parenthesized (cursor : Cursor) : Bool :=
  match cursor.rest with
  | paren :: name :: sign :: _ =>
    paren.kind = .symbol .lParen && name.kind = .identifier && sign.kind = .symbol .eq
  | _ => false

theorem parenthesized_eq_of_like {c d : Cursor} (h : c.Like A d) :
    parenthesized c = parenthesized d := by
  obtain ⟨t, ts, u, us, hc, hd, htu, htail, -⟩ := h.cases
  simp only [parenthesized, hc, hd]
  cases htail with
  | nil => rfl
  | cons hname htail =>
      cases htail with
      | nil => rfl
      | cons hsign _ => simp only [htu.kind, hname.kind, hsign.kind]

theorem parenthesized_eq (c : Cursor) :
    parenthesized c = (decide (c.peek.kind = .symbol .lParen) &&
      (decide (c.next.peek.kind = .identifier) &&
        decide (c.next.next.peek.kind = .symbol .eq))) := by
  obtain ⟨passed, rest⟩ := c
  rcases rest with _ | ⟨paren, rest⟩
  · simp [parenthesized, Cursor.peek]
  by_cases hparen : paren.kind = .symbol .lParen
  · rw [Cursor.next_cons (by simp [hparen])]
    rcases rest with _ | ⟨name, rest⟩
    · simp [parenthesized, Cursor.peek]
    by_cases hname : name.kind = .identifier
    · rw [Cursor.next_cons (by simp [hname])]
      cases rest <;> simp [parenthesized, Cursor.peek, hparen, hname]
    · cases rest <;> simp [parenthesized, Cursor.peek, hparen, hname]
  · have hpeek : (Cursor.mk passed (paren :: rest)).peek.kind ≠ .symbol .lParen := hparen
    rw [decide_eq_false hpeek]
    rcases rest with _ | ⟨name, _ | ⟨sign, rest⟩⟩ <;> simp [parenthesized, hparen]

theorem openingParen_of_ne {c : Cursor} (h : c.peek.kind ≠ .symbol .lParen) :
    openingParen c = .ok false c := by
  have hstays : acceptSign .lParen c = .ok false c := leads_acceptSign_of_ne h c.passed
  rw [openingParen, bind_eq_of_ok hstays]
  rfl

theorem openingParen_of_eq {c : Cursor} (h : c.peek.kind = .symbol .lParen) :
    openingParen c =
      .ok (c.next.peek.kind = .identifier && c.next.next.peek.kind = .symbol .eq) c.next := by
  obtain ⟨t, rest, hrest, ht⟩ := exists_cons_of_nextKind h (by nofun)
  obtain ⟨passed, _⟩ := c
  subst hrest
  have hpasses : acceptSign .lParen ⟨passed, t :: rest⟩ = .ok true ⟨t :: passed, rest⟩ :=
    leads_acceptSign ht passed
  rw [openingParen, bind_eq_of_ok hpasses, Cursor.next_cons (by simp [ht])]
  rfl

/-- The parenthesis is passed if it opens the head of a loop. Else nothing is, since the cursor
comes back. Either way the places that were saved before are left as they were. -/
theorem speculate_openingParen (s : Speculation) :
    s.attempt openingParen = (.ok (parenthesized s.cursor),
      { s with cursor := if parenthesized s.cursor then s.cursor.next else s.cursor }) := by
  obtain ⟨c, saved⟩ := s
  rw [parenthesized_eq, Speculation.attempt]
  by_cases hparen : c.peek.kind = .symbol .lParen
  · simp only [Speculation.read, Speculation.save, openingParen_of_eq hparen, hparen, decide_true,
      Bool.true_and]
    cases decide (c.next.peek.kind = .identifier) && decide (c.next.next.peek.kind = .symbol .eq)
    · simp [Speculation.rollback, (Cursor.Onward.next c).rewind]
    · simp [Speculation.commit]
  · simp [Speculation.read, Speculation.save, openingParen_of_ne hparen, hparen,
      Speculation.rollback, (Cursor.Onward.refl c).rewind]

theorem attempt_openingParen (c : Cursor) :
    attempt openingParen c = if parenthesized c then .ok true c.next else .ok false c := by
  rw [attempt, speculate_openingParen]
  cases parenthesized c <;> rfl

namespace Pairs

section Expressions

variable {string : StringRule} (hstring : string.Steady A) {nested nested' : Parser Expr}
  (hnested : Pairs L Eq nested nested') (bound : Nat)

include hnested

theorem elements : Pairs L Eq (primary.elements nested bound) (primary.elements nested' bound) := by
  induction bound with
  | zero => exact unexpected
  | succ bound ih =>
      refine seq (acceptSign _) fun closed => ite (pure rfl) ?_
      refine seq hnested fun item => seq (acceptSign _) fun more => ite ?_ ?_
      · exact seq ih fun items => pure rfl
      · exact seq (expectSign _) fun _ => pure rfl

include hstring in
theorem primary :
    Pairs L Eq (primary string nested bound) (Parser.primary string nested' bound) := by
  refine bind advance fun t u htu => ?_
  rw [← htu.kind]
  split
  · exact seq hnested fun _ => seq (expectSign _) fun _ => pure rfl
  · exact seq (elements hnested bound) fun _ => pure rfl
  · exact ofExcept (numberLiteral_steady t u htu)
  · exact ofExcept (hstring t u htu)
  · exact pure rfl
  · exact pure rfl
  · exact pure rfl
  · exact pure rfl
  · exact pure (by rw [htu.value])
  · exact fail _ htu

theorem arguments : Pairs L Eq (arguments nested bound) (Parser.arguments nested' bound) := by
  refine seq (acceptSign _) fun closed => ite (pure rfl) ?_
  refine seq (commaSeparated hnested bound) fun args => ?_
  exact seq (expectSign _) fun _ => pure rfl

theorem suffixes (operand : Expr) :
    Pairs L Eq (suffixes nested bound operand) (Parser.suffixes nested' bound operand) := by
  induction bound generalizing operand with
  | zero => exact pure rfl
  | succ bound ih =>
      refine seq (acceptSign _) fun _ => ite ?_ ?_
      · exact seq (arguments hnested bound) fun _ => ih _
      refine seq (acceptSign _) fun _ => ite ?_ ?_
      · exact seq hnested fun _ => seq (expectSign _) fun _ => ih _
      refine seq (acceptSign _) fun _ => ite ?_ (pure rfl)
      exact seq expectName fun _ => ih _

include hstring in
theorem unary : Pairs L Eq (unary string nested bound) (Parser.unary string nested' bound) := by
  induction bound with
  | zero => exact unexpected
  | succ bound ih =>
      refine bind peek fun t u htu => ?_
      rw [← htu.kind]
      split
      · exact bind advance fun _ _ _ => seq ih fun _ => pure rfl
      · exact seq (primary hstring hnested bound) fun _ => suffixes hnested bound _

theorem chain (level : List (Symbol × BinOp)) (left : Expr) :
    Pairs L Eq (chain level nested bound left) (Parser.chain level nested' bound left) := by
  induction bound generalizing left with
  | zero => exact pure rfl
  | succ bound ih =>
      refine bind peek fun t u htu => ?_
      rw [← htu.kind]
      split
      · exact bind advance fun _ _ _ => seq hnested fun _ => ih _
      · exact pure rfl

theorem operation (levels : List (List (Symbol × BinOp))) :
    Pairs L Eq (operation nested bound levels) (Parser.operation nested' bound levels) := by
  induction levels with
  | nil => exact hnested
  | cons level tighter ih => exact seq ih fun _ => chain ih bound level _

include hstring in
theorem assignment :
    Pairs L Eq (assignment string nested bound) (Parser.assignment string nested' bound) := by
  refine bind get fun c d hcd => ?_
  rw [L.assignedName?_eq hcd]
  split
  · exact bind advance fun _ _ _ => bind advance fun _ _ _ => seq hnested fun _ => pure rfl
  · refine seq (operation (unary hstring hnested bound) bound levels) fun target => ?_
    refine bind peek fun t u htu => ?_
    rw [← htu.kind]
    split
    · exact pure rfl
    · split
      · exact bind advance fun _ _ _ => seq hnested fun _ => pure rfl
      · exact bind advance fun _ _ _ => seq hnested fun _ => pure rfl
      · exact unexpected

end Expressions

theorem expressionAt {string : StringRule} (hstring : string.Steady A) (bound : Nat) :
    Pairs L Eq (expressionAt string bound) (Parser.expressionAt string bound) := by
  induction bound with
  | zero => exact unexpected
  | succ bound ih => exact assignment hstring ih (bound + 1)

theorem expressionWith {string : StringRule} (hstring : string.Steady A) :
    Pairs L Eq (expressionWith string) (Parser.expressionWith string) :=
  left fun bound => expressionAt hstring bound

/-! ## Types and functions -/

/-- The sign that opens twice gives way to one that opens once: it is no `<`, so it is still there
after a look for one. -/
theorem opening_eq (p : Parser α) (f : Bool → Parser α) (c : Cursor) :
    (do
      let token ← Parser.peek
      let opened ← Parser.acceptSign .lt
      if token.kind = .symbol .shl then do
        modify fun cursor => cursor.replace { token with kind := .symbol .lt, value := "<" }
        p
      else f opened : Parser α) c =
    if c.peek.kind = .symbol .shl then
      p (c.replace { c.peek with kind := .symbol .lt, value := "<" })
    else (Parser.acceptSign .lt >>= f) c := by
  change (Parser.acceptSign .lt >>= fun opened =>
    if c.peek.kind = .symbol .shl then
      (modify fun cursor => cursor.replace { c.peek with kind := .symbol .lt, value := "<" }) >>=
        fun _ => p
    else f opened) c = _
  split
  · next hkind =>
      have hstays : Parser.acceptSign .lt c = .ok false c :=
        leads_acceptSign_of_ne (by simp [← peek_kind, hkind]) c.passed
      rw [bind_eq_of_ok hstays]
      rfl
  · rfl

theorem opening {p p' : Parser α} {f f' : Bool → Parser α} (hp : Pairs (.alike A) Eq p p')
    (hf : ∀ opened, Pairs (.alike A) Eq (f opened) (f' opened)) :
    Pairs (.alike A) Eq
      (do
        let token ← Parser.peek
        let opened ← Parser.acceptSign .lt
        if token.kind = .symbol .shl then do
          modify fun cursor => cursor.replace { token with kind := .symbol .lt, value := "<" }
          p
        else f opened)
      (do
        let token ← Parser.peek
        let opened ← Parser.acceptSign .lt
        if token.kind = .symbol .shl then do
          modify fun cursor => cursor.replace { token with kind := .symbol .lt, value := "<" }
          p'
        else f' opened) := by
  intro c d hcd
  rw [opening_eq, opening_eq, ← hcd.peek.kind]
  split
  · next hkind => exact hp _ _ (hcd.replace (by simp [hkind]))
  · exact (seq (acceptSign _) hf) c d hcd

theorem typeAt (bound : Nat) : Pairs (.alike A) Eq (typeAt bound) (Parser.typeAt bound) := by
  induction bound with
  | zero => exact unexpected
  | succ bound ih =>
      have hgenerics : Pairs (.alike A) Eq (generics (Parser.typeAt bound) bound)
          (generics (Parser.typeAt bound) bound) :=
        seq (commaSeparated ih bound) fun _ => seq (expectSign _) fun _ => pure rfl
      have hname : ∀ nullable generics, Pairs (.alike A) Eq
          (do return ({ name := ← Parser.expectName, nullable, generics } : Ty))
          (do return { name := ← Parser.expectName, nullable, generics }) :=
        fun _ _ => seq expectName fun _ => pure rfl
      refine seq (acceptSign _) fun nullable => ?_
      refine opening ?_ fun _ => ?_
      · exact seq hgenerics fun _ => hname _ _
      · exact ite (seq hgenerics fun _ => hname _ _) (seq (pure rfl) fun _ => hname _ _)

theorem type : Pairs (.alike A) Eq type Parser.type := by
  refine bind get fun c d hcd => ?_
  rw [hcd.length]
  exact typeAt _

section Functions

variable {expr expr' : Parser Expr} (hexpr : Pairs (.alike A) Eq expr expr')
  {nested nested' : Parser Stmt} (hnested : Pairs (.alike A) Eq nested nested')

include hexpr

theorem parameter : Pairs (.alike A) Eq (parameter expr) (Parser.parameter expr') := by
  refine seq expectName fun name => seq (expectSign _) fun _ => ?_
  refine seq type fun ty => ?_
  exact seq (optional _ hexpr) fun default => pure rfl

theorem parameters : Pairs (.alike A) Eq (parameters expr) (Parser.parameters expr') := by
  refine seq (acceptSign _) fun closed => ite (pure rfl) (bind get fun c d hcd => ?_)
  rw [hcd.length]
  refine seq (commaSeparated (parameter hexpr) _) fun params => ?_
  exact seq (expectSign _) fun _ => pure rfl

theorem optionalParameters :
    Pairs (.alike A) Eq (optionalParameters expr) (Parser.optionalParameters expr') :=
  seq (optional _ (parameters hexpr)) fun _ => pure rfl

include hnested

theorem functionBody :
    Pairs (.alike A) Eq (functionBody expr nested) (Parser.functionBody expr' nested') := by
  refine seq (acceptSign _) fun isValue => ite (seq hexpr fun value => pure rfl) ?_
  refine seq (acceptSign _) fun isStatement => ite hnested ?_
  exact seq (check _) fun isBlock => ite hnested unexpected

theorem function :
    Pairs (.alike A) Eq (function expr nested) (Parser.function expr' nested') := by
  refine seq (expectWord _) fun _ => seq expectName fun name => ?_
  refine seq (optionalParameters hexpr) fun params => ?_
  refine seq (optional _ type) fun returnType => ?_
  exact seq (functionBody hexpr hnested) fun body => pure rfl

/-! ## Classes -/

omit hexpr hnested in
theorem modifiers (bound : Nat) (access : Option Access) (isStatic : Bool) :
    Pairs (.alike A) Eq (modifiers bound access isStatic)
      (Parser.modifiers bound access isStatic) := by
  induction bound generalizing access isStatic with
  | zero => exact pure rfl
  | succ bound ih =>
      refine bind peek fun t u htu => ?_
      rw [← htu.kind]
      dsimp only
      split
      · split
        · exact fail _ htu
        · exact bind advance fun _ _ _ => ih _ _
      · refine ite (ite (fail _ htu) ?_) (pure rfl)
        exact bind advance fun _ _ _ => ih _ _

omit hnested in
theorem field : Pairs (.alike A) Eq (field expr) (Parser.field expr') := by
  refine bind advance fun t u htu => ?_
  rw [← htu.kind]
  refine seq expectName fun name => seq (optional _ type) fun ty => ?_
  exact seq (optional _ hexpr) fun value => pure rfl

theorem accessors (property : String) (bound : Nat) (getter setter : Option FunctionDecl) :
    Pairs (.alike A) Eq (accessors expr nested property bound getter setter)
      (Parser.accessors expr' nested' property bound getter setter) := by
  induction bound generalizing getter setter with
  | zero => exact unexpected
  | succ bound ih =>
      refine seq (acceptSign _) fun _ => ite (ih _ _) ?_
      refine seq (acceptSign _) fun _ => ite (pure rfl) ?_
      refine bind peek fun t u htu => ?_
      rw [← htu.isSoft, ← htu.isSoft, ← htu.value]
      have hbody : ∀ name, Pairs (.alike A) Eq
          (do
            let _ ← Parser.advance
            let body ← Parser.functionBody expr nested
            return ({ name, params := [], returnType := none, body } : FunctionDecl))
          (do
            let _ ← Parser.advance
            let body ← Parser.functionBody expr' nested'
            return ({ name, params := [], returnType := none, body } : FunctionDecl)) :=
        fun name => bind advance fun _ _ _ => seq (functionBody hexpr hnested) fun body => pure rfl
      refine ite (ite (fail _ htu) ?_) (ite (ite (fail _ htu) ?_) unexpected)
      · exact seq (hbody _) fun _ => ih _ _
      · exact seq (hbody _) fun _ => ih _ _

theorem property : Pairs (.alike A) Eq (property expr nested) (Parser.property expr' nested') := by
  refine seq (expectWord _) fun _ => seq expectName fun name => ?_
  refine seq (optional _ type) fun ty => seq (optional _ hexpr) fun before => ?_
  refine seq (acceptSign _) fun braced => ?_
  refine ite (bind get fun c d hcd => ?_) (seq (pure rfl) fun _ => ?_)
  · rw [hcd.length]
    refine seq (accessors hexpr hnested _ _ _ _) fun pair => ?_
    exact seq (optional _ hexpr) fun after => pure rfl
  · exact seq (optional _ hexpr) fun after => pure rfl

theorem constructor :
    Pairs (.alike A) Eq (constructor expr nested) (Parser.constructor expr' nested') := by
  refine seq (expectWord _) fun _ => seq (optionalParameters hexpr) fun params => ?_
  exact seq (functionBody hexpr hnested) fun body => pure rfl

theorem operator : Pairs (.alike A) Eq (operator expr nested) (Parser.operator expr' nested') := by
  refine seq (expectWord _) fun _ => bind advance fun t u htu => ?_
  rw [← htu.kind, ← htu.value]
  refine ite (seq (fail _ htu) fun _ => ?_) ?_
  all_goals
    refine seq (expectSign _) fun _ => seq (parameters hexpr) fun params => ?_
    refine seq (optional _ type) fun returnType => ?_
    refine seq (functionBody hexpr hnested) fun body => ?_
    split
    · exact pure rfl
    · exact pure rfl
    · exact fail _ htu

theorem classMember :
    Pairs (.alike A) Eq (classMember expr nested) (Parser.classMember expr' nested') := by
  refine bind get fun _ _ h => ?_
  rw [h.length]
  refine seq (modifiers _ _ _) fun flags => ?_
  dsimp only
  refine bind peek fun t u htu => ?_
  rw [← htu.kind]
  split
  · exact seq (field hexpr) fun _ => pure rfl
  · exact seq (field hexpr) fun _ => pure rfl
  · exact seq (property hexpr hnested) fun _ => pure rfl
  · exact seq (map (function hexpr hnested)) fun _ => pure rfl
  · exact seq (constructor hexpr hnested) fun _ => pure rfl
  · exact seq (operator hexpr hnested) fun _ => pure rfl
  · exact seq unexpected fun _ => pure rfl

omit hexpr hnested in
theorem afterBrace : Pairs (.alike A) Eq afterBrace Parser.afterBrace := by
  refine bind get fun c d hcd => pure ?_
  have hpassed := hcd.passed
  generalize c.passed = ts at hpassed
  generalize d.passed = us at hpassed
  cases hpassed with
  | nil => rfl
  | cons htu _ => simp only [List.head?_cons, Option.any_some, htu.kind]

omit hexpr hnested in
theorem memberEnd : Pairs (.alike A) Eq memberEnd Parser.memberEnd := by
  refine seq (acceptSign _) fun semicolon => ite (pure rfl) ?_
  refine seq (check _) fun brace => ite (pure rfl) ?_
  refine seq afterBrace fun closed => ite (pure rfl) ?_
  exact bind peek fun t u htu => fail _ htu

theorem members (bound : Nat) :
    Pairs (.alike A) Eq (members expr nested bound) (Parser.members expr' nested' bound) := by
  induction bound with
  | zero => exact unexpected
  | succ bound ih =>
      refine seq (acceptSign _) fun _ => ite ih ?_
      refine seq (check _) fun _ => ite (pure rfl) ?_
      refine seq (classMember hexpr hnested) fun member => seq memberEnd fun _ => ?_
      exact seq ih fun members => pure rfl

theorem classDeclaration :
    Pairs (.alike A) Eq (classDeclaration expr nested) (Parser.classDeclaration expr' nested') := by
  refine seq (expectWord _) fun _ => seq expectName fun name => bind get fun _ _ hbases => ?_
  rw [hbases.length]
  refine seq (optional _ (commaSeparated type _)) fun bases => seq (expectSign _) fun _ => ?_
  refine bind get fun _ _ hbody => ?_
  rw [hbody.length]
  refine seq (members hexpr hnested _) fun members => ?_
  exact seq (expectSign _) fun _ => pure rfl

/-! ## Statements -/

omit hexpr hnested in
theorem statementEnd : Pairs (.alike A) Eq statementEnd Parser.statementEnd := by
  refine seq (acceptSign _) fun semicolon => ite (pure rfl) ?_
  refine seq (check _) fun brace => ite (pure rfl) ?_
  refine seq (check _) fun finish => ite (pure rfl) ?_
  exact seq afterBrace fun closed => ite (pure rfl) unexpected

omit hexpr in
theorem statementsTo (stop : Kind) (bound : Nat) :
    Pairs (.alike A) Eq (statementsTo stop nested bound)
      (Parser.statementsTo stop nested' bound) := by
  induction bound with
  | zero => exact unexpected
  | succ bound ih =>
      refine seq (acceptSign _) fun _ => ite ih ?_
      refine seq (check _) fun _ => ite (pure rfl) ?_
      refine seq hnested fun stmt => seq statementEnd fun _ => ?_
      exact seq ih fun stmts => pure rfl

omit hexpr in
theorem block : Pairs (.alike A) Eq (block nested) (Parser.block nested') := by
  refine seq (expectSign _) fun _ => bind get fun c d hcd => ?_
  rw [hcd.length]
  refine seq (statementsTo hnested _ _) fun stmts => ?_
  exact seq (expectSign _) fun _ => pure rfl

theorem ifElse : Pairs (.alike A) Eq (ifElse expr nested) (Parser.ifElse expr' nested') := by
  refine seq (expectWord _) fun _ => seq hexpr fun condition => ?_
  refine seq hnested fun thenBranch => seq (accept _) fun more => ite ?_ (pure rfl)
  exact seq hnested fun elseBranch => pure rfl

omit hexpr hnested in
theorem expectSoft (word : String) :
    Pairs (.alike A) Eq (expectSoft word) (Parser.expectSoft word) := by
  refine bind peek fun t u htu => ?_
  rw [htu.isSoft]
  exact ite (bind advance fun _ _ _ => pure rfl) unexpected

omit hexpr hnested in
theorem loopHead : Pairs (.alike A) Eq (attempt openingParen) (attempt openingParen) := by
  intro c d hcd
  rw [attempt_openingParen, attempt_openingParen, parenthesized_eq_of_like hcd]
  split
  · exact .ok rfl hcd.next
  · exact .ok rfl hcd

theorem forLoop : Pairs (.alike A) Eq (forLoop expr nested) (Parser.forLoop expr' nested') := by
  refine seq (expectWord _) fun _ => seq loopHead fun wrapped => ?_
  refine seq expectName fun counter => seq (expectSign _) fun _ => ?_
  refine seq hexpr fun start => seq (expectSoft _) fun _ => seq hexpr fun stop => ?_
  refine bind peek fun t u htu => ?_
  rw [htu.isSoft]
  refine ite (bind advance fun _ _ _ => seq (map hexpr) fun step => ?_) (seq (pure rfl) fun _ => ?_)
  all_goals
    refine ite (seq (expectSign _) fun _ => ?_) ?_
    · exact seq hnested fun body => pure rfl
    · exact seq hnested fun body => pure rfl

theorem whileLoop :
    Pairs (.alike A) Eq (whileLoop expr nested) (Parser.whileLoop expr' nested') := by
  refine seq (expectWord _) fun _ => seq hexpr fun condition => ?_
  exact seq hnested fun body => pure rfl

theorem doWhile : Pairs (.alike A) Eq (doWhile expr nested) (Parser.doWhile expr' nested') := by
  refine seq (expectWord _) fun _ => seq hnested fun body => ?_
  refine seq (expectWord _) fun _ => ?_
  exact seq hexpr fun condition => pure rfl

omit hnested in
theorem varDeclaration :
    Pairs (.alike A) Eq (varDeclaration expr) (Parser.varDeclaration expr') := by
  refine seq (expectWord _) fun _ => seq expectName fun name => ?_
  refine seq (optional _ type) fun ty => ?_
  exact seq (optional _ hexpr) fun value => pure rfl

omit hnested in
theorem constant : Pairs (.alike A) Eq (constant expr) (Parser.constant expr') := by
  refine seq (expectWord _) fun _ => seq expectName fun name => ?_
  refine seq (expectSign _) fun _ => ?_
  exact seq hexpr fun value => pure rfl

omit hnested in
theorem returnValue : Pairs (.alike A) Eq (returnValue expr) (Parser.returnValue expr') := by
  refine seq (expectWord _) fun _ => bind peek fun t u htu => ?_
  rw [← htu.kind]
  split
  · exact pure rfl
  · exact pure rfl
  · exact pure rfl
  · exact seq hexpr fun _ => pure rfl

theorem statement :
    Pairs (.alike A) Eq (statement expr nested) (Parser.statement expr' nested') := by
  refine bind peek fun t u htu => ?_
  rw [← htu.kind]
  split
  · exact ifElse hexpr hnested
  · exact forLoop hexpr hnested
  · exact whileLoop hexpr hnested
  · exact doWhile hexpr hnested
  · exact varDeclaration hexpr
  · exact constant hexpr
  · exact map (function hexpr hnested)
  · exact returnValue hexpr
  · exact map (classDeclaration hexpr hnested)
  · exact block hnested
  · exact map hexpr

omit hnested in
theorem statementAt (bound : Nat) :
    Pairs (.alike A) Eq (statementAt expr bound) (Parser.statementAt expr' bound) := by
  induction bound with
  | zero => exact unexpected
  | succ bound ih => exact statement hexpr ih

end Functions

theorem program {string : StringRule} (hstring : string.Steady A) :
    Pairs (.alike A) Eq (program string) (Parser.program string) := by
  refine bind get fun c d hcd => ?_
  rw [hcd.length]
  exact statementsTo (statementAt (expressionWith hstring) _) _ _

end Pairs

end Parser

/-! ## Strings -/

theorem last_of_tokenize {text file : String} {tokens : List Token}
    (h : tokenize text file = .ok tokens) : tokens.getLast?.map Token.kind = some .finish := by
  obtain ⟨ts, finish, rfl, hfinish, -⟩ := Scan.tokensFrom_eq_ok h
  simp [hfinish]

namespace Scan

inductive Retold : Except Diagnostic (List Token) → Except Diagnostic (List Token) → Prop
  | ok {ts us : List Token} (h : List.Forall₂ (Token.Like Anywhere) ts us) :
      Retold (.ok ts) (.ok us)
  | error (cause : LexCause) (p q : Position) (s r : Span) :
      Retold (.error (.lexical cause p s)) (.error (.lexical cause q r))

theorem Retold.cons {x y : Except Diagnostic (List Token)} {t u : Token} (htu : t.Like Anywhere u)
    (h : Retold x y) : Retold (x.map (t :: ·)) (y.map (u :: ·)) := by
  cases h with
  | ok h => exact .ok (.cons htu h)
  | error cause p q s r => exact .error cause p q s r

/-- A text is cut in the same way wherever it stands. -/
theorem Cut.elsewhere {source : Source} {mode : Mode} {place : Place} {cs : List Char}
    {result : Except Diagnostic (List Token)} (h : Cut source mode place cs result)
    (source' : Source) (place' : Place) :
    ∃ result', Cut source' mode place' cs result' ∧ Retold result result' := by
  induction h generalizing place' with
  | finish => exact ⟨_, .finish, .ok (.cons ⟨rfl, rfl, trivial⟩ .nil)⟩
  | skip hnext _ ih =>
      obtain ⟨result', hcut, hretold⟩ := ih (place'.advance _)
      exact ⟨result', .skip hnext hcut, hretold⟩
  | token hnext _ ih =>
      obtain ⟨result', hcut, hretold⟩ := ih (place'.advance _)
      exact ⟨_, .token hnext hcut, hretold.cons ⟨rfl, rfl, trivial⟩⟩
  | fault hnext hcs => exact ⟨_, .fault hnext hcs, .error _ _ _ _ _⟩

end Scan

namespace Parser

variable {A : Mark → Mark → Prop}

theorem wholeWith_same {string : StringRule} (hstring : string.Steady A) {ts us : List Token}
    (h : (Cursor.ofTokens ts).Like A (.ofTokens us)) :
    Same A (wholeWith string ts) (wholeWith string us) := by
  have hpair := Pairs.seq (L := .alike A) (Pairs.expressionWith hstring) (fun value =>
    Pairs.bind (Pairs.expect .finish) fun _ _ _ => Pairs.pure (R := Eq) (a := value) rfl) _ _ h
  unfold wholeWith
  dsimp only
  generalize (_ >>= _ : Parser Expr) (.ofTokens ts) = r at hpair ⊢
  generalize (_ >>= _ : Parser Expr) (.ofTokens us) = r' at hpair ⊢
  cases hpair with
  | ok hvalue _ => exact hvalue ▸ .ok _
  | error hfault _ => exact .error hfault

inductive Reports {β : Type} : Except Diagnostic β → Except Diagnostic β → Prop
  | ok (b : β) : Reports (.ok b) (.ok b)
  | error {e f : Diagnostic} (hmessage : e.message = f.message) : Reports (.error e) (.error f)

theorem Same.reports {β : Type} {x y : Except Diagnostic β} (h : Same A x y) : Reports x y := by
  cases h with
  | ok b => exact .ok b
  | error hfault => exact .error hfault.message

/-- Code embedded in a string is read the same in any file. -/
theorem code_reports {string : StringRule} (hstring : string.Steady Anywhere)
    (code file file' : String) :
    Reports (tokenize code file >>= wholeWith string)
      (tokenize code file' >>= wholeWith string) := by
  obtain ⟨result, hcut, hretold⟩ := (cut_tokenize code file).elsewhere
    (Source.ofText file' code.toList) {}
  have hfile' : tokenize code file' = result := hcut.tokensFrom_eq (Nat.le_refl _)
  rw [hfile']
  cases hfile : tokenize code file with
  | error fault =>
      rw [hfile] at hretold
      cases hretold
      exact .error rfl
  | ok ts =>
      have hlast := last_of_tokenize hfile
      rw [hfile] at hretold
      cases hretold with
      | ok h => exact (wholeWith_same hstring (.ofTokens h hlast)).reports

theorem templatePart_same {string : StringRule} (hstring : string.Steady Anywhere) {t u : Token}
    (h : t.Like A u) (segment : Template.Segment) :
    Same A (templatePart string t segment) (templatePart string u segment) := by
  cases segment with
  | text value => exact .ok _
  | code code =>
      simp only [templatePart]
      have hcode := code_reports hstring code t.position.file u.position.file
      generalize tokenize code t.position.file >>= wholeWith string = r at hcode ⊢
      generalize tokenize code u.position.file >>= wholeWith string = r' at hcode ⊢
      cases hcode with
      | ok value => exact .ok _
      | error hmessage =>
          dsimp only
          rw [hmessage]
          exact .error (.grammatical h)

theorem stringRule_steady (depth : Nat) (A : Mark → Mark → Prop) :
    StringRule.Steady A (stringRule depth) := by
  induction depth generalizing A with
  | zero => exact fun t u h => .error (.grammatical h)
  | succ depth ih =>
      intro t u h
      simp only [stringRule, h.value]
      split
      · rw [map_eq_pure_bind, map_eq_pure_bind]
        exact (Same.mapM (templatePart_same (ih Anywhere) h) _).bind fun _ => .ok _
      · exact .ok _

theorem depthOf_eq {ts us : List Token} (h : List.Forall₂ (Token.Like A) ts us) :
    depthOf ts = depthOf us := by
  have hfold : ∀ n, ts.foldl (fun depth token => max depth token.value.length) n =
      us.foldl (fun depth token => max depth token.value.length) n := by
    induction h with
    | nil => exact fun _ => rfl
    | cons htu _ ih =>
        intro n
        rw [List.foldl_cons, List.foldl_cons, htu.value, ih]
  rw [depthOf, depthOf, hfold]

end Parser

/-- A parser gives the same on alike tokens. -/
theorem parse_same {A : Mark → Mark → Prop} {ts us : List Token}
    (h : List.Forall₂ (Token.Like A) ts us) (hlast : ts.getLast?.map Token.kind = some .finish) :
    Parser.Same A (parse ts) (parse us) := by
  have hpair := Parser.Pairs.program (Parser.stringRule_steady (Parser.depthOf us) A) _ _
    (Cursor.Like.ofTokens h hlast)
  unfold parse
  rw [Parser.depthOf_eq h]
  generalize Parser.program _ (.ofTokens ts) = r at hpair ⊢
  generalize Parser.program _ (.ofTokens us) = r' at hpair ⊢
  cases hpair with
  | ok hvalue _ => exact hvalue ▸ .ok _
  | error hfault _ => exact .error hfault

end ClassScript
