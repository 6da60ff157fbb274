import ClassScript.Proofs.ExpressionGrammar
import ClassScript.Proofs.Separators

/-!
# The grammar without semicolons behind braces

Rule by rule, the second run follows the first. A statement, a member or an accessor may end at a
missing semicolon; the loops over them are level again after it.
-/

namespace ClassScript

namespace Parser

variable {good : Token → Prop} {m M : Nat}

/-! ## Where nothing begins -/

theorem halted_cons {c : Cursor} (h : Halted c) :
    ∃ passed t ts, c = ⟨passed, t :: ts⟩ ∧ Resumes t.kind := by
  have hfinish : nextKind c.rest ≠ .finish := by
    rcases h with h | h <;> simp [h]
  obtain ⟨t, ts, hrest, hkind⟩ := exists_cons_of_nextKind rfl hfinish
  refine ⟨c.passed, t, ts, by rw [← hrest], ?_⟩
  rw [hkind]
  exact h

theorem keeps_expression (string : StringRule) : Keeps Halted Never (expressionWith string) := by
  intro c e c' hc h
  -- the token behind is looked at, because a name could be assigned
  obtain ⟨passed, ⟨kind, value, position, span⟩, _ | ⟨u, ts⟩, rfl, rfl | rfl⟩ := halted_cons hc
  all_goals cases h

theorem keeps_accessors (expr : Parser Expr) (nested : Parser Stmt) (property : String) (k : Nat)
    (getter setter : Option FunctionDecl) :
    Keeps Stuck Never (accessors expr nested property k getter setter) := by
  intro c e c' hc h
  cases k with
  | zero => cases h
  | succ k =>
      obtain ⟨found, c₁, haccept, h₁⟩ := exists_of_bind_eq_ok h
      rcases accept_cases (by nofun) haccept with ⟨rfl, t, ht, hpasses⟩ | ⟨rfl, hne, -⟩
      · obtain ⟨passed, ⟨kind, value, position, span⟩, ts, rfl, rfl | rfl⟩ :=
          halted_cons (hc.passes hpasses)
        all_goals cases k <;> cases h₁
      · exact absurd hc.nextKind_eq hne

theorem keeps_members (expr : Parser Expr) (nested : Parser Stmt) (k : Nat) :
    Keeps Halted Never (members expr nested k) := by
  intro c e c' hc h
  obtain ⟨passed, ⟨kind, value, position, span⟩, ts, rfl, rfl | rfl⟩ := halted_cons hc
  all_goals cases k <;> cases h

theorem keeps_statementsTo {stop : Kind} (hstop : stop = .symbol .rBrace ∨ stop = .finish)
    {nested : Parser Stmt} (hnested : Keeps Halted Never nested) (k : Nat) :
    Keeps Halted Never (statementsTo stop nested k) := by
  intro c e c' hc h
  cases k with
  | zero => cases h
  | succ k =>
      have hnext : nextKind c.rest ≠ .symbol .semicolon ∧ nextKind c.rest ≠ stop := by
        rcases hc with hc | hc <;> rcases hstop with rfl | rfl <;> simp [hc]
      have hsemicolon : acceptSign .semicolon c = .ok false c := accept_of_ne hnext.1
      have hcheck : check stop c = .ok false c := leads_check_of_ne hnext.2 c.passed
      rw [statementsTo, bind_eq_of_ok hsemicolon, if_neg (by nofun), bind_eq_of_ok hcheck,
        if_neg (by nofun)] at h
      obtain ⟨first, c₁, hfirst, -⟩ := exists_of_bind_eq_ok h
      exact (hnested hc hfirst).elim

theorem keeps_statement {expr : Parser Expr} (hexpr : Keeps Halted Never expr)
    (nested : Parser Stmt) : Keeps Halted Never (statement expr nested) := by
  intro c e c' hc h
  obtain ⟨passed, ⟨kind, value, position, span⟩, ts, rfl, rfl | rfl⟩ := halted_cons hc
  all_goals
    rw [statement, peek_bind, map_eq_pure_bind] at h
    obtain ⟨e, c₁, he, -⟩ := exists_of_bind_eq_ok h
    exact (hexpr hc he).elim

theorem kind_of_isSoft {t : Token} {word : String} (h : t.isSoft word) : t.kind = .identifier := by
  simp only [Token.isSoft, Bool.and_eq_true, decide_eq_true_eq] at h
  exact h.1

theorem parenthesized_eq_of_sheds {c d : Cursor} (h : Sheds c.rest d.rest) :
    parenthesized c = parenthesized d := by
  unfold parenthesized
  generalize c.rest = ts at h
  generalize d.rest = us at h
  -- a brace among the three tokens gives the same answer as no token
  cases h with
  | nil => rfl
  | drop hbrace => grind [Grammar.Sign]
  | keep _ h =>
      cases h with
      | nil => rfl
      | drop hbrace => grind [Grammar.Sign]
      | keep _ h => cases h <;> rfl

/-- A parser of statements, adequate for as many tokens as it is bounded by. -/
structure Nested (good : Token → Prop) (M : Nat) (nested nested' : Parser Stmt) : Prop where
  follows : ∀ m < M, Follows Stuck (Level good (m + 1)) (Shed good m) nested nested'
  halts : Keeps Halted Never nested

theorem Nested.level {nested nested' : Parser Stmt} (h : Nested good M nested nested')
    (hm : m ≤ M) : Follows Stuck (Level good m) (Shed good m) nested nested' := by
  cases m with
  | zero => exact .of_zero
  | succ m => exact (h.follows m hm).mono (fun _ _ => id) fun _ _ h => h.mono (Nat.le_succ m)

namespace Follows

/-! ## Functions -/

section Grammar

variable {expr expr' : Parser Expr}
  (hexpr : ∀ m, Follows Never (Level good (m + 1)) (Level good m) expr expr')

include hexpr

theorem parameter (m : Nat) : Follows Never (Level good (m + 1)) (Level good m)
    (Parser.parameter expr) (Parser.parameter expr') := by
  refine seq expectName fun name => seq (level fun _ => expectSign (by nofun)) fun _ => ?_
  refine seq (level fun _ => type) fun ty => ?_
  exact seq (optional (by nofun) (level hexpr)) fun default => pure

theorem parameters : Follows Never (Level good m) (Level good m) (Parser.parameters expr)
    (Parser.parameters expr') := by
  refine seq (acceptSign (by nofun)) fun _ => ite pure ?_
  refine left (R := Level good) (fun _ _ _ => Level.mono) fun _ _ _ => ?_
  refine seq (commaSeparated (parameter hexpr) _ _) fun params => ?_
  exact seq (level fun _ => expectSign (by nofun)) fun _ => pure

theorem optionalParameters : Follows Never (Level good m) (Level good m)
    (Parser.optionalParameters expr) (Parser.optionalParameters expr') :=
  (optional (by nofun) (parameters hexpr)).value

variable {nested nested' : Parser Stmt} (hnested : Nested good M nested nested')

include hnested

theorem functionBody (hm : m ≤ M) : Follows Stuck (Level good m) (Shed good m)
    (Parser.functionBody expr nested) (Parser.functionBody expr' nested') := by
  refine seq (acceptSign (by nofun)) fun isValue => ite ?_ ?_
  · exact seq (level hexpr) fun value => pure.mono (fun _ _ => .inl) fun _ _ => id
  · refine seq (acceptSign (by nofun)) fun isStatement => ite (hnested.level hm) ?_
    exact seq (check _) fun isBlock => ite (hnested.level hm) unexpected

theorem function (hm : m ≤ M) : Follows Stuck (Level good (m + 1)) (Shed good m)
    (Parser.function expr nested) (Parser.function expr' nested') := by
  refine seq (expectWord _) fun _ => seq (level fun _ => expectName) fun name => ?_
  refine seq (optionalParameters hexpr) fun params => ?_
  refine seq (optional (by nofun) (level fun _ => type)) fun returnType => ?_
  exact (functionBody hexpr hnested hm).value

/-! ## Classes -/

omit hexpr hnested in
theorem modifiers (k : Nat) : ∀ (n : Nat) (access : Option Access) (isStatic : Bool),
    Follows Never (fun c d => Level good n c d ∧ c.rest.length ≤ k) (Level good n)
      (Parser.modifiers k access isStatic) (Parser.modifiers n access isStatic) := by
  induction k with
  | zero =>
      rintro n access isStatic c d a c' ⟨hcd, hk⟩ hp
      exact absurd (List.eq_nil_of_length_eq_zero (Nat.le_zero.mp hk)) hcd.rest_ne_nil
  | succ k ih =>
      intro n access isStatic
      cases n with
      | zero => exact of_zero.mono (fun _ _ h => h.1) fun _ _ => id
      | succ n =>
          refine peek (fun _ _ h => h.1.peek_eq) fun t => ?_
          have hstep : ∀ access isStatic, t.kind ≠ .finish → t.kind ≠ .symbol .rBrace →
              Follows Never
                (fun c d => (Level good (n + 1) c d ∧ c.rest.length ≤ k + 1) ∧ c.peek = t)
                (Level good (n + 1))
                (Parser.advance >>= fun _ => Parser.modifiers k access isStatic)
                (Parser.advance >>= fun _ => Parser.modifiers n access isStatic) := by
            intro access isStatic hfinish hbrace
            refine seq (T := fun c d => Level good n c d ∧ c.rest.length ≤ k) ?_ fun _ =>
              (ih n access isStatic).mono (fun _ _ => id) fun _ _ h => h.mono (Nat.le_succ n)
            rintro c d a c' ⟨⟨hcd, hk⟩, hpeek⟩ hp
            obtain ⟨rfl, -⟩ := advance_eq_ok hp
            obtain hnever | ⟨d', hd, hlevel⟩ := advance hfinish hbrace ⟨hcd, hpeek⟩ hp
            · exact hnever.elim
            · have hpasses := passes_of_advance hp (hpeek ▸ hfinish)
              rw [hpasses.rest, List.length_cons] at hk
              exact .inr ⟨d', hd, hlevel, by omega⟩
          dsimp only
          split
          · next level hlevel =>
              split
              · exact fail
              · refine hstep _ _ ?_ ?_ <;>
                  · intro hkind
                    rw [hkind] at hlevel
                    cases hlevel
          · refine ite_of (fun hstatic => ite fail (hstep _ _ ?_ ?_)) fun _ =>
              pure.mono (fun _ _ h => h.1.1) fun _ _ => id
            all_goals simp [hstatic]

omit hnested in
theorem field {t : Token} (ht : t.kind = .keyword .varKw ∨ t.kind = .keyword .constKw) :
    Follows Never (fun c d => Level good (m + 1) c d ∧ c.peek = t) (Level good m)
      (Parser.field expr) (Parser.field expr') := by
  have hfinish : t.kind ≠ .finish := by rcases ht with h | h <;> simp [h]
  have hbrace : t.kind ≠ .symbol .rBrace := by rcases ht with h | h <;> simp [h]
  refine seq (advance hfinish hbrace) fun _ => seq (level fun _ => expectName) fun name => ?_
  refine seq (optional (by nofun) (level fun _ => type)) fun ty => ?_
  exact (optional (by nofun) (level hexpr)).value

/-- The body of an accessor, from its word on. -/
theorem accessor (hm : m ≤ M) {t : Token} {word : String} (hsoft : t.isSoft word) (name : String) :
    Follows Stuck (fun c d => Level good (m + 1) c d ∧ c.peek = t) (Shed good m)
      (do
        let _ ← Parser.advance
        let body ← Parser.functionBody expr nested
        return ({ name, params := [], returnType := none, body } : FunctionDecl))
      (do
        let _ ← Parser.advance
        let body ← Parser.functionBody expr' nested'
        return ({ name, params := [], returnType := none, body } : FunctionDecl)) := by
  have hkind := kind_of_isSoft hsoft
  exact seq (advance (by simp [hkind]) (by simp [hkind])) fun _ =>
    (functionBody hexpr hnested hm).value

theorem accessors (property : String) (k : Nat) (getter setter : Option FunctionDecl)
    (hm : m ≤ M) : Follows Never (Level good m) (Shed good m)
      (Parser.accessors expr nested property k getter setter)
      (Parser.accessors expr' nested' property m getter setter) := by
  refine (loop (R := Shed good) (fun _ _ _ _ => Shed.mono)
    (p := fun i k => Parser.accessors expr nested property k i.1 i.2)
    (q := fun i k => Parser.accessors expr' nested' property k i.1 i.2) (fun _ _ _ _ => nofun)
    (fun _ _ => rfl) (fun _ _ => rfl) ?_ k (getter, setter) m hm).mono (fun _ _ => .inl)
      fun _ _ => id
  rintro ⟨getter, setter⟩ k m hm hrest
  refine acceptBrace (pure.mono (fun _ _ => id) fun _ _ h => h.mono (Nat.le_succ m)) ?_
  refine peek (fun _ _ => Level.peek_eq) fun t => ?_
  -- behind the body of an accessor the loop goes on
  have hagain : ∀ {f : FunctionDecl → Option FunctionDecl × Option FunctionDecl}
      {body body' : Parser FunctionDecl},
      Follows Stuck (fun c d => Level good (m + 1) c d ∧ c.peek = t) (Shed good m) body body' →
      Follows Never (fun c d => Level good (m + 1) c d ∧ c.peek = t) (Shed good (m + 1))
        (body >>= fun a => Parser.accessors expr nested property k (f a).1 (f a).2)
        (body' >>= fun a => Parser.accessors expr' nested' property m (f a).1 (f a).2) := by
    intro f body body' hbody
    refine bind hbody (fun _ => keeps_accessors _ _ _ _ _ _) fun a => ?_
    exact (hrest (f a)).mono (fun _ _ h => h.imp_right And.left) fun _ _ => id
  refine ite_of (fun hget => ite fail ?_) fun _ => ite_of (fun hset => ite fail ?_) fun _ =>
    unexpected
  · exact hagain (f := fun a => (some a, setter)) (accessor hexpr hnested (by omega) hget _)
  · exact hagain (f := fun a => (getter, some a)) (accessor hexpr hnested (by omega) hset _)

omit hnested in
/-- A value behind the accessors. -/
theorem lateValue : Follows Stuck (Shed good m) (Shed good m) (Parser.optional .eq expr)
    (Parser.optional .eq expr') := by
  refine resume (.inr rfl) ?_ pure (keeps_pure none)
  exact (level hexpr).of_never.map.mono (fun _ _ => id) fun _ _ => .inl

theorem property (hm : m ≤ M) : Follows Stuck (Level good (m + 1)) (Shed good m)
    (Parser.property expr nested) (Parser.property expr' nested') := by
  refine seq (expectWord _) fun _ => seq (level fun _ => expectName) fun name => ?_
  refine seq (optional (by nofun) (level fun _ => type)) fun ty => ?_
  refine seq (optional (by nofun) (level hexpr)) fun before => ?_
  refine seq (acceptSign (by nofun)) fun braced => ite ?_ ?_
  · refine left (R := Shed good) (fun _ _ _ => Shed.mono) fun c d hn => ?_
    exact seq (accessors hexpr hnested _ _ _ _ (by omega)) fun pair => (lateValue hexpr).value
  · refine seq (T := Shed good m) (pure.mono (fun _ _ => .inl) fun _ _ => id) fun _ => ?_
    exact (lateValue hexpr).value

theorem constructor (hm : m ≤ M) : Follows Stuck (Level good (m + 1)) (Shed good m)
    (Parser.constructor expr nested) (Parser.constructor expr' nested') := by
  refine seq (expectWord _) fun _ => seq (optionalParameters hexpr) fun params => ?_
  exact (functionBody hexpr hnested hm).value

theorem operator (hm : m ≤ M) : Follows Stuck (Level good (m + 1)) (Shed good m)
    (Parser.operator expr nested) (Parser.operator expr' nested') := by
  refine seq (expectWord _) fun _ => advance_bind (fun t _ _ => ?_) fun t ht c a c' h => ?_
  · refine ite fail_bind ?_
    refine seq (level fun _ => expectSign (by nofun)) fun _ => ?_
    refine seq (parameters hexpr) fun params => ?_
    refine seq (optional (by nofun) (level fun _ => type)) fun returnType => ?_
    refine bind (functionBody hexpr hnested hm) (fun body => ?_) fun body => ?_
    · split
      · exact keeps_pure _
      · exact keeps_pure _
      · exact fun _ _ _ _ => nofun
    · split
      · exact pure
      · exact pure
      · exact fail
  · -- no operator can be defined under these
    rcases ht with ht | ht <;>
      · rw [ht] at h
        cases h

theorem classMember (hm : m ≤ M) : Follows Stuck (Level good (m + 1)) (Shed good m)
    (Parser.classMember expr nested) (Parser.classMember expr' nested') := by
  refine get fun c d hcd => seq (T := Level good (m + 1)) ?_ fun flags => ?_
  · refine (modifiers c.rest.length d.rest.length none false).mono ?_ fun _ _ h =>
      h.mono hcd.fits.size
    rintro _ _ ⟨rfl, rfl⟩
    exact ⟨⟨hcd.sheds, ⟨Nat.le_refl _, hcd.fits.ended, hcd.fits.good⟩, hcd.braced⟩, Nat.le_refl _⟩
  · dsimp only
    refine peek (fun _ _ => Level.peek_eq) fun t => ?_
    have hlevel : ∀ {p q : Parser MemberBody},
        Follows Stuck (Level good (m + 1)) (Shed good m) p q →
        Follows Stuck (fun c d => Level good (m + 1) c d ∧ c.peek = t) (Shed good m)
          (p >>= fun body => Pure.pure (⟨flags.1, flags.2, body⟩ : MemberDecl))
          (q >>= fun body => Pure.pure (⟨flags.1, flags.2, body⟩ : MemberDecl)) :=
      fun h => (h.mono (fun _ _ hcd => hcd.1) fun _ _ => id).value
    split
    · next hkind =>
        exact ((field hexpr (.inl hkind)).of_never.mono (fun _ _ => id) fun _ _ => .inl).value
    · next hkind =>
        exact ((field hexpr (.inr hkind)).of_never.mono (fun _ _ => id) fun _ _ => .inl).value
    · exact hlevel (property hexpr hnested hm)
    · exact hlevel (function hexpr hnested hm).map
    · exact hlevel (constructor hexpr hnested hm)
    · exact hlevel (operator hexpr hnested hm)
    · exact hlevel unexpected

theorem members (k : Nat) (hm : m ≤ M) : Follows Never (Level good m) (Level good m)
    (Parser.members expr nested k) (Parser.members expr' nested' m) := by
  refine (loop (R := Level good) (fun _ _ _ _ => Level.mono)
    (p := fun _ : Unit => Parser.members expr nested)
    (q := fun _ => Parser.members expr' nested') (fun _ _ _ _ => nofun)
    (fun _ _ => rfl) (fun _ _ => rfl) ?_ k () m hm).mono (fun _ _ => .inl) fun _ _ => id
  intro _ k m hm hrest
  refine seq (check _) fun _ => ite pure ?_
  refine bind (classMember hexpr hnested (by omega)) (fun _ => ?_) fun _ =>
    seq separates_memberEnd.follows fun _ => (hrest ()).value
  exact separates_memberEnd.keeps.bind fun _ => (keeps_members _ _ k).bind fun _ => .never _

theorem classDeclaration (hm : m ≤ M) : Follows Never (Level good (m + 1)) (Shed good m)
    (Parser.classDeclaration expr nested) (Parser.classDeclaration expr' nested') := by
  refine seq (expectWord _) fun _ => seq (level fun _ => expectName) fun _ => ?_
  refine left (R := Shed good) (fun _ _ _ => Shed.mono) fun c d hd => ?_
  refine seq (optional (by nofun) (commaSeparated (fun _ => type) _ _)) fun bases => ?_
  refine seq (level fun _ => expectSign (by nofun)) fun _ => ?_
  refine left (R := Shed good) (fun _ _ _ => Shed.mono) fun c₁ d₁ hd₁ => ?_
  exact seq (members hexpr hnested _ (by omega)) fun _ => expectBrace.value

/-! ## Statements -/

omit hexpr in
theorem statementsTo {stop : Kind} (hstop : stop = .symbol .rBrace ∨ stop = .finish) (k : Nat)
    (hm : m ≤ M) : Follows Never (Level good m) (Level good m)
      (Parser.statementsTo stop nested k) (Parser.statementsTo stop nested' m) := by
  refine (loop (R := Level good) (fun _ _ _ _ => Level.mono)
    (p := fun _ : Unit => Parser.statementsTo stop nested)
    (q := fun _ => Parser.statementsTo stop nested') (fun _ _ _ _ => nofun)
    (fun _ _ => rfl) (fun _ _ => rfl) ?_ k () m hm).mono (fun _ _ => .inl) fun _ _ => id
  intro _ k m hm hrest
  refine seq (check _) fun _ => ite pure ?_
  refine bind (hnested.follows m hm) (fun _ => ?_) fun _ =>
    seq separates_statementEnd.follows fun _ => (hrest ()).value
  exact separates_statementEnd.keeps.bind fun _ =>
    (keeps_statementsTo hstop hnested.halts k).bind fun _ => .never _

omit hexpr in
theorem block (hm : m ≤ M) : Follows Never (Level good (m + 1)) (Shed good m)
    (Parser.block nested) (Parser.block nested') := by
  refine seq (expectSign (by nofun)) fun _ => ?_
  refine left (R := Shed good) (fun _ _ _ => Shed.mono) fun c d hd => ?_
  exact seq (statementsTo hnested (.inl rfl) _ (by omega)) fun _ => expectBrace.value

theorem ifElse (hm : m ≤ M) : Follows Stuck (Level good (m + 1)) (Shed good m)
    (Parser.ifElse expr nested) (Parser.ifElse expr' nested') := by
  refine seq (expectWord _) fun _ => seq (level hexpr) fun condition => ?_
  refine bind (hnested.level hm) (fun _ => keeps_resume (.inl rfl) (keeps_pure _)) ?_
  intro thenBranch
  exact resume (.inl rfl) (hnested.level hm).value pure (keeps_pure _)

omit hexpr hnested in
theorem expectSoft (word : String) : Follows Never (Level good m) (Level good m)
    (Parser.expectSoft word) (Parser.expectSoft word) := by
  refine peek (fun _ _ => Level.peek_eq) fun t => ite_of (fun hsoft => ?_) fun _ => unexpected
  have hkind := kind_of_isSoft hsoft
  exact (pass (by simp [hkind]) (by simp [hkind])).value

omit hexpr hnested in
theorem loopHead : Follows Never (Level good m) (Level good m) (attempt openingParen)
    (attempt openingParen) := by
  intro c d wrapped c' hcd h
  rw [attempt_openingParen] at h
  rw [attempt_openingParen, ← parenthesized_eq_of_sheds hcd.sheds]
  cases hwrapped : parenthesized c with
  | false =>
      rw [hwrapped] at h
      cases h
      exact .inr ⟨d, rfl, hcd⟩
  | true =>
      rw [hwrapped] at h
      cases h
      rw [parenthesized_eq, Bool.and_eq_true, decide_eq_true_eq] at hwrapped
      have hadvance := pass (t := c.peek) (by simp [hwrapped.1]) (by simp [hwrapped.1]) ⟨hcd, rfl⟩
        (show Parser.advance c = .ok c.peek c.next from rfl)
      obtain ⟨⟨⟩⟩ | ⟨d', hd, hlevel⟩ := hadvance
      have hnext : d.next = d' := (EStateM.Result.ok.inj hd).2
      exact .inr ⟨d.next, rfl, hnext ▸ hlevel⟩

theorem forLoop (hm : m ≤ M) : Follows Stuck (Level good (m + 1)) (Shed good m)
    (Parser.forLoop expr nested) (Parser.forLoop expr' nested') := by
  refine seq (expectWord _) fun _ => seq loopHead fun wrapped => ?_
  refine seq (level fun _ => expectName) fun counter => ?_
  refine seq (level fun _ => expectSign (by nofun)) fun _ => seq (level hexpr) fun start => ?_
  refine seq (expectSoft _) fun _ => seq (level hexpr) fun stop => ?_
  refine peek (fun _ _ => Level.peek_eq) fun t => ?_
  refine ite_of (fun hsoft => ?_) fun _ => ?_
  · have hkind := kind_of_isSoft hsoft
    refine seq (pass (by simp [hkind]) (by simp [hkind])) fun _ =>
      seq (level hexpr).map fun _ => ?_
    exact ite (seq (level fun _ => expectSign (by nofun)) fun _ => (hnested.level hm).value)
      (hnested.level hm).value
  · refine seq (T := Level good m) (pure.mono (fun _ _ h => h.1) fun _ _ => id) fun _ => ?_
    exact ite (seq (level fun _ => expectSign (by nofun)) fun _ => (hnested.level hm).value)
      (hnested.level hm).value

theorem whileLoop (hm : m ≤ M) : Follows Stuck (Level good (m + 1)) (Shed good m)
    (Parser.whileLoop expr nested) (Parser.whileLoop expr' nested') := by
  refine seq (expectWord _) fun _ => seq (level hexpr) fun condition => ?_
  exact (hnested.level hm).value

theorem doWhile (hm : m ≤ M) : Follows Stuck (Level good (m + 1)) (Shed good m)
    (Parser.doWhile expr nested) (Parser.doWhile expr' nested') := by
  -- a semicolon cannot stand before the word
  have hword : ∀ {c : Cursor} {u : Unit} {c' : Cursor}, nextKind c.rest = .symbol .semicolon →
      Parser.expectWord .whileKw c ≠ .ok u c' := by
    intro c u c' hc h
    obtain ⟨t, c₁, hexpect, -⟩ := exists_of_bind_eq_ok h
    rw [(expect_eq_ok hexpect).1] at hc
    cases hc
  refine seq (expectWord _) fun _ => bind (hnested.level hm) (fun _ => ?_) fun _ => ?_
  · exact Keeps.bind (fun _ _ _ hstuck h => absurd h (hword hstuck.nextKind_eq)) fun _ => .never _
  · refine seq (T := Level good m) ?_ fun _ =>
      ((level hexpr).of_never.mono (fun _ _ => id) fun _ _ => .inl).value
    exact or (level fun _ => expectWord _) fun _ _ _ _ h hp => absurd hp (hword h.1.nextKind_eq)

omit hnested in
theorem varDeclaration : Follows Never (Level good (m + 1)) (Level good m)
    (Parser.varDeclaration expr) (Parser.varDeclaration expr') := by
  refine seq (expectWord _) fun _ => seq (level fun _ => expectName) fun name => ?_
  refine seq (optional (by nofun) (level fun _ => type)) fun ty => ?_
  exact (optional (by nofun) (level hexpr)).value

omit hnested in
theorem constant : Follows Never (Level good (m + 1)) (Level good m)
    (Parser.constant expr) (Parser.constant expr') := by
  refine seq (expectWord _) fun _ => seq (level fun _ => expectName) fun name => ?_
  refine seq (level fun _ => expectSign (by nofun)) fun _ => ?_
  exact (level hexpr).value

omit hnested in
theorem returnValue : Follows Never (Level good (m + 1)) (Level good m)
    (Parser.returnValue expr) (Parser.returnValue expr') := by
  refine seq (expectWord _) fun _ => peek (fun _ _ => Level.peek_eq) fun t => ?_
  refine mono (S := Level good m) ?_ (fun _ _ h => h.1) fun _ _ => id
  split
  · exact pure
  · exact pure
  · exact pure
  · exact (level hexpr).value

theorem statement (hm : m ≤ M) : Follows Stuck (Level good (m + 1)) (Shed good m)
    (Parser.statement expr nested) (Parser.statement expr' nested') := by
  have hlevel : ∀ {p q : Parser Stmt}, Follows Never (Level good (m + 1)) (Level good m) p q →
      Follows Stuck (Level good (m + 1)) (Shed good m) p q :=
    fun h => h.of_never.mono (fun _ _ => id) fun _ _ => .inl
  refine peek (fun _ _ => Level.peek_eq) fun t => ?_
  refine mono (S := Level good (m + 1)) ?_ (fun _ _ h => h.1) fun _ _ => id
  split
  · exact ifElse hexpr hnested hm
  · exact forLoop hexpr hnested hm
  · exact whileLoop hexpr hnested hm
  · exact doWhile hexpr hnested hm
  · exact hlevel (varDeclaration hexpr)
  · exact hlevel (constant hexpr)
  · exact (function hexpr hnested hm).map
  · exact hlevel (returnValue hexpr)
  · exact (classDeclaration hexpr hnested hm).of_never.map
  · exact (block hnested hm).of_never
  · exact hlevel (hexpr m).map

omit hnested in
theorem statementAt (hhalts : Keeps Halted Never expr) (k : Nat) :
    ∀ M, Nested good M (Parser.statementAt expr k) (Parser.statementAt expr' M) := by
  induction k with
  | zero => exact fun M => ⟨fun _ _ => unexpected, fun _ _ _ _ => nofun⟩
  | succ k ih =>
      refine fun M => ⟨fun m hm => ?_, keeps_statement hhalts _⟩
      cases M with
      | zero => exact absurd hm (Nat.not_lt_zero m)
      | succ M => exact statement hexpr (ih M) (Nat.le_of_lt_succ hm)

end Grammar

theorem program {string string' : StringRule}
    (hgood : ∀ t, good t → ∀ quote, t.kind = .string quote → ∀ e, string t = .ok e →
      string' t = .ok e) :
    Follows Never (Level good m) (Level good m) (Parser.program string)
      (Parser.program string') := by
  refine left (R := Level good) (fun _ _ _ => Level.mono) fun c d _ => ?_
  have hnested := statementAt (fun _ => expression hgood) (keeps_expression string) c.rest.length
    d.rest.length
  exact statementsTo hnested (.inr rfl) _ (Nat.le_refl _)

end Follows

end Parser

/-! ## Whole inputs -/

namespace Cursor

def Ends (ts : List Token) : Prop :=
  ts.getLast?.map Token.kind = some .finish

theorem closed_of_ends {ts : List Token} (h : Ends ts) : closed ts = ts := by
  obtain ⟨last, hlast, hkind⟩ := Option.map_eq_some_iff.mp h
  rw [closed, hlast]
  exact if_pos hkind

theorem Ends.exists_finish {ts : List Token} (h : Ends ts) : ∃ t ∈ ts, t.kind = .finish := by
  obtain ⟨last, hlast, hkind⟩ := Option.map_eq_some_iff.mp h
  exact ⟨last, List.mem_of_getLast? hlast, hkind⟩

/-- What is put behind tokens, by the last of them. -/
def ending (last : Token) : List Token :=
  if last.kind = .finish then []
  else [⟨.finish, "", last.position, ⟨last.span.stop, last.span.stop⟩⟩]

theorem closed_concat (ts : List Token) (last : Token) :
    closed (ts ++ [last]) = ts ++ [last] ++ ending last := by
  unfold closed ending
  rw [List.getLast?_concat]
  dsimp only
  split
  · rw [List.append_nil]
  · rfl

theorem ends_closed (ts : List Token) : Ends (closed ts) := by
  rcases List.eq_nil_or_concat' ts with rfl | ⟨ts, last, rfl⟩
  · rfl
  · rw [closed_concat, ending]
    split
    · next h => simp [Ends, h]
    · simp [Ends]

theorem ending_like {t u : Token} (ht : t.kind ≠ .finish) (hu : u.kind ≠ .finish) :
    List.Forall₂ (Token.Like Anywhere) (ending t) (ending u) := by
  rw [ending, ending, if_neg ht, if_neg hu]
  exact .cons ⟨rfl, rfl, trivial⟩ .nil

end Cursor

theorem Parser.depthOf_closed (tokens : List Token) :
    Parser.depthOf (Cursor.closed tokens) = Parser.depthOf tokens := by
  rcases List.eq_nil_or_concat' tokens with rfl | ⟨ts, last, rfl⟩
  · rfl
  · rw [Cursor.closed_concat, Cursor.ending]
    split <;> simp [Parser.depthOf]

theorem parse_closed (tokens : List Token) : parse (Cursor.closed tokens) = parse tokens := by
  have hcursor : Cursor.ofTokens (Cursor.closed tokens) = .ofTokens tokens := by
    rw [Cursor.ofTokens, Cursor.ofTokens, Cursor.closed_of_ends (Cursor.ends_closed tokens)]
  rw [parse, parse, Parser.depthOf_closed, hcursor]

theorem parse_eq_ok_iff {ts : List Token} (h : Cursor.Ends ts) {program : List Stmt} :
    parse ts = .ok program ↔
      ∃ c, Parser.program (Parser.stringRule (Parser.depthOf ts)) ⟨[], ts⟩ = .ok program c := by
  rw [parse, Cursor.ofTokens, Cursor.closed_of_ends h]
  cases hrun : Parser.program (Parser.stringRule (Parser.depthOf ts)) ⟨[], ts⟩ with
  | ok value c => simp
  | error fault c => simp

/-- Without some semicolons behind closing braces, tokens are read as the same program. -/
theorem parse_of_sheds {ts us : List Token} (h : Sheds ts us) (hts : Cursor.Ends ts)
    (hus : Cursor.Ends us) {program : List Stmt} (hparse : parse ts = .ok program) :
    parse us = .ok program := by
  obtain ⟨c, hrun⟩ := (parse_eq_ok_iff hts).mp hparse
  -- the strings in the tokens are read alike, because both runs allow for their depth
  let good : Token → Prop := fun t =>
    t.value.length < Parser.depthOf ts ∧ t.value.length < Parser.depthOf us
  have hgood : ∀ t, good t → ∀ quote, t.kind = .string quote → ∀ e,
      Parser.stringRule (Parser.depthOf ts) t = .ok e →
      Parser.stringRule (Parser.depthOf us) t = .ok e := fun t ht _ _ e he =>
    Parser.stringRule_mono (Parser.nests_value t) ht.1 ht.2 he
  have hfits : Parser.Fits good us.length us :=
    ⟨Nat.le_refl _, hus.exists_finish, fun t ht =>
      ⟨Parser.length_lt_depthOf (h.subset ht), Parser.length_lt_depthOf ht⟩⟩
  have hlevel : Parser.Level good us.length ⟨[], ts⟩ ⟨[], us⟩ := ⟨h, hfits, nofun⟩
  obtain hnever | ⟨d, hrun', -⟩ := Parser.Follows.program hgood hlevel hrun
  · exact hnever.elim
  · exact (parse_eq_ok_iff hus).mpr ⟨d, hrun'⟩

/-- Closing two inputs does not set them further apart, but for the place of the end. -/
theorem sheds_closed {brace semicolon : Token} (hbrace : Grammar.Sign .rBrace brace)
    (hsemicolon : Grammar.Sign .semicolon semicolon) (before after : List Token) :
    ∃ us, Sheds (Cursor.closed (before ++ brace :: semicolon :: after)) us ∧
      List.Forall₂ (Token.Like Anywhere) us (Cursor.closed (before ++ brace :: after)) := by
  have hsame : ∀ ts : List Token, List.Forall₂ (Token.Like Anywhere) ts ts := fun ts =>
    List.forall₂_same.mpr fun t _ => ⟨rfl, rfl, trivial⟩
  rcases List.eq_nil_or_concat' after with rfl | ⟨after, last, rfl⟩
  · have hclosed := Cursor.closed_concat (before ++ [brace]) semicolon
    have hclosed' := Cursor.closed_concat before brace
    refine ⟨before ++ [brace] ++ Cursor.ending semicolon, ?_, ?_⟩
    · simp only [List.append_assoc, List.cons_append, List.nil_append] at hclosed ⊢
      rw [hclosed]
      exact .append_left before (.drop hbrace hsemicolon (.refl _))
    · rw [hclosed']
      exact List.rel_append (hsame _)
        (Cursor.ending_like hsemicolon.kind_ne_finish hbrace.kind_ne_finish)
  · have hclosed := Cursor.closed_concat (before ++ brace :: semicolon :: after) last
    have hclosed' := Cursor.closed_concat (before ++ brace :: after) last
    simp only [List.append_assoc, List.cons_append] at hclosed hclosed'
    refine ⟨_, ?_, hsame _⟩
    rw [hclosed, hclosed']
    exact .append_left before (.drop hbrace hsemicolon (.refl _))

/-- A closing brace needs no separator: tokens without a semicolon directly behind one are read as
the same program. -/
theorem parse_without_semicolon {before after : List Token} {brace semicolon : Token}
    (hbrace : brace.kind = .symbol .rBrace) (hsemicolon : semicolon.kind = .symbol .semicolon)
    {program : List Stmt} (h : parse (before ++ brace :: semicolon :: after) = .ok program) :
    parse (before ++ brace :: after) = .ok program := by
  obtain ⟨us, hsheds, hlike⟩ := sheds_closed hbrace hsemicolon before after
  have hus : Cursor.Ends us := by
    have hkinds := map_eq_of_like (fun kind _ => kind) hlike
    have hends := Cursor.ends_closed (before ++ brace :: after)
    rw [Cursor.Ends, ← List.getLast?_map] at hends ⊢
    rw [hkinds]
    exact hends
  rw [← parse_closed] at h ⊢
  have hshed := parse_of_sheds hsheds (Cursor.ends_closed _) hus h
  have hsame := parse_same hlike hus
  rw [hshed] at hsame
  generalize parse (Cursor.closed (before ++ brace :: after)) = result at hsame
  cases hsame
  rfl

/-- The tokens of `class A { prop p { get {`, up to the brace that closes the getter. -/
def openAccessor : List Token :=
  [⟨.keyword .classKw, "class", default, default⟩, ⟨.identifier, "A", default, default⟩,
   ⟨.symbol .lBrace, "\x7b", default, default⟩, ⟨.keyword .propKw, "prop", default, default⟩,
   ⟨.identifier, "p", default, default⟩, ⟨.symbol .lBrace, "\x7b", default, default⟩,
   ⟨.identifier, "get", default, default⟩, ⟨.symbol .lBrace, "\x7b", default, default⟩]

def braceToken : Token :=
  ⟨.symbol .rBrace, "\x7d", default, default⟩

def semicolonToken : Token :=
  ⟨.symbol .semicolon, ";", default, default⟩

/-- The tokens of `set = x }; }`. -/
def secondAccessor : List Token :=
  [⟨.identifier, "set", default, default⟩, ⟨.symbol .eq, "=", default, default⟩,
   ⟨.identifier, "x", default, default⟩, braceToken, semicolonToken, braceToken]

def accessorClass : ClassDecl :=
  ⟨"A", [], [⟨.ownClass, false, .property "p" none (some ⟨"get p", [], none, .block []⟩)
    (some ⟨"set p", [], none, .ret (some (.var "x"))⟩) none⟩]⟩

theorem parse_accessors_without_semicolon :
    braceToken.kind = .symbol .rBrace ∧ semicolonToken.kind = .symbol .semicolon ∧
      parse (openAccessor ++ braceToken :: semicolonToken :: secondAccessor) =
        .ok [.classDecl accessorClass] ∧
      parse (openAccessor ++ braceToken :: secondAccessor) = .ok [.classDecl accessorClass] := by
  have hparse : parse (openAccessor ++ braceToken :: semicolonToken :: secondAccessor) =
      .ok [.classDecl accessorClass] := rfl
  exact ⟨rfl, rfl, hparse, parse_without_semicolon rfl rfl hparse⟩

end ClassScript
