import ClassScript.Proofs.TerminationGrammar

/-!
# The parser stops

Statements and classes end as expressions do: each rule takes a token before it calls itself again,
and each round of a loop takes one. So the parser stops on all tokens, in any order, and its bounds
are never what stops it. It stops at the first token for the end, or at a fault before it.
-/

namespace ClassScript.Descent

open Attempt (ofParser outcome_lift_of_error outcome_lift_of_ok)

variable {rule : Parser.StringRule} {m k : Nat} {c : Cursor} {t : Token} {expr : Parser Expr}
  {nested : Parser Stmt}

/-! ## Functions -/

section Functions

variable (hexpr : ∀ m, Tracks (Within rule (m + 1)) (Within rule m) expression expr)

include hexpr

theorem tracks_parameter (m : Nat) :
    Tracks (Within rule (m + 1)) (Within rule m) parameter (Parser.parameter expr) := by
  refine .bind .expectName fun name => .bind (.expectSign_level _) fun _ => ?_
  exact .bind (.level tracks_type) fun ty => .value (.optional fun n _ => .level hexpr)

theorem tracks_parameters :
    Tracks (Within rule m) (Within rule m) parameters (Parser.parameters expr) := by
  refine .acceptSign (fun n hn => .widen .pure (by omega)) <| .sized fun c hc => ?_
  have hlist : Takes rule c.rest.length parameterList
      (Parser.commaSeparated (Parser.parameter expr) c.rest.length) :=
    .commaSeparated parameterList.eq_2 (fun n _ => tracks_parameter hexpr n) (Nat.le_refl _)
  refine .bind (hlist.level (Nat.le_refl _)) fun params => ?_
  exact .value (.widen (.expectSign_level _) hc)

theorem tracks_optionalParameters :
    Tracks (Within rule m) (Within rule m) optionalParameters (Parser.optionalParameters expr) :=
  .value (.optional fun _ _ => tracks_parameters hexpr)

theorem tracks_functionBody (hnested : Takes rule m statement nested) :
    Tracks (Within rule m) (Within rule m) functionBody (Parser.functionBody expr nested) := by
  rw [Parser.functionBody]
  refine .of_succ functionBody.eq_2 ?_
  refine .acceptSign (fun n hn => ?_) <| .acceptSign (fun n hn => ?_) <|
    .check_bind (.anywhere (hnested.level (Nat.le_refl m))) .unexpected
  · exact .value (.widen (.level hexpr) (by omega))
  · exact .widen (hnested.level (by omega)) (by omega)

theorem tracks_function (hnested : Takes rule m statement nested) :
    Tracks (Within rule (m + 1)) (Within rule m) function (Parser.function expr nested) := by
  rw [Parser.function]
  refine .of_succ function.eq_2 ?_
  refine .bind (.expectWord _) fun _ => .bind .expectName_level fun name => ?_
  refine .bind (tracks_optionalParameters hexpr) fun params => ?_
  refine .bind (.optional fun _ _ => .level tracks_type) fun declared => ?_
  exact .value (tracks_functionBody hexpr hnested)

/-! ## Classes -/

theorem tracks_field (ht : t.kind ≠ .finish) :
    Tracks (fun c => Within rule (m + 1) c ∧ c.peek = t) (Within rule m) field
      (Parser.field expr) := by
  refine .bind (.advance ht) fun _ => .bind .expectName_level fun name => ?_
  refine .bind (.optional fun _ _ => .level tracks_type) fun ty => ?_
  exact .value (.optional fun _ _ => .level hexpr)

theorem tracks_accessor {property word : String} (ht : t.isSoft word)
    (hnested : Takes rule m statement nested) :
    Tracks (fun c => Within rule (m + 1) c ∧ c.peek = t) (Within rule m) (accessor property t)
      (do
        let _ ← Parser.advance
        let body ← Parser.functionBody expr nested
        return { name := t.value ++ " " ++ property, params := [], returnType := none, body }) := by
  have hkind : t.kind ≠ .finish := by simp [Parser.kind_of_isSoft ht]
  refine .of_succ (accessor.eq_2 property t) ?_
  exact .bind (.advance hkind) fun _ => .value (tracks_functionBody hexpr hnested)

theorem tracks_accessors {property : String} (hnested : Takes rule m statement nested)
    (hk : m ≤ k) (getter setter : Option FunctionDecl) :
    Tracks (Within rule m) (Within rule m) (accessors property getter setter)
      (Parser.accessors expr nested property k getter setter) := by
  induction k generalizing m getter setter with
  | zero => exact .of_le_zero hk
  | succ k ih =>
      cases m with
      | zero => exact .of_zero
      | succ m =>
          have hmore : ∀ n ≤ m, ∀ getter setter, Tracks (Within rule n) (Within rule (m + 1))
              (accessors property getter setter)
              (Parser.accessors expr nested property k getter setter) := fun n hn _ _ =>
            (ih (hnested.mono (by omega)) (by omega) _ _).widen (by omega)
          have hbody : Takes rule m statement nested := hnested.mono (Nat.le_succ m)
          rw [Parser.accessors]
          refine .of_succ (accessors.eq_2 property getter setter) ?_
          refine .acceptSign (fun n hn => hmore n (by omega) _ _) ?_
          refine .acceptSign (fun n hn => .widen .pure (by omega)) (.peek fun t => ?_)
          refine .ite_of (fun hget => .ite .fail ?_) fun _ =>
            .ite_of (fun hset => .ite .fail ?_) fun _ => .unexpected
          · exact .bind (tracks_accessor hexpr hget hbody) fun _ => hmore m (Nat.le_refl m) _ _
          · exact .bind (tracks_accessor hexpr hset hbody) fun _ => hmore m (Nat.le_refl m) _ _

theorem tracks_property (hnested : Takes rule m statement nested) :
    Tracks (Within rule (m + 1)) (Within rule m) property (Parser.property expr nested) := by
  rw [Parser.property]
  refine .of_succ property.eq_2 ?_
  refine .bind (.expectWord _) fun _ => .bind .expectName_level fun name => ?_
  refine .bind (.optional fun _ _ => .level tracks_type) fun ty => ?_
  refine .bind (.optional fun _ _ => .level hexpr) fun before => ?_
  refine .acceptSign (fun n hn => .sized fun c hc => ?_) ?_
  · refine .bind (tracks_accessors hexpr (hnested.mono (by omega)) (Nat.le_refl _) _ _) fun _ => ?_
    exact .value (.widen (.optional fun _ _ => .level hexpr) (by omega))
  · exact .bind .pure fun _ => .value (.optional fun _ _ => .level hexpr)

theorem tracks_constructor (hnested : Takes rule m statement nested) :
    Tracks (Within rule (m + 1)) (Within rule m) constructor (Parser.constructor expr nested) := by
  rw [Parser.constructor]
  refine .of_succ constructor.eq_2 ?_
  refine .bind (.expectWord _) fun _ => .bind (tracks_optionalParameters hexpr) fun params => ?_
  exact .value (tracks_functionBody hexpr hnested)

theorem tracks_operator (hnested : Takes rule m statement nested) :
    Tracks (Within rule (m + 1)) (Within rule m) operator (Parser.operator expr nested) := by
  rw [Parser.operator]
  refine .of_succ operator.eq_2 ?_
  refine .bind (.expectWord _) fun _ => .bind .advance_level fun token => ?_
  cases Parser.definable token.kind with
  | mk binary unary =>
      refine .ite .fail_bind <| .bind (.expectSign_level _) fun _ => ?_
      refine .bind (tracks_parameters hexpr) fun params => ?_
      refine .bind (.optional fun _ _ => .level tracks_type) fun returnType => ?_
      refine .bind (tracks_functionBody hexpr hnested) fun body => ?_
      rcases params with _ | ⟨param, _ | ⟨second, more⟩⟩
      · cases unary with
        | some op => exact .pure
        | none => exact .fail
      · cases binary with
        | some op => exact .pure
        | none => exact .fail
      · exact .fail

omit hexpr in
/-- The words are taken one by one; a second word of a sort is a fault. -/
theorem tracks_modifiers (hk : m ≤ k) (access : Option Access) (isStatic : Bool) :
    Tracks (Within rule m) (Within rule m) (modifiers access isStatic)
      (Parser.modifiers k access isStatic) := by
  induction k generalizing m access isStatic with
  | zero => exact .of_le_zero hk
  | succ k ih =>
      have hmore : ∀ t : Token, t.kind ≠ .finish → ∀ access isStatic,
          Tracks (fun c => Within rule m c ∧ c.peek = t) (Within rule m)
            (fun n => do let _ ← Parser.advance; modifiers access isStatic n)
            (do let _ ← Parser.advance; Parser.modifiers k access isStatic) :=
        fun _ ht _ _ => .pass ht fun n hn => (ih (by omega) _ _).widen (by omega)
      rw [Parser.modifiers]
      refine .of_succ (modifiers.eq_2 access isStatic) <| .peek fun t => ?_
      obtain ⟨kind, value, position, span⟩ := t
      cases kind with
      | keyword word =>
          cases word with
          | publicKw | privateKw | protectedKw =>
              cases access with
              | some earlier => exact .fail
              | none => exact hmore _ (by simp) _ _
          | staticKw => exact .ite (.ite .fail (hmore _ (by simp) _ _)) (.anywhere .pure)
          | _ => exact .anywhere .pure
      | _ => exact .anywhere .pure

theorem tracks_classMember (hnested : Takes rule m statement nested) :
    Tracks (Within rule (m + 1)) (Within rule m) classMember
      (Parser.classMember expr nested) := by
  rw [Parser.classMember]
  refine .of_succ classMember.eq_2 ?_
  refine .sized fun c hc => ?_
  refine .bind ((tracks_modifiers (Nat.le_refl _) _ _).widen hc) fun _ => ?_
  refine .peek fun t => ?_
  obtain ⟨kind, value, position, span⟩ := t
  cases kind with
  | keyword word =>
      cases word with
      | varKw => exact .value (tracks_field hexpr (by simp))
      | constKw => exact .value (tracks_field hexpr (by simp))
      | propKw => exact .anywhere (.value (tracks_property hexpr hnested))
      | functionKw => exact .anywhere (.value (.map (tracks_function hexpr hnested)))
      | constructorKw => exact .anywhere (.value (tracks_constructor hexpr hnested))
      | operatorKw => exact .anywhere (.value (tracks_operator hexpr hnested))
      | _ => exact .value .unexpected
  | _ => exact .value .unexpected

omit hexpr in
theorem tracks_afterBrace {S : Cursor → Prop} :
    Tracks S S (fun _ => liftM Parser.afterBrace) Parser.afterBrace :=
  .look fun _ => rfl

omit hexpr in
theorem tracks_memberEnd :
    Tracks (Within rule m) (Within rule m) (fun _ => liftM Parser.memberEnd) Parser.memberEnd := by
  refine .lift_bind .acceptSign_level fun b => .lift_ite .pure ?_
  refine .lift_bind (.check _) fun b => .lift_ite .pure ?_
  refine .lift_bind tracks_afterBrace fun b => .lift_ite .pure ?_
  exact fun c _ => ⟨_, .of_forall fun _ => rfl, .error (.refl c)⟩

theorem tracks_members (hnested : Takes rule m statement nested) (hk : m ≤ k) :
    Tracks (Within rule m) (Within rule m) members (Parser.members expr nested k) := by
  induction k generalizing m with
  | zero => exact .of_le_zero hk
  | succ k ih =>
      have hmore : ∀ n < m, Tracks (Within rule n) (Within rule m) members
          (Parser.members expr nested k) :=
        fun n hn => (ih (hnested.mono (by omega)) (by omega)).widen (by omega)
      rw [Parser.members]
      refine .of_succ members.eq_2 ?_
      refine .acceptSign hmore (.check_bind (.anywhere .pure) ?_)
      -- a member takes a token, which leaves fewer for the others
      cases m with
      | zero => exact .of_zero
      | succ m =>
          refine .bind (tracks_classMember hexpr (hnested.mono (Nat.le_succ m))) fun first => ?_
          exact .bind tracks_memberEnd fun _ => .value (hmore m (Nat.lt_succ_self m))

theorem tracks_classDeclaration (hnested : Takes rule m statement nested) :
    Tracks (Within rule (m + 1)) (Within rule m) classDeclaration
      (Parser.classDeclaration expr nested) := by
  rw [Parser.classDeclaration]
  refine .of_succ classDeclaration.eq_2 ?_
  refine .bind (.expectWord _) fun _ => .bind .expectName_level fun name => ?_
  refine .sized fun c hc => ?_
  have htypes : Takes rule c.rest.length types
      (Parser.commaSeparated Parser.type c.rest.length) :=
    .commaSeparated types.eq_2 (fun n _ => tracks_type n) (Nat.le_refl _)
  refine .bind (.optional fun n hn => htypes.level (Nat.le_of_lt hn)) fun bases => ?_
  refine .bind (.expectSign_level _) fun _ => .sized fun d hd => ?_
  refine .bind (tracks_members hexpr (hnested.mono (by omega)) (Nat.le_refl _)) fun members => ?_
  exact .value (.widen (.expectSign_level _) (by omega))

/-! ## Statements -/

omit hexpr in
theorem tracks_statementEnd :
    Tracks (Within rule m) (Within rule m) (fun _ => liftM Parser.statementEnd)
      Parser.statementEnd := by
  refine .lift_bind .acceptSign_level fun b => .lift_ite .pure ?_
  refine .lift_bind (.check _) fun b => .lift_ite .pure ?_
  refine .lift_bind (.check _) fun b => .lift_ite .pure ?_
  refine .lift_bind tracks_afterBrace fun b => .lift_ite .pure ?_
  exact .unexpected

omit hexpr in
/-- The token that ends the statements comes next, for it is left. -/
theorem tracks_statementsTo {stop : Kind} (hnested : Takes rule m statement nested) (hk : m ≤ k) :
    Tracks (Within rule m) (fun c => Within rule m c ∧ c.peek.kind = stop) (statementsTo stop)
      (Parser.statementsTo stop nested k) := by
  induction k generalizing m with
  | zero => exact .of_le_zero hk
  | succ k ih =>
      have hmore : ∀ n < m, Tracks (Within rule n)
          (fun c => Within rule m c ∧ c.peek.kind = stop) (statementsTo stop)
          (Parser.statementsTo stop nested k) := fun n hn =>
        (ih (hnested.mono (by omega)) (by omega)).mono (fun _ => id) fun _ hc =>
          ⟨hc.1.mono (by omega), hc.2⟩
      rw [Parser.statementsTo]
      refine .of_succ (statementsTo.eq_2 stop) ?_
      refine .acceptSign hmore (.check_bind .pure ?_)
      cases m with
      | zero => exact .of_zero
      | succ m =>
          refine .bind (hnested m (Nat.lt_succ_self m)) fun first => ?_
          exact .bind tracks_statementEnd fun _ => .value (hmore m (Nat.lt_succ_self m))

omit hexpr in
theorem tracks_block (hnested : Takes rule m statement nested) :
    Tracks (Within rule (m + 1)) (Within rule m) block (Parser.block nested) := by
  rw [Parser.block]
  refine .of_succ block.eq_2 ?_
  refine .bind (.expectSign _) fun _ => .sized fun c hc => ?_
  refine .bind (tracks_statementsTo (hnested.mono hc) (Nat.le_refl _)) fun body => ?_
  exact .anywhere (.value (.widen (.expectSign_level _) hc))

theorem tracks_ifElse (hnested : Takes rule m statement nested) :
    Tracks (Within rule (m + 1)) (Within rule m) ifElse (Parser.ifElse expr nested) := by
  rw [Parser.ifElse]
  refine .of_succ ifElse.eq_2 ?_
  refine .bind (.expectWord _) fun _ => .bind (.level hexpr) fun condition => ?_
  refine .bind (hnested.level (Nat.le_refl m)) fun thenBranch => ?_
  refine .accept (by simp) (fun n hn => ?_) .pure
  exact .value (.widen (hnested.level (by omega)) (by omega))

omit hexpr in
theorem tracks_loopHead : Tracks (Within rule m) (Within rule m)
    (fun _ => liftM (Parser.attempt Parser.openingParen))
    (Parser.attempt Parser.openingParen) := by
  intro c hc
  have hattempt := Parser.attempt_openingParen c
  split at hattempt
  · rw [hattempt]
    exact ⟨_, .of_forall fun _ => outcome_lift_of_ok hattempt, .ok (.next c) hc.next_level⟩
  · rw [hattempt]
    exact ⟨_, .of_forall fun _ => outcome_lift_of_ok hattempt, .ok (.refl c) hc⟩

omit hexpr in
theorem tracks_wrap {P : Prop} [Decidable P] {s : Symbol} {q : Descent Stmt} {p : Parser Stmt}
    (h : Tracks (Within rule m) (Within rule m) q p) :
    Tracks (Within rule m) (Within rule m)
      (fun n => if P then do Parser.expectSign s; q n else q n)
      (if P then do Parser.expectSign s; p else p) :=
  .ite (.bind (.expectSign_level _) fun _ => h) h

theorem tracks_forLoop (hnested : Takes rule m statement nested) :
    Tracks (Within rule (m + 1)) (Within rule m) forLoop (Parser.forLoop expr nested) := by
  have hbody := hnested.level (Nat.le_refl m)
  rw [Parser.forLoop]
  refine .of_succ forLoop.eq_2 ?_
  refine .bind (.expectWord _) fun _ => .bind tracks_loopHead fun wrapped => ?_
  refine .bind .expectName_level fun counter => ?_
  refine .bind (.expectSign_level _) fun _ => .bind (.level hexpr) fun start => ?_
  refine .bind (.expectSoft _) fun _ => .bind (.level hexpr) fun stop => ?_
  refine .peek fun t => .anywhere (.ite ?_ ?_)
  · refine .bind .advance_level fun _ => .bind (.map (.level hexpr)) fun step => ?_
    exact tracks_wrap (.value hbody)
  · exact .bind .pure fun step => tracks_wrap (.value hbody)

theorem tracks_whileLoop (hnested : Takes rule m statement nested) :
    Tracks (Within rule (m + 1)) (Within rule m) whileLoop (Parser.whileLoop expr nested) := by
  rw [Parser.whileLoop]
  refine .of_succ whileLoop.eq_2 ?_
  refine .bind (.expectWord _) fun _ => .bind (.level hexpr) fun condition => ?_
  exact .value (hnested.level (Nat.le_refl m))

theorem tracks_doWhile (hnested : Takes rule m statement nested) :
    Tracks (Within rule (m + 1)) (Within rule m) doWhile (Parser.doWhile expr nested) := by
  rw [Parser.doWhile]
  refine .of_succ doWhile.eq_2 ?_
  refine .bind (.expectWord _) fun _ => .bind (hnested.level (Nat.le_refl m)) fun body => ?_
  exact .bind (.level fun _ => .expectWord _) fun _ => .value (.level hexpr)

theorem tracks_varDeclaration (m : Nat) :
    Tracks (Within rule (m + 1)) (Within rule m) varDeclaration (Parser.varDeclaration expr) := by
  refine .bind (.expectWord _) fun _ => .bind .expectName_level fun name => ?_
  refine .bind (.optional fun _ _ => .level tracks_type) fun ty => ?_
  exact .value (.optional fun _ _ => .level hexpr)

theorem tracks_constant (m : Nat) :
    Tracks (Within rule (m + 1)) (Within rule m) constant (Parser.constant expr) := by
  refine .bind (.expectWord _) fun _ => .bind .expectName_level fun name => ?_
  exact .bind (.expectSign_level _) fun _ => .value (.level hexpr)

theorem tracks_returnValue (m : Nat) :
    Tracks (Within rule (m + 1)) (Within rule m) returnValue (Parser.returnValue expr) := by
  have hvalue : Tracks (Within rule m) (Within rule m) expression expr := .level hexpr
  refine .bind (.expectWord _) fun _ => .peek fun t => .anywhere ?_
  obtain ⟨kind, value, position, span⟩ := t
  cases kind with
  | symbol s =>
      cases s with
      | rBrace | semicolon => exact .pure
      | _ => exact .value hvalue
  | finish => exact .pure
  | _ => exact .value hvalue

theorem takes_statement (hnested : Takes rule m statement nested) :
    Takes rule (m + 1) statement (Parser.statement expr nested) := by
  intro n hn
  have hinner : Takes rule n statement nested := hnested.mono (by omega)
  rw [Parser.statement]
  refine .of_succ statement.eq_2 ?_
  refine .peek fun t => .anywhere ?_
  obtain ⟨kind, value, position, span⟩ := t
  cases kind with
  | keyword word =>
      cases word with
      | ifKw => exact tracks_ifElse hexpr hinner
      | forKw => exact tracks_forLoop hexpr hinner
      | whileKw => exact tracks_whileLoop hexpr hinner
      | doKw => exact tracks_doWhile hexpr hinner
      | varKw => exact tracks_varDeclaration hexpr n
      | constKw => exact tracks_constant hexpr n
      | functionKw => exact .map (tracks_function hexpr hinner)
      | returnKw => exact tracks_returnValue hexpr n
      | classKw => exact .map (tracks_classDeclaration hexpr hinner)
      | _ => exact .map (hexpr n)
  | symbol s =>
      cases s with
      | lBrace => exact tracks_block hinner
      | _ => exact .map (hexpr n)
  | _ => exact .map (hexpr n)

theorem takes_statementAt (bound : Nat) :
    Takes rule bound statement (Parser.statementAt expr bound) := by
  induction bound with
  | zero => exact fun m hm => absurd hm (Nat.not_lt_zero m)
  | succ bound ih => exact takes_statement hexpr ih

end Functions

theorem tracks_program :
    Tracks (Within rule m) (fun c => Within rule m c ∧ c.peek.kind = .finish) program
      (Parser.program rule) := by
  refine .sized fun c hc => ?_
  refine (tracks_statementsTo (takes_statementAt tracks_expression _) (Nat.le_refl _)).mono
    (fun _ => id) fun d hd => ⟨hd.1.mono hc, hd.2⟩

/-! ## From the first token to the end -/

/-- The string tokens of a program are not too deep for the bound. -/
theorem within_ofTokens (tokens : List Token) :
    Within (Parser.stringRule (Parser.depthOf tokens)) (Cursor.closed tokens).length
      (.ofTokens tokens) := by
  refine ⟨Nat.le_refl _, (Cursor.ends_closed tokens).exists_finish, fun t ht _ _ => ?_⟩
  have hdepth : t.value.length < Parser.depthOf (Cursor.closed tokens) :=
    Parser.length_lt_depthOf ht
  rw [Parser.depthOf_closed] at hdepth
  exact string_eq (Parser.nests_value t) hdepth

theorem within_of_forward {tokens : List Token} (h : (Cursor.ofTokens tokens).Forward c) :
    Within Parser.stringTree c.rest.length c := by
  have hinside : c.index ≤ c.limit := h.inside (Nat.zero_le _)
  -- the end is one of the tokens, and it was not passed, so it is left
  have hend : (Cursor.ofTokens tokens).limit < (Cursor.closed tokens).length := by
    have hfinish := (Cursor.ends_closed tokens).exists_finish
    simpa [Cursor.limit, Cursor.tokens, Cursor.ofTokens] using hfinish
  have hfound : c.rest.findIdx (·.kind = .finish) < c.rest.length := by
    have hlimit := Cursor.limit_eq_of_le hinside
    have hlength : c.index + c.rest.length = 0 + (Cursor.closed tokens).length := h.length
    rw [h.limit] at hlimit
    omega
  refine ⟨Nat.le_refl _, ?_, fun t _ _ _ => ?_⟩
  · simpa using List.findIdx_lt_length.mp hfound
  · exact string_eq (Parser.nests_value t) (Nat.lt_succ_self _)

/-- A call ends, with a value or a fault and as a parser does. The end of the input is not passed,
and a success leaves the cursor further on. -/
def Advances {α : Type} (q : Descent α) (p : Parser α) (c : Cursor) : Prop :=
  ∃ result d, q.Ends c (result, d) ∧ (ofParser p).outcome c = some (result, d) ∧ c.Forward d ∧
    d.index ≤ c.limit ∧ ∀ a, result = .ok a → c.index < d.index

theorem advances_of_tracks {α : Type} {q : Descent α} {p : Parser α}
    (hinside : c.index ≤ c.limit) (hc : Within rule c.rest.length c)
    (h : ∀ m, c.rest.length = m + 1 → Tracks (Within rule (m + 1)) (Within rule m) q p) :
    Advances q p c := by
  obtain ⟨ts, hrest⟩ := hc.rest_eq
  have hlength : c.rest.length = ts.length + 1 := by rw [hrest, List.length_cons]
  obtain ⟨r, hq, hsettles⟩ := h ts.length hlength c (hlength ▸ hc)
  generalize hp : p c = x at hsettles
  cases hsettles with
  | @ok a d hforward hd =>
      refine ⟨.ok a, d, hq, outcome_lift_of_ok hp, hforward, hforward.index_le hinside, ?_⟩
      intro _ _
      have hsize := hd.size
      have hsame := hforward.length
      omega
  | @error fault d hforward =>
      exact ⟨.error fault, d, hq, outcome_lift_of_error hp, hforward, hforward.index_le hinside,
        by simp⟩

theorem exists_ends_program (tokens : List Token) :
    ∃ d, program.Ends (.ofTokens tokens) (parse tokens, d) ∧
      (ofParser (Parser.program (Parser.stringRule (Parser.depthOf tokens)))).outcome
        (.ofTokens tokens) = some (parse tokens, d) ∧
      d.index ≤ (Cursor.ofTokens tokens).limit ∧
      ∀ statements, parse tokens = .ok statements → d.index = (Cursor.ofTokens tokens).limit := by
  obtain ⟨r, hends, hsettles⟩ := tracks_program _ (within_ofTokens tokens)
  unfold parse
  generalize hp : Parser.program _ (.ofTokens tokens) = x at hsettles ⊢
  cases hsettles with
  | @ok statements d hforward hd =>
      have hinside := hforward.inside (Nat.zero_le _)
      refine ⟨d, hends, outcome_lift_of_ok hp, hforward.index_le (Nat.zero_le _), fun _ _ => ?_⟩
      -- the end comes next, so it is the first one from here on
      obtain ⟨ts, hrest⟩ := hd.1.rest_eq
      rw [← hforward.limit, Cursor.limit_eq_of_le hinside, hrest]
      simp [List.findIdx_cons, hd.2]
  | @error fault d hforward =>
      exact ⟨d, hends, outcome_lift_of_error hp, hforward.index_le (Nat.zero_le _), by simp⟩

end ClassScript.Descent

namespace ClassScript

open Descent (Advances)
open ClassScript.Parser (classMember depthOf expressionWith statementAt stringRule stringTree)

/-- The parser stops on any tokens, and does what it would do without bounds. If it succeeds, it
stops at the first token for the end. From each place that it can be in, every call of a rule stops
too: the end is never passed, and a success takes a token or more. -/
theorem parse_progress {tokens : List Token} {c : Cursor}
    (hc : (Cursor.ofTokens tokens).Forward c) :
    (∃ d, Descent.program.Ends (.ofTokens tokens) (parse tokens, d) ∧
      (Attempt.ofParser (Parser.program (stringRule (depthOf tokens)))).outcome
        (.ofTokens tokens) = some (parse tokens, d) ∧
      d.index ≤ (Cursor.ofTokens tokens).limit ∧
      ∀ statements, parse tokens = .ok statements → d.index = (Cursor.ofTokens tokens).limit) ∧
    Advances Descent.statement (statementAt (expressionWith stringTree) c.rest.length) c ∧
    Advances Descent.expression (expressionWith stringTree) c ∧
    Advances Descent.type Parser.type c ∧
    Advances Descent.classMember (classMember (expressionWith stringTree)
      (statementAt (expressionWith stringTree) c.rest.length)) c := by
  have hwithin := Descent.within_of_forward hc
  have hinside : c.index ≤ c.limit := hc.inside (Nat.zero_le _)
  have hstatement : Descent.Takes stringTree c.rest.length Descent.statement
      (statementAt (expressionWith stringTree) c.rest.length) :=
    Descent.takes_statementAt Descent.tracks_expression _
  refine ⟨Descent.exists_ends_program tokens, ?_, ?_, ?_, ?_⟩
  · exact Descent.advances_of_tracks hinside hwithin fun m hm => hstatement m (by omega)
  · exact Descent.advances_of_tracks hinside hwithin fun m _ => Descent.tracks_expression m
  · exact Descent.advances_of_tracks hinside hwithin fun m _ => Descent.tracks_type m
  · exact Descent.advances_of_tracks hinside hwithin fun m hm =>
      Descent.tracks_classMember Descent.tracks_expression (hstatement.mono (by omega))

/-- The tokens of `var x: <<a>b>c`, with some behind the end. -/
def openedTwice : List Token :=
  [⟨.keyword .varKw, "var", default, default⟩, ⟨.identifier, "x", default, default⟩,
   ⟨.symbol .colon, ":", default, default⟩, ⟨.symbol .shl, "<<", default, default⟩,
   ⟨.identifier, "a", default, default⟩, ⟨.symbol .gt, ">", default, default⟩,
   ⟨.identifier, "b", default, default⟩, ⟨.symbol .gt, ">", default, default⟩,
   ⟨.identifier, "c", default, default⟩, ⟨.finish, "", default, default⟩,
   ⟨.symbol .rBrace, "\x7d", default, default⟩, ⟨.symbol .lParen, "(", default, default⟩]

/-- Where the inner one of its types begins. -/
def openedOnce : Cursor :=
  let outer := (Cursor.ofTokens openedTwice).next.next.next
  outer.replace { outer.peek with kind := .symbol .lt, value := "<" }

theorem parse_progress_openedTwice :
    (Cursor.ofTokens openedTwice).Forward openedOnce ∧
    (∃ d, Descent.program.Ends (.ofTokens openedTwice) (parse openedTwice, d) ∧ d.index = 9) ∧
    Advances Descent.type Parser.type openedOnce := by
  have hc : (Cursor.ofTokens openedTwice).Forward openedOnce := by
    refine ⟨?_, ?_, ?_, ?_⟩ <;> decide
  obtain ⟨⟨d, hparse, -, -, hend⟩, -, -, htype, -⟩ := parse_progress hc
  have hok : (parse openedTwice).isOk := by decide +kernel
  refine ⟨hc, ⟨d, hparse, ?_⟩, htype⟩
  cases hresult : parse openedTwice with
  | ok statements => exact hend statements hresult
  | error fault =>
      rw [hresult] at hok
      cases hok

end ClassScript
