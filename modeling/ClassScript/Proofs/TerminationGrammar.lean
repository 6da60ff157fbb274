import ClassScript.Proofs.ExpressionGrammar
import ClassScript.Proofs.Termination

/-!
# Types, expressions and strings end

One lemma for each rule: from tokens with an end among them, the rule without a bound ends and does
what the bounded one does. A loop takes a token in every round, so the lemmas about loops go by
induction on their bound, which is at least the number of tokens.

Code in a string is shorter than the string, so that strings end by induction on their length.
-/

namespace ClassScript.Descent

open Attempt (ofParser)

variable {rule : Parser.StringRule} {m : Nat} {c : Cursor}

/-! ## Types -/

/-- Enough of a bound for a type. The sign `<` that is left of `<<` was counted before. -/
def Opens (rule : Parser.StringRule) (bound m : Nat) (c : Cursor) : Prop :=
  Within rule (m + 1) c ∧
    (2 * (m + 1) ≤ bound ∨ 2 * m + 1 ≤ bound ∧ c.peek.kind = .symbol .lt)

theorem Opens.question {bound : Nat} : Tracks (Opens rule bound m) (Opens rule bound m)
    (fun _ => liftM (Parser.acceptSign .question)) (Parser.acceptSign .question) := by
  refine .accept_value (fun c hc hpeek => ⟨hc.1.next_level, .inl ?_⟩) fun c hc => hc
  rcases hc.2 with hbound | ⟨-, hlt⟩
  · exact hbound
  · rw [hpeek] at hlt
    cases hlt

theorem Opens.replace {bound : Nat} (h : Opens rule (bound + 1) m c)
    (ht : c.peek.kind = .symbol .shl) :
    Opens rule bound m (c.replace { c.peek with kind := .symbol .lt, value := "<" }) := by
  obtain ⟨hwithin, hbound⟩ := h
  obtain ⟨ts, hrest⟩ := hwithin.rest_eq
  have hall : Parser.Fits (Legible rule) (m + 1) (c.peek :: ts) := hrest ▸ hwithin
  refine ⟨⟨?_, ?_, ?_⟩, .inr ⟨?_, rfl⟩⟩
  · simpa [Cursor.replace, hrest] using hall.size
  · simpa [Cursor.replace, hrest, ht] using hall.ended
  · intro t hmem
    rcases List.mem_cons.mp hmem with rfl | hmem
    · exact fun quote hquote => absurd hquote (by simp)
    · exact hwithin.good t (List.mem_of_mem_tail hmem)
  · rcases hbound with hbound | ⟨-, hlt⟩
    · omega
    · rw [ht] at hlt
      cases hlt

theorem Opens.le_bound {bound : Nat} (h : Opens rule bound m c) : 2 * m + 1 ≤ bound := by
  rcases h.2 with h | ⟨h, -⟩
  · omega
  · exact h

section Arguments

variable {bound : Nat}
  (h : ∀ m, Tracks (Opens rule bound m) (Within rule m) type (Parser.typeAt bound))

include h

theorem tracks_generics (m : Nat) : Tracks (Opens rule bound m) (Within rule m) generics
    (Parser.generics (Parser.typeAt bound) bound) := by
  intro c hc
  have hbound := hc.le_bound
  obtain ⟨k, rfl⟩ : ∃ k, bound = k + 1 := ⟨bound - 1, by omega⟩
  have htypes : Takes rule m types (Parser.commaSeparated (Parser.typeAt (k + 1)) k) := by
    refine .commaSeparated types.eq_2 (fun n hn => ?_) (by omega)
    exact (h n).mono (fun _ hd => ⟨hd, .inl (by omega)⟩) fun _ => id
  have hgenerics : Tracks (Opens rule (k + 1) m) (Within rule m) generics
      (Parser.generics (Parser.typeAt (k + 1)) (k + 1)) := by
    rw [Parser.generics]
    refine .of_succ generics.eq_2 ?_
    refine .bind (.commaSeparated_succ types.eq_2 (h m) fun n hn => ?_) fun types => ?_
    · exact htypes.level (Nat.le_of_lt hn)
    · exact .bind (.expectSign_level _) fun _ => .pure
  exact hgenerics c hc

theorem tracks_generics_level (hbound : 2 * m ≤ bound) :
    Tracks (Within rule m) (Within rule m) generics
      (Parser.generics (Parser.typeAt bound) bound) := by
  refine Takes.level (M := m) (fun n hn => ?_) (Nat.le_refl m)
  exact (tracks_generics h n).mono (fun _ hc => ⟨hc, .inl (by omega)⟩) fun _ => id

end Arguments

theorem tracks_typeAt (bound : Nat) :
    ∀ m, Tracks (Opens rule bound m) (Within rule m) type (Parser.typeAt bound) := by
  induction bound with
  | zero => exact fun m c hc => absurd hc.le_bound (by omega)
  | succ bound ih =>
      intro m
      have hname : ∀ nullable generics, Takes rule (m + 1)
          (fun _ => do return ({ name := ← Parser.expectName, nullable, generics } : Ty))
          (do return { name := ← Parser.expectName, nullable, generics }) :=
        fun _ _ _ _ => .value .expectName
      rw [Parser.typeAt]
      refine .of_succ type.eq_2 <| .bind Opens.question fun nullable => .peek fun t => ?_
      by_cases ht : t.kind = .symbol .shl
      · -- no token is taken, but the first argument begins with `<`
        simp only [if_pos ht]
        refine .accept_bind ?_ (.bind (T := Opens rule bound m) ?_ fun _ => ?_)
        · rintro d ⟨c, ⟨-, rfl⟩, hpeek, -⟩
          rw [ht] at hpeek
          cases hpeek
        · rintro c ⟨⟨hc, rfl⟩, -⟩
          refine ⟨_, .of_forall fun _ => rfl, .ok ?_ (hc.replace ht)⟩
          exact .replace (by simp [ht]) (by simp)
        · exact .bind (tracks_generics ih m) fun _ => (hname _ _).level (Nat.le_succ m)
      · simp only [if_neg ht]
        refine .accept_bind ?_ ?_
        · rintro d ⟨c, ⟨hc, -⟩, hpeek, rfl⟩
          have hbound := hc.le_bound
          have hnext : Within rule m c.next := hc.1.next (by simp [hpeek])
          refine Tracks.bind (tracks_generics_level ih (by omega)) (fun _ => ?_) c.next hnext
          exact (hname _ _).level (Nat.le_succ m)
        · simp only [Bool.false_eq_true, if_false, pure_bind]
          exact (hname _ _ m (Nat.lt_succ_self m)).mono (fun c hc => hc.1.1.1) fun _ => id

theorem tracks_type (m : Nat) :
    Tracks (Within rule (m + 1)) (Within rule m) type Parser.type := by
  have htakes : ∀ n, Takes rule n type (Parser.typeAt (2 * n)) := by
    intro n m hm
    exact (tracks_typeAt (2 * n) m).mono (fun _ hc => ⟨hc, .inl (by omega)⟩) fun _ => id
  exact Takes.sized htakes

/-! ## Expressions -/

theorem ne_finish_of_operatorOf? {level : List (Symbol × BinOp)} {kind : Kind} {op : BinOp}
    (h : Parser.operatorOf? level kind = some op) : kind ≠ .finish := by
  rintro rfl
  obtain ⟨entry, hentry, -⟩ := Option.map_eq_some_iff.mp h
  exact absurd (List.find?_some hentry) (by simp)

theorem ne_finish_of_prefixOf? {kind : Kind} {op : UnOp} (h : Parser.prefixOf? kind = some op) :
    kind ≠ .finish := by
  rintro rfl
  cases h

section Expressions

variable {nested : Parser Expr} {k : Nat}

theorem tracks_elements (hnested : Takes rule m expression nested) (hk : m ≤ k) :
    Tracks (Within rule m) (Within rule m) elements (Parser.primary.elements nested k) := by
  induction k generalizing m with
  | zero => exact .of_le_zero hk
  | succ k ih =>
      rw [Parser.primary.elements]
      refine .of_succ elements.eq_2 <| .acceptSign (fun n hn => .widen .pure (by omega)) ?_
      refine .bind (hnested.level (Nat.le_refl m)) fun first => ?_
      refine .acceptSign (fun n hn => ?_) (.value (.expectSign_level _))
      exact .value ((ih (hnested.mono (by omega)) (by omega)).widen (by omega))

theorem tracks_primary (hnested : Takes rule m expression nested) (hk : m ≤ k) :
    Tracks (Within rule (m + 1)) (Within rule m) primary (Parser.primary rule nested k) := by
  rw [Parser.primary]
  refine .of_succ primary.eq_2 <| .advance_bind (fun t ht => ?_) fun t ht hlegible => ?_
  · simp only [ht]
    exact .fail
  · obtain ⟨kind, value, position, span⟩ := t
    cases kind with
    | symbol s =>
        cases s with
        | lParen =>
            exact .bind (hnested.level (Nat.le_refl m)) fun _ =>
              .value (.expectSign_level _)
        | lBracket => exact .value (tracks_elements hnested hk)
        | _ => exact .fail
    | keyword word =>
        cases word with
        | trueKw => exact .pure
        | falseKw => exact .pure
        | nullKw => exact .pure
        | thisKw => exact .pure
        | _ => exact .fail
    | number => exact .ofExcept _
    | string quote =>
        obtain ⟨depth, hdepth⟩ := hlegible quote rfl
        exact .of_eventually_eq hdepth (.ofExcept _)
    | identifier => exact .pure
    | _ => exact .fail

theorem tracks_arguments (hnested : Takes rule m expression nested) (hk : m ≤ k) :
    Tracks (Within rule m) (Within rule m) arguments (Parser.arguments nested k) := by
  rw [Parser.arguments]
  refine .of_succ arguments.eq_2 <| .acceptSign (fun n hn => .widen .pure (by omega)) ?_
  refine .bind ?_ fun args => .value (.expectSign_level _)
  exact (Takes.commaSeparated expressions.eq_2 hnested hk).level (Nat.le_refl m)

theorem tracks_suffixes (hnested : Takes rule m expression nested) (hk : m ≤ k) (operand : Expr) :
    Tracks (Within rule m) (Within rule m) (suffixes operand)
      (Parser.suffixes nested k operand) := by
  induction k generalizing m operand with
  | zero => exact .of_le_zero hk
  | succ k ih =>
      rw [Parser.suffixes]
      have hmore : ∀ n < m, ∀ operand, Tracks (Within rule n) (Within rule m)
          (suffixes operand) (Parser.suffixes nested k operand) := fun n hn operand =>
        (ih (hnested.mono (by omega)) (by omega) operand).widen (by omega)
      refine .of_succ (suffixes.eq_2 operand) <| .acceptSign (fun n hn => ?_) <|
        .acceptSign (fun n hn => ?_) <| .acceptSign (fun n hn => ?_) .pure
      · exact .bind (tracks_arguments (hnested.mono (by omega)) (by omega)) fun _ => hmore n hn _
      · refine .bind (hnested.level (by omega)) fun _ => ?_
        exact .bind (.expectSign_level _) fun _ => hmore n hn _
      · exact .bind .expectName_level fun _ => hmore n hn _

theorem takes_unary (hnested : Takes rule m expression nested) (hk : m + 1 ≤ k) :
    Takes rule (m + 1) unary (Parser.unary rule nested k) := by
  induction k generalizing m with
  | zero => omega
  | succ k ih =>
      intro n hn
      rw [Parser.unary]
      refine .of_succ unary.eq_2 <| .peek fun t => ?_
      cases hop : Parser.prefixOf? t.kind with
      | some op =>
          refine .pass (ne_finish_of_prefixOf? hop) fun l hl => .value ?_
          -- the sign is gone, so fewer tokens than the bound are left for the operand
          cases l with
          | zero => exact .of_zero
          | succ l =>
              have hrest : Takes rule (l + 1) unary (Parser.unary rule nested k) :=
                ih (hnested.mono (by omega)) (by omega)
              exact (hrest l (Nat.lt_succ_self l)).widen (by omega)
      | none =>
          refine .anywhere (.bind (tracks_primary (hnested.mono (by omega)) (by omega)) fun _ => ?_)
          exact tracks_suffixes (hnested.mono (by omega)) (by omega) _

theorem tracks_chain {level : List (Symbol × BinOp)} {tighter : List (List (Symbol × BinOp))}
    {operand : Parser Expr} (hoperand : Takes rule m (operation tighter) operand) (hk : m ≤ k)
    (left : Expr) :
    Tracks (Within rule m) (Within rule m) (chain level tighter left)
      (Parser.chain level operand k left) := by
  induction k generalizing m left with
  | zero => exact .of_le_zero hk
  | succ k ih =>
      rw [Parser.chain]
      refine .of_succ (chain.eq_2 level tighter left) <| .peek fun t => ?_
      cases hop : Parser.operatorOf? level t.kind with
      | some op =>
          refine .pass (ne_finish_of_operatorOf? hop) fun n hn => ?_
          refine .bind (hoperand.level (by omega)) fun right => ?_
          exact (ih (hoperand.mono (by omega)) (by omega) _).widen (by omega)
      | none => exact .anywhere .pure

theorem takes_operation {operand : Parser Expr} {M : Nat} (hoperand : Takes rule M unary operand)
    (hk : M ≤ k) (levels : List (List (Symbol × BinOp))) :
    Takes rule M (operation levels) (Parser.operation operand k levels) := by
  induction levels with
  | nil =>
      rw [Parser.operation]
      exact fun m hm => .of_succ operation.eq_2 (hoperand m hm)
  | cons level tighter ih =>
      intro m hm
      rw [Parser.operation]
      refine .of_succ (operation.eq_3 level tighter) <| .bind (ih m hm) fun left => ?_
      exact tracks_chain (ih.mono (by omega)) (by omega) left

theorem takes_assignment (hnested : Takes rule m expression nested) (hk : m + 1 ≤ k) :
    Takes rule (m + 1) expression (Parser.assignment rule nested k) := by
  intro n hn
  have hvalue : Tracks (Within rule n) (Within rule n) expression nested :=
    hnested.level (by omega)
  rw [Parser.assignment]
  refine .of_succ expression.eq_2 <| .get fun c => ?_
  cases hname : Parser.assignedName? c with
  | some target =>
      refine .bind (T := Within rule n) ?_ fun _ => ?_
      · obtain ⟨t, sign, rest, hrest, ht, -⟩ := Parser.assignedName?_eq_some hname
        have hpeek : c.peek.kind ≠ .finish := by simp [Parser.peek_kind, hrest, ht]
        refine (Tracks.advance hpeek).mono ?_ fun _ => id
        rintro d ⟨hd, rfl⟩
        exact ⟨hd, rfl⟩
      · exact .bind .advance_level fun _ => .value hvalue
  | none =>
      have htarget : Takes rule (m + 1) (operation Parser.levels)
          (Parser.operation (Parser.unary rule nested k) k Parser.levels) :=
        takes_operation (takes_unary hnested hk) hk _
      refine .bind (T := Within rule n) ?_ fun target => .peek fun t => ?_
      · exact (htarget n hn).anywhere
      · cases hop : Parser.assignment? t.kind with
        | none => exact .anywhere .pure
        | some op =>
            refine .anywhere ?_
            cases target with
            | member object name => exact .bind .advance_level fun _ => .value hvalue
            | index list position => exact .bind .advance_level fun _ => .value hvalue
            | _ => exact .unexpected

theorem takes_expressionAt (bound : Nat) :
    Takes rule bound expression (Parser.expressionAt rule bound) := by
  induction bound with
  | zero => exact fun m hm => absurd hm (Nat.not_lt_zero m)
  | succ bound ih => exact takes_assignment ih (Nat.le_refl _)

theorem tracks_expression (m : Nat) :
    Tracks (Within rule (m + 1)) (Within rule m) expression (Parser.expressionWith rule) :=
  Takes.sized takes_expressionAt

end Expressions

/-! ## Strings -/

theorem tracks_whole : Tracks (Within rule m) (Within rule m) whole
    (do
      let value ← Parser.expressionWith rule
      let _ ← Parser.expect .finish
      return value) := by
  refine .of_succ whole.eq_2 <| .bind (.level tracks_expression) fun value => .value ?_
  exact .expect_of_next fun _ hc _ => hc.next_level

theorem exists_ends_whole {tokens : List Token} (h : Within rule m (.ofTokens tokens)) :
    ∃ d, whole.Ends (.ofTokens tokens) (Parser.wholeWith rule tokens, d) := by
  obtain ⟨r, hends, hsettles⟩ := tracks_whole _ h
  simp only [Parser.wholeWith]
  generalize (Parser.expressionWith rule >>= _ : Parser Expr) (.ofTokens tokens) = x at hsettles ⊢
  cases hsettles with
  | @ok a d => exact ⟨d, hends⟩
  | @error fault d => exact ⟨d, hends⟩

theorem mapM_eq {α β : Type} {g : α → Descent β} {f : α → Except Diagnostic β} {xs : List α}
    (h : ∀ x ∈ xs, ∃ depth, ∀ n ≥ depth, g x n = ofParser (ofExcept (f x))) :
    ∃ depth, ∀ n ≥ depth, (xs.mapM fun x => g x n) = ofParser (ofExcept (xs.mapM f)) := by
  induction xs with
  | nil => exact ⟨0, fun _ _ => rfl⟩
  | cons x xs ih =>
      obtain ⟨first, hfirst⟩ := h x List.mem_cons_self
      obtain ⟨others, hothers⟩ := ih fun y hy => h y (List.mem_cons_of_mem x hy)
      refine ⟨max first others, fun n hn => ?_⟩
      rw [List.mapM_cons, List.mapM_cons, hfirst n (by omega), hothers n (by omega)]
      cases f x with
      | error fault => rfl
      | ok y =>
          cases xs.mapM f with
          | error fault => rfl
          | ok ys => rfl

theorem part_eq {t : Token} {segment : Template.Segment}
    (h : ∀ code, segment = .code code → ∀ u, Parser.Nests code.length u → Legible rule u) :
    ∃ depth, ∀ n ≥ depth,
      part t segment n = ofParser (ofExcept (Parser.templatePart rule t segment)) := by
  cases segment with
  | text value =>
      exact exists_depth_of_succ ⟨0, fun _ _ => rfl⟩
  | code code =>
      cases htokens : tokenize code t.position.file with
      | error fault =>
          refine exists_depth_of_succ ⟨0, fun n _ => ?_⟩
          rw [part, Parser.templatePart, htokens]
          rfl
      | ok tokens =>
          have hwithin : Within rule tokens.length (.ofTokens tokens) := by
            obtain ⟨ts, finish, rfl, hfinish, -, hstrings⟩ := Scan.tokensFrom_eq_ok htokens
            rw [Parser.ofTokens_append hfinish]
            refine ⟨Nat.le_refl _, ⟨finish, by simp, hfinish⟩, fun u hu quote hquote => ?_⟩
            rcases List.mem_append.mp hu with hu | hu
            · have hnests := Parser.nests_of_stringIn (hstrings u hu) hquote
              exact h code rfl u hnests quote hquote
            · rw [List.mem_singleton.mp hu, hfinish] at hquote
              cases hquote
          obtain ⟨d, depth, hd⟩ := exists_ends_whole hwithin
          refine exists_depth_of_succ ⟨depth, fun n hn => ?_⟩
          rw [part, Parser.templatePart, htokens]
          funext c
          change Option.bind ((whole n).outcome (.ofTokens tokens)) _ = _
          rw [hd n hn, show (Except.ok tokens >>= Parser.wholeWith rule) =
            Parser.wholeWith rule tokens from rfl]
          cases Parser.wholeWith rule tokens with
          | ok value => rfl
          | error fault => rfl

theorem string_eq {n depth : Nat} {t : Token} (ht : Parser.Nests n t) (hdepth : n < depth) :
    ∃ calls, ∀ k ≥ calls, string t k = ofParser (ofExcept (Parser.stringRule depth t)) := by
  induction n using Nat.strongRecOn generalizing t depth with
  | ind n ih =>
      obtain ⟨d, rfl⟩ : ∃ d, depth = d + 1 := ⟨depth - 1, by omega⟩
      have hparts : ∃ calls, ∀ k ≥ calls,
          ((Template.segments t.value).mapM fun segment => part t segment k) =
            ofParser (ofExcept ((Template.segments t.value).mapM
              (Parser.templatePart (Parser.stringRule d) t))) := by
        refine mapM_eq fun segment hsegment => part_eq ?_
        rintro code rfl u hu quote -
        have hlength := ht code hsegment
        exact ih code.length hlength hu (by omega)
      obtain ⟨calls, hparts⟩ := hparts
      refine exists_depth_of_succ ⟨calls, fun k hk => ?_⟩
      rw [string, Parser.stringRule]
      by_cases hcode : (Template.segments t.value).any Template.Segment.isCode
      · rw [if_pos hcode, if_pos hcode, hparts k hk]
        cases (Template.segments t.value).mapM (Parser.templatePart (Parser.stringRule d) t) with
        | ok parts => rfl
        | error fault => rfl
      · rw [if_neg hcode, if_neg hcode]
        rfl

end ClassScript.Descent
