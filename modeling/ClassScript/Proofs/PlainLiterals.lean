import ClassScript.Proofs.StringLiterals
import ClassScript.Parse.Program

/-!
# Literals without braces

Between its quotes such a literal has characters that stand for themselves, and characters behind a
backslash. It is a plain string, and a dollar sign in it a dollar sign, as long as no letter and no
underscore comes next in the text that the literal stands for. It does not matter whether the letter
itself or an escape of it is written there.
-/

namespace ClassScript.Parser

/-! ## A string as a whole program -/

/-- A parser comes to a place with the answer that is given. -/
def Answers {α : Type} (p : Parser α) (c : Cursor) (r : Except Diagnostic α) (d : Cursor) : Prop :=
  p c = (ofExcept r : Parser α) d

namespace Answers

variable {α β : Type} {p : Parser α} {c d : Cursor} {r : Except Diagnostic α}

/-- What comes second takes nothing and does not fail. -/
theorem bind (h : Answers p c r d) {f : α → Parser β} {g : α → β} (hf : ∀ a, f a d = .ok (g a) d) :
    Answers (p >>= f) c (r.map g) d := by
  change EStateM.bind p f c = _
  rw [EStateM.bind, h]
  cases r with
  | ok a => exact hf a
  | error fault => rfl

theorem map (h : Answers p c r d) (g : α → β) : Answers (g <$> p) c (r.map g) d := by
  change EStateM.map g p c = _
  rw [EStateM.map, h]
  cases r <;> rfl

/-- As `bind`, when what comes second hands the value on. -/
theorem last (h : Answers p c r d) {f : α → Parser α} (hf : ∀ a, f a d = .ok a d) :
    Answers (p >>= f) c r d := by
  have hbind := h.bind hf
  cases r with
  | ok a => exact hbind
  | error fault => exact hbind

end Answers

section StringToken

variable {string : StringRule} {nested : Parser Expr} {t finish : Token} {quote : Quote}
  {passed : List Token} {bound : Nat}

theorem suffixes_finish (hfinish : finish.kind = .finish) (e : Expr) (bound : Nat) :
    suffixes nested bound e ⟨passed, [finish]⟩ = .ok e ⟨passed, [finish]⟩ := by
  obtain ⟨kind, value, position, span⟩ := finish
  cases hfinish
  cases bound <;> rfl

theorem chain_finish (hfinish : finish.kind = .finish) (level : List (Symbol × BinOp))
    (operand : Parser Expr) (e : Expr) (bound : Nat) :
    chain level operand bound e ⟨passed, [finish]⟩ = .ok e ⟨passed, [finish]⟩ := by
  have hnone : operatorOf? level (Cursor.peek ⟨passed, [finish]⟩).kind = none := by
    rw [peek_kind, nextKind_cons, hfinish]
    simp [operatorOf?]
  cases bound with
  | zero => rfl
  | succ bound =>
      rw [chain, peek_bind, hnone]
      rfl

theorem unary_string (hkind : t.kind = .string quote) (hfinish : finish.kind = .finish) :
    Answers (unary string nested (bound + 1)) ⟨passed, [t, finish]⟩ (string t)
      ⟨t :: passed, [finish]⟩ := by
  obtain ⟨kind, value, position, span⟩ := t
  cases hkind
  have hprimary : Answers (primary string nested bound)
      ⟨passed, [⟨.string quote, value, position, span⟩, finish]⟩
      (string ⟨.string quote, value, position, span⟩)
      ⟨⟨.string quote, value, position, span⟩ :: passed, [finish]⟩ := rfl
  exact hprimary.last fun e => suffixes_finish hfinish e bound

theorem operation_string (hkind : t.kind = .string quote) (hfinish : finish.kind = .finish)
    (levels : List (List (Symbol × BinOp))) :
    Answers (operation (unary string nested (bound + 1)) (bound + 1) levels)
      ⟨passed, [t, finish]⟩ (string t) ⟨t :: passed, [finish]⟩ := by
  induction levels with
  | nil => exact unary_string hkind hfinish
  | cons level tighter ih => exact ih.last fun e => chain_finish hfinish level _ e _

theorem expressionAt_string (hkind : t.kind = .string quote) (hfinish : finish.kind = .finish) :
    Answers (expressionAt string (bound + 1)) ⟨passed, [t, finish]⟩ (string t)
      ⟨t :: passed, [finish]⟩ := by
  have htarget : Answers
      (operation (unary string (expressionAt string bound) (bound + 1)) (bound + 1) levels)
      ⟨passed, [t, finish]⟩ (string t) ⟨t :: passed, [finish]⟩ :=
    operation_string hkind hfinish levels
  have hname : assignedName? ⟨passed, [t, finish]⟩ = none := by
    rw [assignedName?_cons, hkind]
    rfl
  have hsign : assignment? (Cursor.peek ⟨t :: passed, [finish]⟩).kind = none :=
    congrArg assignment? hfinish
  unfold Answers
  rw [expressionAt, assignment, get_bind, hname]
  refine htarget.last fun e => ?_
  rw [peek_bind, hsign]
  rfl

theorem statementAt_string (hkind : t.kind = .string quote) (hfinish : finish.kind = .finish) :
    Answers (statementAt (expressionWith string) (bound + 1)) ⟨passed, [t, finish]⟩
      ((string t).map .expr) ⟨t :: passed, [finish]⟩ := by
  have hexpr : Answers (expressionAt string 2) ⟨passed, [t, finish]⟩ (string t)
      ⟨t :: passed, [finish]⟩ := expressionAt_string hkind hfinish
  have hstatement := hexpr.map Stmt.expr
  unfold Answers at hstatement ⊢
  rw [← hstatement, statementAt, statement, peek_bind, peek_kind, nextKind_cons, hkind]
  rfl

/-- Nothing more comes before the end. -/
theorem statements_finish (nested : Parser Stmt) (bound : Nat) (hfinish : finish.kind = .finish)
    (first : Stmt) :
    (do
      statementEnd
      return first :: (← statementsTo .finish nested (bound + 1)) : Parser (List Stmt))
        ⟨passed, [finish]⟩ = .ok [first] ⟨passed, [finish]⟩ := by
  obtain ⟨kind, value, position, span⟩ := finish
  cases hfinish
  rfl

theorem program_string (hkind : t.kind = .string quote) (hfinish : finish.kind = .finish) :
    Answers (program string) ⟨[], [t, finish]⟩ (((string t).map .expr).map ([·]))
      ⟨[t], [finish]⟩ := by
  have hstatement : Answers (statementAt (expressionWith string) 2) ⟨[], [t, finish]⟩
      ((string t).map .expr) ⟨[t], [finish]⟩ := statementAt_string hkind hfinish
  have hstatements := hstatement.bind
    (statements_finish (statementAt (expressionWith string) 2) 0 hfinish)
  unfold Answers at hstatements ⊢
  rw [← hstatements]
  obtain ⟨kind, value, position, span⟩ := t
  cases hkind
  rfl

end StringToken

end ClassScript.Parser

namespace ClassScript

/-- A string token by itself is a statement of the string, if it is one. -/
theorem parse_string {t finish : Token} {quote : Quote} (hkind : t.kind = .string quote)
    (hfinish : finish.kind = .finish) :
    parse [t, finish] =
      (Parser.stringRule (Parser.depthOf [t, finish]) t).map fun e => [.expr e] := by
  have hcursor : Cursor.ofTokens [t, finish] = ⟨[], [t, finish]⟩ := by
    simp [Cursor.ofTokens, Cursor.closed, hfinish]
  unfold parse
  generalize Parser.stringRule (Parser.depthOf [t, finish]) = string
  have hread : Parser.Answers (Parser.program string) _ _ _ :=
    Parser.program_string hkind hfinish
  unfold Parser.Answers at hread
  rw [hcursor, hread]
  cases string t <;> rfl

end ClassScript

namespace ClassScript.Template

open Scan

/-! ## What stands between the quotes -/

/-- Whether the last character is a backslash that escapes what comes next. A backslash that is
escaped itself does not. -/
def escapes (cs : List Char) : Bool :=
  cs.foldl (fun waiting c => !waiting && c == '\\') false

def unescaped : Char → Char
  | 'n' => '\n'
  | 'r' => '\r'
  | 't' => '\t'
  | 'b' => '\x08'
  | '0' => '\x00'
  | c => c

def meaning : List Char → List Char
  | [] => []
  | '\\' :: e :: rest => unescaped e :: meaning rest
  | c :: rest => c :: meaning rest

/-- Something holds of what stands behind each dollar sign that is not escaped. -/
def BehindDollars (P : List Char → Prop) (body : List Char) : Prop :=
  ∀ before rest, body = before ++ '$' :: rest → escapes before = false → P rest

def NoWord (rest : List Char) : Prop :=
  (meaning rest).head?.any Text.isWordStart = false

def encodeBody : List Char → List Char
  | [] => []
  | '\\' :: e :: rest => encodeChar (unescaped e) ++ encodeBody rest
  | c :: rest => c :: encodeBody rest

section Bodies

variable {c e : Char} {rest : List Char} {P : List Char → Prop}

theorem escapes_cons (hc : c ≠ '\\') (cs : List Char) : escapes (c :: cs) = escapes cs := by
  have hclosed : (c == '\\') = false := beq_eq_false_iff_ne.mpr hc
  rw [escapes, List.foldl_cons, hclosed]
  rfl

theorem meaning_cons (hc : c ≠ '\\') (cs : List Char) : meaning (c :: cs) = c :: meaning cs := by
  rw [meaning]
  exact fun _ _ h => absurd h hc

theorem encodeBody_cons (hc : c ≠ '\\') (cs : List Char) :
    encodeBody (c :: cs) = c :: encodeBody cs := by
  rw [encodeBody]
  exact fun _ _ h => absurd h hc

/-- A text without an open escape is made of characters and of escaped characters. -/
theorem body_induction {motive : (body : List Char) → escapes body = false → Prop}
    (nil : motive [] rfl)
    (escape : ∀ e rest (h : escapes rest = false), motive rest h → motive ('\\' :: e :: rest) h)
    (plain : ∀ c rest (hc : c ≠ '\\') (h : escapes rest = false), motive rest h →
      motive (c :: rest) ((escapes_cons hc rest).trans h))
    (body : List Char) (h : escapes body = false) : motive body h := by
  fun_induction meaning body with
  | case1 => exact nil
  | case2 e rest ih => exact escape e rest h (ih h)
  | case3 c rest hsplit ih =>
      have hc : c ≠ '\\' := by
        rintro rfl
        cases rest with
        | nil => cases h
        | cons e rest => exact hsplit e rest rfl rfl
      exact plain c rest hc ((escapes_cons hc rest).symm.trans h) (ih _)

theorem behindDollars_nil : BehindDollars P [] := by
  intro before rest heq
  simp at heq

theorem behindDollars_escape_iff :
    BehindDollars P ('\\' :: e :: rest) ↔ BehindDollars P rest := by
  constructor
  · intro h before behind heq hbefore
    refine h ('\\' :: e :: before) behind ?_ hbefore
    rw [heq]
    rfl
  · intro h before behind heq hbefore
    rcases before with _ | ⟨d, _ | ⟨f, before⟩⟩
    · simp at heq
    · -- a dollar sign behind the backslash is escaped
      obtain ⟨hd, -⟩ := List.cons.inj heq
      rw [← hd] at hbefore
      cases hbefore
    · obtain ⟨hd, hrest⟩ := List.cons.inj heq
      obtain ⟨hf, hrest⟩ := List.cons.inj hrest
      rw [← hd] at hbefore
      exact h before behind hrest hbefore

theorem behindDollars_cons_iff (hc : c ≠ '\\') :
    BehindDollars P (c :: rest) ↔ (c = '$' → P rest) ∧ BehindDollars P rest := by
  constructor
  · intro h
    refine ⟨fun hdollar => h [] rest (by rw [hdollar]; rfl) rfl, ?_⟩
    intro before behind heq hbefore
    refine h (c :: before) behind (by rw [heq]; rfl) ?_
    rw [escapes_cons hc, hbefore]
  · rintro ⟨hhead, hrest⟩ before behind heq hbefore
    cases before with
    | nil =>
        obtain ⟨hdollar, hbehind⟩ := List.cons.inj heq
        exact hbehind ▸ hhead hdollar
    | cons d before =>
        obtain ⟨hd, heq⟩ := List.cons.inj heq
        rw [← hd, escapes_cons hc] at hbefore
        exact hrest before behind heq hbefore

end Bodies

/-! ## The scanner and the splitter -/

theorem escape_eq_encodeChar (e : Char) : escape e = encodeChar (unescaped e) := by
  unfold escape
  split
  · rfl
  · rfl
  · rfl
  · rfl
  · rfl
  · next hn hr ht hb h0 =>
      have hsame : unescaped e = e := by
        unfold unescaped
        split <;> simp_all
      rw [hsame, encodeChar]
      simp [isSpecial, or_assoc]

/-- The scanner makes template text of the inside of a literal. -/
theorem template_body {quote : Quote} (hquote : quote ≠ .backtick) (behind : List Char)
    {body : List Char} (hend : escapes body = false)
    (hbody : ∀ c ∈ body, c ≠ quote.char ∧ c ≠ '{' ∧ c ≠ '}') :
    template quote 0 (body ++ quote.char :: behind) = .ok (encodeBody body, behind) := by
  induction body, hend using body_induction with
  | nil => exact template_quote behind
  | escape e rest _ ih =>
      have hrest := ih fun c hc => hbody c (List.mem_cons_of_mem _ (List.mem_cons_of_mem _ hc))
      rw [List.cons_append, List.cons_append, template, if_neg hquote, hrest, escape_eq_encodeChar]
      rfl
  | plain c rest hc _ ih =>
      obtain ⟨hquote', hopen, hclose⟩ := hbody c List.mem_cons_self
      have hrest := ih fun d hd => hbody d (List.mem_cons_of_mem _ hd)
      rw [encodeBody_cons hc, List.cons_append, template, if_neg hquote', hrest]
      · rfl
      all_goals simp_all

theorem head?_encodeChar (c : Char) (cs : List Char) :
    (encodeChar c ++ cs).head? ≠ some '{' ∧
      (encodeChar c ++ cs).head?.any Text.isWordStart = Text.isWordStart c := by
  unfold encodeChar
  by_cases hspecial : isSpecial c = true
  · rw [if_pos hspecial]
    simp only [isSpecial, Bool.or_eq_true, decide_eq_true_eq] at hspecial
    refine ⟨by simp, ?_⟩
    change Text.isWordStart '\\' = _
    rcases hspecial with ((rfl | rfl) | rfl) | rfl <;> rfl
  · rw [if_neg hspecial]
    refine ⟨fun heq => ?_, rfl⟩
    obtain rfl := Option.some.inj heq
    exact hspecial rfl

/-- The template text begins like the text that it stands for, as far as a dollar sign before it
can tell. -/
theorem head?_encodeBody {body : List Char} (hend : escapes body = false)
    (hbody : ∀ c ∈ body, c ≠ '{') :
    (encodeBody body).head? ≠ some '{' ∧
      ((encodeBody body).head?.any Text.isWordStart = false ↔ NoWord body) := by
  cases body, hend using body_induction with
  | nil => exact ⟨by simp [encodeBody], by simp [encodeBody, NoWord, meaning]⟩
  | escape e rest =>
      obtain ⟨hbrace, hword⟩ := head?_encodeChar (unescaped e) (encodeBody rest)
      refine ⟨hbrace, ?_⟩
      rw [encodeBody, hword, NoWord, meaning]
      rfl
  | plain c rest hc =>
      rw [encodeBody_cons hc, NoWord, meaning_cons hc]
      exact ⟨fun heq => hbody c List.mem_cons_self (Option.some.inj heq), Iff.rfl⟩

theorem any_isCode_flush (literal : List Char) (code : String) (segments : List Segment) :
    (flush literal (.code code :: segments)).any Segment.isCode = true := by
  unfold flush
  split <;> simp [Segment.isCode]

/-- The splitter finds one text if no dollar sign has a word behind it, and code otherwise. -/
theorem segmentsAfter_encodeBody {body : List Char} (hend : escapes body = false)
    (hbody : ∀ c ∈ body, c ≠ '{') (literal : List Char) :
    (BehindDollars NoWord body →
      segmentsAfter literal (encodeBody body) = flush (literal ++ meaning body) []) ∧
      (¬ BehindDollars NoWord body →
        (segmentsAfter literal (encodeBody body)).any Segment.isCode = true) := by
  induction body, hend using body_induction generalizing literal with
  | nil =>
      refine ⟨fun _ => ?_, fun h => absurd behindDollars_nil h⟩
      rw [encodeBody, meaning, List.append_nil]
      rfl
  | escape e rest _ ih =>
      have hrest := ih (fun c hc => hbody c (List.mem_cons_of_mem _ (List.mem_cons_of_mem _ hc)))
        (literal ++ [unescaped e])
      rw [List.append_assoc] at hrest
      rw [behindDollars_escape_iff, encodeBody, meaning, segmentsAfter_encodeChar]
      exact hrest
  | plain c rest hc hend ih =>
      have hbrace : c ≠ '{' := hbody c List.mem_cons_self
      have hbody' : ∀ d ∈ rest, d ≠ '{' := fun d hd => hbody d (List.mem_cons_of_mem _ hd)
      have hrest := ih hbody' (literal ++ [c])
      obtain ⟨hopen, hword⟩ := head?_encodeBody hend hbody'
      rw [behindDollars_cons_iff hc, encodeBody_cons hc, meaning_cons hc,
        segmentsAfter_step literal hc, if_neg (fun h => hopen h.2)]
      by_cases hdollar : c = '$' ∧ ¬ NoWord rest
      · have hstart : c = '$' ∧ (encodeBody rest).head?.any Text.isWordStart := by
          refine ⟨hdollar.1, ?_⟩
          rw [← hword, Bool.not_eq_false] at hdollar
          exact hdollar.2
        rw [if_pos hstart]
        exact ⟨fun h => absurd (h.1 hdollar.1) hdollar.2, fun _ => any_isCode_flush _ _ _⟩
      · have hstart : ¬ (c = '$' ∧ (encodeBody rest).head?.any Text.isWordStart) := by
          rintro ⟨hc, hhead⟩
          refine hdollar ⟨hc, fun hnone => ?_⟩
          rw [hword.mpr hnone] at hhead
          cases hhead
        have hnone : c = '$' → NoWord rest :=
          fun hc => Classical.not_not.mp fun h => hdollar ⟨hc, h⟩
        rw [if_neg hstart, if_neg hbrace]
        rw [List.append_assoc] at hrest
        exact ⟨fun h => hrest.1 h.2, fun h => hrest.2 fun hinside => h ⟨hnone, hinside⟩⟩

/-! ## The value of a literal -/

/-- The text can stand between single or double quotes, and has no code in braces. -/
structure Enclosed (quote : Quote) (body : List Char) : Prop where
  escaping : quote ≠ .backtick
  ended : escapes body = false
  apart : ∀ c ∈ body, c ≠ quote.char ∧ c ≠ '{' ∧ c ≠ '}'

def quoted (quote : Quote) (body : List Char) : String :=
  String.ofList (quote.char :: body ++ [quote.char])

section Literals

variable {quote : Quote} {body : List Char}

theorem tokenize_quoted (h : Enclosed quote body) (file : String) :
    ∃ token finish, tokenize (quoted quote body) file = .ok [token, finish] ∧
      token.kind = .string quote ∧ token.value = String.ofList (encodeBody body) ∧
      finish.kind = .finish := by
  have hread : next .value quote.char (body ++ [quote.char]) =
      .ok (some ⟨.string quote, String.ofList (encodeBody body)⟩, []) := by
    rw [next_quote, template_body h.escaping [] h.ended h.apart]
    rfl
  unfold tokenize quoted
  rw [String.toList_ofList, List.cons_append]
  exact tokensFrom_of_next hread _ _ _

theorem flush_eq_plain (literal : List Char) :
    flush literal [] = plain (String.ofList literal) := by
  unfold flush plain
  cases literal <;> simp

/-- A literal is the string that it stands for, unless it embeds code. -/
theorem parse_quoted (h : Enclosed quote body) (file : String) :
    (BehindDollars NoWord body → (tokenize (quoted quote body) file >>= parse) =
      .ok [.expr (.string (String.ofList (meaning body)))]) ∧
    (¬ BehindDollars NoWord body → ∀ t, (tokenize (quoted quote body) file >>= parse) ≠
      .ok [.expr (.string t)]) := by
  obtain ⟨token, finish, htokens, hkind, hvalue, hfinish⟩ := tokenize_quoted h file
  obtain ⟨hplain, hcode⟩ := segmentsAfter_encodeBody h.ended (fun c hc => (h.apart c hc).2.1) []
  rw [← segments_ofList, ← hvalue] at hplain hcode
  have hparse : (tokenize (quoted quote body) file >>= parse) =
      (Parser.stringRule (Parser.depthOf [token, finish]) token).map fun e => [.expr e] := by
    rw [htokens]
    exact parse_string hkind hfinish
  rw [hparse, Parser.depthOf]
  constructor
  · intro hnone
    rw [stringRule_of_plain ((hplain hnone).trans (flush_eq_plain _))]
    rfl
  · intro hsome t
    rw [Parser.stringRule]
    simp only [hcode hsome, if_true]
    cases (segments token.value).mapM
        (Parser.templatePart (Parser.stringRule _) token) with
    | ok parts =>
        intro heq
        cases heq
    | error fault =>
        intro heq
        cases heq

end Literals

/-- Between single or double quotes, without a brace and without an open escape at the end, a
literal is the plain string that its characters and escapes stand for exactly if no letter and no
underscore comes next in that string behind a dollar sign that is not escaped. -/
theorem parse_quoted_iff {quote : Quote} {body : List Char} (h : Enclosed quote body)
    (file : String) :
    (tokenize (quoted quote body) file >>= parse) =
        .ok [.expr (.string (String.ofList (meaning body)))] ↔
      BehindDollars NoWord body := by
  obtain ⟨hplain, hcode⟩ := parse_quoted h file
  exact ⟨fun heq => Classical.not_not.mp fun hsome => hcode hsome _ heq, hplain⟩

/-- Dollar signs before a digit, before an escaped blank, side by side and at the end, and one that
is escaped before a letter. -/
theorem parse_quoted_iff_prices :
    Enclosed .single "$5 \\$x $\\n $$".toList ∧
      BehindDollars NoWord "$5 \\$x $\\n $$".toList ∧
      (tokenize (quoted .single "$5 \\$x $\\n $$".toList) "prices" >>= parse) =
        .ok [.expr (.string "$5 $x $\n $$")] := by
  have hbody : Enclosed .single "$5 \\$x $\\n $$".toList := by
    exact ⟨by decide, by decide, by simp [Quote.char]⟩
  have hdollars : BehindDollars NoWord "$5 \\$x $\\n $$".toList := by
    have hnext : NoWord "5 \\$x $\\n $$".toList ∧ NoWord "\\n $$".toList ∧ NoWord ['$'] ∧
        NoWord [] := by
      unfold NoWord
      decide +kernel
    simpa [behindDollars_cons_iff, behindDollars_escape_iff, behindDollars_nil] using hnext
  exact ⟨hbody, hdollars, (parse_quoted_iff hbody "prices").mpr hdollars⟩

/-- No character that can begin a name comes next behind the dollar sign in the source. Both
literals embed code nevertheless: a letter counts that no name has, and so does a letter behind a
backslash. -/
theorem parse_quoted_letters :
    let Nameless := BehindDollars fun rest => rest.head?.any (fun c => c.isAlpha || c == '_') = false
    (Enclosed .double ['$', 'é'] ∧ Nameless ['$', 'é'] ∧
      ∀ t, (tokenize (quoted .double ['$', 'é']) "" >>= parse) ≠ .ok [.expr (.string t)]) ∧
    (Enclosed .double ['$', '\\', 'x'] ∧ Nameless ['$', '\\', 'x'] ∧
      ∀ t, (tokenize (quoted .double ['$', '\\', 'x']) "" >>= parse) ≠ .ok [.expr (.string t)]) := by
  have hword : ¬ NoWord ['é'] ∧ ¬ NoWord ['\\', 'x'] := by
    unfold NoWord
    decide +kernel
  have haccent : Enclosed .double ['$', 'é'] := by
    exact ⟨by decide, by decide, by simp [Quote.char]⟩
  have hbackslash : Enclosed .double ['$', '\\', 'x'] := by
    exact ⟨by decide, by decide, by simp [Quote.char]⟩
  refine ⟨⟨haccent, ?_, (parse_quoted haccent "").2 fun h => hword.1 ?_⟩,
    ⟨hbackslash, ?_, (parse_quoted hbackslash "").2 fun h => hword.2 ?_⟩⟩
  · simp [behindDollars_cons_iff, behindDollars_nil]
  · exact ((behindDollars_cons_iff (by decide)).mp h).1 rfl
  · simp [behindDollars_cons_iff, behindDollars_escape_iff, behindDollars_nil]
  · exact ((behindDollars_cons_iff (by decide)).mp h).1 rfl

end ClassScript.Template
