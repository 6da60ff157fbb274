import ClassScript.Proofs.ExpressionGrammar

/-!
# Every template has a literal

A list of segments is written as a literal: texts with a backslash before each character that means
something in a string, code between braces. Scanning the literal and cutting its text gives the
segments back, so that in particular every text is the value of a literal.
-/

namespace ClassScript.Template

/-! ## Writing segments -/

/-- Segments as they come from cutting a text: no text is empty, none follows another, and code is
balanced. Between double quotes a doubled brace is a literal one, so that code cannot begin with a
brace there. -/
def Normal (quote : Quote) : List Segment → Prop
  | [] => True
  | .text t :: rest => t ≠ "" ∧ rest.head?.all Segment.isCode ∧ Normal quote rest
  | .code c :: rest =>
    Balanced c.toList ∧ (quote = .double → c.toList.head? ≠ some '{') ∧ Normal quote rest

instance decidableNormal (quote : Quote) : (segments : List Segment) →
    Decidable (Normal quote segments)
  | [] => inferInstanceAs (Decidable True)
  | .text t :: rest =>
    have := decidableNormal quote rest
    inferInstanceAs (Decidable (t ≠ "" ∧ rest.head?.all Segment.isCode ∧ Normal quote rest))
  | .code c :: rest =>
    have := decidableNormal quote rest
    inferInstanceAs (Decidable (Balanced c.toList ∧
      (quote = .double → c.toList.head? ≠ some '{') ∧ Normal quote rest))

def isSpecial (c : Char) : Bool :=
  c = '\\' || c = '$' || c = '{' || c = '}'

def writeChar (quote : Quote) (c : Char) : List Char :=
  if isSpecial c || c = quote.char then ['\\', c] else [c]

def Segment.write (quote : Quote) : Segment → List Char
  | .text t => t.toList.flatMap (writeChar quote)
  | .code c => '{' :: c.toList ++ ['}']

def literal (quote : Quote) (segments : List Segment) : String :=
  String.ofList (quote.char :: segments.flatMap (Segment.write quote) ++ [quote.char])

/-! ## The text of a literal -/

def encodeChar (c : Char) : List Char :=
  if isSpecial c then ['\\', c] else [c]

def Segment.encode : Segment → List Char
  | .text t => t.toList.flatMap encodeChar
  | .code c => '{' :: c.toList ++ ['}']

end ClassScript.Template

namespace ClassScript.Scan

open Template

theorem template_plain {quote : Quote} {c : Char} (hspecial : isSpecial c = false)
    (hquote : c ≠ quote.char) (rest : List Char) :
    template quote 0 (c :: rest) = Found.prepend [c] (template quote 0 rest) := by
  simp only [isSpecial, Bool.or_eq_false_iff, decide_eq_false_iff_not] at hspecial
  obtain ⟨⟨⟨hescape, -⟩, hopen⟩, hclose⟩ := hspecial
  rw [template, if_neg hquote] <;> simp_all

theorem escape_of_special {c : Char} (h : isSpecial c = true) : escape c = ['\\', c] := by
  simp only [isSpecial, Bool.or_eq_true, decide_eq_true_eq] at h
  rcases h with ((rfl | rfl) | rfl) | rfl <;> rfl

theorem encodeChar_of_special {c : Char} (h : isSpecial c = true) : encodeChar c = escape c := by
  rw [escape_of_special h, encodeChar, if_pos h]

theorem encodeChar_of_quote {quote : Quote} : encodeChar quote.char = escape quote.char := by
  cases quote <;> rfl

theorem template_writeChar {quote : Quote} (hquote : quote ≠ .backtick) (c : Char)
    (rest : List Char) : template quote 0 (writeChar quote c ++ rest) =
      Found.prepend (encodeChar c) (template quote 0 rest) := by
  have hescape : template quote 0 ('\\' :: c :: rest) =
      Found.prepend (escape c) (template quote 0 rest) := by
    rw [template, if_neg hquote]
  unfold writeChar
  by_cases hspecial : isSpecial c = true
  · rw [encodeChar_of_special hspecial, if_pos (by simp [hspecial])]
    exact hescape
  · by_cases hc : c = quote.char
    · subst hc
      rw [encodeChar_of_quote, if_pos (by simp)]
      exact hescape
    · rw [encodeChar, if_neg hspecial, if_neg (by simp [hspecial, hc])]
      exact template_plain (by simpa using hspecial) hc rest

theorem template_text {quote : Quote} (hquote : quote ≠ .backtick) (t rest : List Char) :
    template quote 0 (t.flatMap (writeChar quote) ++ rest) =
      Found.prepend (t.flatMap encodeChar) (template quote 0 rest) := by
  induction t with
  | nil => exact (Found.prepend_nil _).symm
  | cons c t ih =>
      rw [List.flatMap_cons, List.flatMap_cons, List.append_assoc,
        template_writeChar hquote, ih, Found.prepend_prepend]

theorem template_code {quote : Quote} (hquote : quote ≠ .backtick) {code : List Char}
    (hcode : Balanced code) (hopening : quote = .double → code.head? ≠ some '{')
    (rest : List Char) : template quote 0 ('{' :: code ++ '}' :: rest) =
      Found.prepend ('{' :: code ++ ['}']) (template quote 0 rest) := by
  by_cases hdouble : ∃ code', code = '{' :: code'
  · -- only between single quotes does a second brace open code, two levels deep
    obtain ⟨code', rfl⟩ := hdouble
    have hsingle : quote = .single := by
      cases quote with
      | single => rfl
      | double => exact absurd rfl (hopening rfl)
      | backtick => exact absurd rfl hquote
    obtain ⟨-, hcode'⟩ := closed_cons_iff.mp hcode
    have hinner : template quote 2 (code' ++ '}' :: rest) = _ := template_append hcode' rest
    rw [List.cons_append, List.cons_append, template, if_pos hsingle, hinner,
      Found.prepend_prepend]
    rfl
  · have hinner : template quote 1 (code ++ '}' :: rest) = _ := template_append hcode rest
    have hnext : ∀ rest', code ++ '}' :: rest ≠ '{' :: rest' := by
      intro rest' heq
      cases code with
      | nil => simp at heq
      | cons c code => exact hdouble ⟨code, by rw [(List.cons.inj heq).1]⟩
    rw [List.cons_append, template_open hnext, hinner, Found.prepend_prepend]
    rfl

/-- What is written for segments is scanned as their template text, up to the closing mark. -/
theorem template_segments {quote : Quote} (hquote : quote ≠ .backtick) {segments : List Segment}
    (h : Normal quote segments) (rest : List Char) :
    template quote 0 (segments.flatMap (Segment.write quote) ++ quote.char :: rest) =
      .ok (segments.flatMap Segment.encode, rest) := by
  induction segments with
  | nil => exact template_quote rest
  | cons segment segments ih =>
      rw [List.flatMap_cons, List.flatMap_cons, List.append_assoc]
      cases segment with
      | text t =>
          obtain ⟨-, -, hrest⟩ := h
          rw [Segment.write, template_text hquote, ih hrest]
          rfl
      | code c =>
          obtain ⟨hcode, hopening, hrest⟩ := h
          have hread := template_code hquote hcode hopening
            (segments.flatMap (Segment.write quote) ++ quote.char :: rest)
          rw [ih hrest] at hread
          simpa [Segment.write, Segment.encode, Found.prepend] using hread

/-- In front of a value, a mark opens a string. -/
theorem next_quote (quote : Quote) (cs : List Char) :
    next .value quote.char cs =
      ((template quote 0 cs).lexeme (.string quote)).map fun found => (some found.1, found.2) := by
  cases quote <;> rfl

theorem tokensFrom_of_next {mode : Mode} {c : Char} {cs : List Char} {lexeme : Lexeme}
    (h : next mode c cs = .ok (some lexeme, [])) (source : Source) (bound : Nat) (place : Place) :
    ∃ token finish, tokensFrom source (bound + 1) mode place (c :: cs) = .ok [token, finish] ∧
      token.kind = lexeme.kind ∧ token.value = lexeme.value ∧ finish.kind = .finish := by
  rw [tokensFrom, h]
  cases bound <;> exact ⟨_, _, rfl, rfl, rfl, rfl⟩

end ClassScript.Scan

namespace ClassScript.Template

open Scan

/-- The literal of segments is one string token, with their template text. -/
theorem tokenize_literal {quote : Quote} (hquote : quote ≠ .backtick) {segments : List Segment}
    (h : Normal quote segments) (file : String) :
    ∃ token finish, tokenize (literal quote segments) file = .ok [token, finish] ∧
      token.kind = .string quote ∧
      token.value = String.ofList (segments.flatMap Segment.encode) ∧ finish.kind = .finish := by
  have hread : next .value quote.char (segments.flatMap (Segment.write quote) ++ [quote.char]) =
      .ok (some ⟨.string quote, String.ofList (segments.flatMap Segment.encode)⟩, []) := by
    rw [next_quote, template_segments hquote h]
    rfl
  unfold tokenize literal
  rw [String.toList_ofList, List.cons_append]
  exact tokensFrom_of_next hread _ _ _

/-! ## Cutting the text again -/

theorem segmentsAfter_encodeChar (literal : List Char) (c : Char) (cs : List Char) :
    segmentsAfter literal (encodeChar c ++ cs) = segmentsAfter (literal ++ [c]) cs := by
  unfold encodeChar
  by_cases hspecial : isSpecial c = true
  · rw [if_pos hspecial]
    exact segmentsAfter_escape literal c cs
  · rw [if_neg hspecial]
    simp only [isSpecial, Bool.or_eq_true, decide_eq_true_eq, not_or] at hspecial
    obtain ⟨⟨⟨hescape, hdollar⟩, hbrace⟩, -⟩ := hspecial
    exact segmentsAfter_plain literal hescape hdollar hbrace cs

theorem segmentsAfter_text (literal t cs : List Char) :
    segmentsAfter literal (t.flatMap encodeChar ++ cs) = segmentsAfter (literal ++ t) cs := by
  induction t generalizing literal with
  | nil => rw [List.flatMap_nil, List.nil_append, List.append_nil]
  | cons c t ih =>
      rw [List.flatMap_cons, List.append_assoc, segmentsAfter_encodeChar, ih, List.append_assoc]
      rfl

/-- The template text of segments is cut into them again. Literal text before them stays apart,
unless they begin with a text. -/
theorem segmentsAfter_encode {quote : Quote} {segments : List Segment}
    (h : Normal quote segments) {literal : List Char}
    (hliteral : literal = [] ∨ segments.head?.all Segment.isCode) :
    segmentsAfter literal (segments.flatMap Segment.encode) = flush literal segments := by
  induction segments generalizing literal with
  | nil => rfl
  | cons segment segments ih =>
      rw [List.flatMap_cons]
      cases segment with
      | text t =>
          obtain ⟨hne, hnext, hrest⟩ := h
          obtain rfl : literal = [] := by simpa [Segment.isCode] using hliteral
          have hcut := segmentsAfter_text [] t.toList (segments.flatMap Segment.encode)
          rw [List.nil_append, ih hrest (Or.inr hnext)] at hcut
          rw [Segment.encode, hcut]
          simp [flush, hne]
      | code c =>
          obtain ⟨hcode, -, hrest⟩ := h
          have hcut := segmentsAfter_code literal hcode (segments.flatMap Segment.encode)
          rw [ih hrest (Or.inl rfl)] at hcut
          simpa [Segment.encode, flush] using hcut

/-! ## The value of a literal -/

def plain (t : String) : List Segment :=
  if t = "" then [] else [.text t]

theorem normal_plain (quote : Quote) (t : String) : Normal quote (plain t) := by
  unfold plain
  by_cases ht : t = ""
  · rw [if_pos ht]
    trivial
  · rw [if_neg ht]
    exact ⟨ht, rfl, trivial⟩

/-- A string token without code is the text that it was cut into. -/
theorem stringRule_of_plain {token : Token} {t : String}
    (h : segments token.value = plain t) (depth : Nat) :
    Parser.stringRule (depth + 1) token = .ok (.string t) := by
  unfold plain at h
  by_cases ht : t = ""
  · rw [if_pos ht] at h
    simp [Parser.stringRule, h, ht, String.join]
  · rw [if_neg ht] at h
    simp [Parser.stringRule, h, Segment.isCode, Segment.value, String.join]

/-- Between single or double quotes, the literal of segments in normal form is one token, and its
text is cut into these segments. So every text is the value of a literal. -/
theorem segments_of_literal {quote : Quote} (hquote : quote ≠ .backtick) (file : String) :
    (∀ segments, Normal quote segments →
      ∃ token finish, tokenize (literal quote segments) file = .ok [token, finish] ∧
        token.kind = .string quote ∧ finish.kind = .finish ∧
        Template.segments token.value = segments) ∧
      ∀ t, (tokenize (literal quote (plain t)) file >>= parseExpression) = .ok (.string t) := by
  have hcut : ∀ segments, Normal quote segments →
      ∃ token finish, tokenize (literal quote segments) file = .ok [token, finish] ∧
        token.kind = .string quote ∧ finish.kind = .finish ∧
        Template.segments token.value = segments := by
    intro segments h
    obtain ⟨token, finish, htokens, hkind, hvalue, hfinish⟩ := tokenize_literal hquote h file
    refine ⟨token, finish, htokens, hkind, hfinish, ?_⟩
    rw [hvalue, segments_ofList]
    exact segmentsAfter_encode h (Or.inl rfl)
  refine ⟨hcut, ?_⟩
  intro t
  obtain ⟨token, finish, htokens, hkind, hfinish, hsegments⟩ := hcut _ (normal_plain quote t)
  have hts : ∀ u ∈ [token], u.kind ≠ .finish := by simp [hkind]
  have hleaf : Grammar.Leaf Parser.stringTree token (.string t) :=
    .string quote hkind (stringRule_of_plain hsegments token.value.length)
  have hread := (Parser.parseExpression_eq_ok_iff_derives hts hfinish).mpr
    (Grammar.Derives.of_primary (.leaf hleaf))
  rw [htokens]
  exact hread

/-- A dollar sign, a quote and a brace in texts, next to code with braces and quotes and to empty
code. -/
def mixedSegments : List Segment :=
  [.text "a\\$", .code "b[\x7bc\x7d] + '\"'", .code "", .text "\"\x7d\n"]

theorem segments_of_mixedSegments :
    Quote.double ≠ .backtick ∧ Normal .double mixedSegments ∧
      ∃ token finish, tokenize (literal .double mixedSegments) "" = .ok [token, finish] ∧
        token.kind = .string .double ∧ finish.kind = .finish ∧
        segments token.value = mixedSegments := by
  have hquote : Quote.double ≠ .backtick := by decide
  have hnormal : Normal .double mixedSegments := by decide
  exact ⟨hquote, hnormal, (segments_of_literal hquote "").1 mixedSegments hnormal⟩

end ClassScript.Template
