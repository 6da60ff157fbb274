import ClassScript.Proofs.LeadingPoints
import Mathlib.Data.List.Induction
import Mathlib.Data.List.TakeWhile
import Mathlib.Data.Nat.Digits.Defs

/-!
# Numbers in another base

A number in base two, eight or sixteen is a zero, the mark of the base, and digits with underscores
between them. The scanner makes one token of it, with the decimal numeral of the number that the
digits write by their places. It refuses the number if there is no digit or if 64 bits do not hold
it; leading zeros never matter. Nothing of the numeral can be taken for a suffix.
-/

namespace ClassScript

namespace Scan

/-! ## What is written -/

def baseMarks : List (Char × Nat) :=
  [('b', 2), ('B', 2), ('o', 8), ('O', 8), ('x', 16), ('X', 16)]

/-- A digit of a base in one of its spellings, or an underscore. -/
inductive Figure (base : Nat) where
  | underscore
  | digit (value : Fin base) (upper : Bool)

namespace Figure

variable {base : Nat}

def char : Figure base → Char
  | underscore => '_'
  | digit value upper => if upper then (Nat.digitChar value).toUpper else Nat.digitChar value

def value? : Figure base → Option Nat
  | underscore => none
  | digit value _ => some value

/-- The digits without the underscores, the first one first. -/
def values (figures : List (Figure base)) : List Nat :=
  figures.filterMap value?

/-- The number that digits write by their places. -/
def total (figures : List (Figure base)) : Nat :=
  Nat.ofDigits base (values figures).reverse

end Figure

def baseLiteral {base : Nat} (mark : Char) (figures : List (Figure base)) : List Char :=
  '0' :: mark :: figures.map Figure.char

/-! ## Digits -/

theorem baseOf?_of_mem {mark : Char} {base : Nat} (h : (mark, base) ∈ baseMarks) :
    baseOf? mark = some base := by
  simp only [baseMarks, List.mem_cons, Prod.mk.injEq, List.not_mem_nil, or_false] at h
  rcases h with h | h | h | h | h | h <;> obtain ⟨rfl, rfl⟩ := h <;> rfl

theorem base_le {mark : Char} {base : Nat} (h : (mark, base) ∈ baseMarks) : base ≤ 16 := by
  simp only [baseMarks, List.mem_cons, Prod.mk.injEq, List.not_mem_nil, or_false] at h
  omega

theorem digitValue?_digitChar : ∀ d < 16, digitValue? (Nat.digitChar d) = some d ∧
    digitValue? (Nat.digitChar d).toUpper = some d := by
  decide

section Figures

variable {base : Nat} (hbase : base ≤ 16)
include hbase

theorem digitValue?_char (value : Fin base) (upper : Bool) :
    digitValue? (Figure.digit value upper).char = some value.val := by
  obtain ⟨hlower, hupper⟩ := digitValue?_digitChar value (by omega)
  unfold Figure.char
  cases upper
  · exact hlower
  · exact hupper

theorem char_ne_underscore (value : Fin base) (upper : Bool) :
    (Figure.digit value upper).char ≠ '_' := by
  intro heq
  have hvalue := digitValue?_char hbase value upper
  rw [heq] at hvalue
  cases hvalue

/-- The scanner takes all digits and leaves out the underscores. -/
theorem baseDigits_figures (figures : List (Figure base)) {after : List Char}
    (hafter : ∀ c, after.head? = some c → c.isAlphanum = false ∧ c ≠ '_') :
    ∃ digits, baseDigits base (figures.map Figure.char ++ after) = .ok (digits, after) ∧
      digits.map digitValue? = (Figure.values figures).map some := by
  induction figures with
  | nil =>
      refine ⟨[], ?_, rfl⟩
      cases after with
      | nil => rfl
      | cons c after =>
          obtain ⟨halphanum, hunderscore⟩ := hafter c rfl
          have hdigit : ¬ isDigitOf base c := fun h =>
            Bool.false_ne_true (halphanum.symm.trans (isAlphanum_of_isDigitOf h))
          simp [baseDigits, hunderscore, hdigit, halphanum]
  | cons figure figures ih =>
      obtain ⟨digits, hdigits, hvalues⟩ := ih
      cases figure with
      | underscore => exact ⟨digits, by simpa [baseDigits, Figure.char] using hdigits, hvalues⟩
      | digit value upper =>
          have hvalue := digitValue?_char hbase value upper
          refine ⟨(Figure.digit value upper).char :: digits, ?_, ?_⟩
          · have hunderscore := char_ne_underscore hbase value upper
            rw [List.map_cons, List.cons_append, baseDigits, if_neg hunderscore,
              if_pos (by simp [isDigitOf, hvalue]), hdigits]
            rfl
          · simp [hvalue, hvalues, Figure.values, Figure.value?]

end Figures

/-- Taking in one digit after the other gives each the weight of its place. -/
theorem foldl_eq_ofDigits (base : Nat) (values : List Nat) :
    values.foldl (fun n d => base * n + d) 0 = Nat.ofDigits base values.reverse := by
  induction values using List.reverseRecOn with
  | nil => rfl
  | append_singleton values d ih =>
      rw [List.foldl_append, ih, List.reverse_append, List.reverse_singleton, List.singleton_append,
        Nat.ofDigits_cons, Nat.add_comm]
      rfl

theorem positional_eq_ofDigits (base : Nat) {digits : List Char} {values : List Nat}
    (h : digits.map digitValue? = values.map some) :
    positional base digits = Nat.ofDigits base values.reverse := by
  have hmap := congrArg (List.foldl (fun n d => base * n + Option.getD d 0) 0) h
  simp only [List.foldl_map, Option.getD_some] at hmap
  exact hmap.trans (foldl_eq_ofDigits base values)

/-- What the scanner makes of a number in a base. -/
theorem baseNumber_figures {base : Nat} (hbase : base ≤ 16) (figures : List (Figure base))
    {after : List Char}
    (hafter : ∀ c, after.head? = some c → c.isAlphanum = false ∧ c ≠ '_') :
    baseNumber base (figures.map Figure.char ++ after) =
      if Figure.values figures = [] then .error (.noDigits base, after)
      else if 2 ^ 64 ≤ Figure.total figures then .error (.tooLarge base, after)
      else .ok (⟨.number, toString (Figure.total figures)⟩, after) := by
  obtain ⟨digits, hdigits, hvalues⟩ := baseDigits_figures hbase figures hafter
  have hempty : digits.isEmpty ↔ Figure.values figures = [] := by
    rw [List.isEmpty_iff, ← List.map_eq_nil_iff (f := digitValue?), hvalues, List.map_eq_nil_iff]
  simp only [baseNumber, hdigits, hempty, positional_eq_ofDigits base hvalues]
  rw [Nat.toString_eq_ofList_toDigits]
  rfl

theorem next_baseLiteral {mark : Char} {base : Nat} (hmark : (mark, base) ∈ baseMarks)
    (mode : Mode) (cs : List Char) :
    next mode '0' (mark :: cs) = (baseNumber base cs).token := by
  have hbase : baseAt? ('0' :: mark :: cs) = some base := baseOf?_of_mem hmark
  rw [(First.number (Or.inl rfl) (by decide)).next_eq, number_of_base hbase]
  rfl

/-! ## Where the scanner stands -/

/-- The scanner, which cuts a text from the front, comes to the end of `before` and has made tokens
of it; what is left is `rest`. -/
inductive Reaches (source : Source) : (before rest : List Char) → Mode → List Token → Prop
  | start (text : List Char) : Reaches source [] text .value []
  | skip {before body rest : List Char} {c : Char} {mode : Mode} {tokens : List Token}
      (h : Reaches source before (c :: body ++ rest) mode tokens)
      (hnext : next mode c (body ++ rest) = .ok (none, rest)) :
      Reaches source (before ++ c :: body) rest mode tokens
  | token {before body rest : List Char} {c : Char} {mode : Mode} {tokens : List Token}
      {lexeme : Lexeme} (h : Reaches source before (c :: body ++ rest) mode tokens)
      (hnext : next mode c (body ++ rest) = .ok (some lexeme, rest)) :
      Reaches source (before ++ c :: body) rest (Mode.after lexeme.kind)
        (tokens ++ [tokenAt source (Place.advance {} before)
          (Place.advance {} (before ++ c :: body)) lexeme])

theorem map_cons_map_append (result : Except Diagnostic (List Token)) (tokens : List Token)
    (token : Token) :
    (result.map (token :: ·)).map (tokens ++ ·) = result.map (tokens ++ token :: ·) := by
  cases result <;> rfl

/-- Cutting what is left completes the cutting of the text. -/
theorem Reaches.cut {source : Source} {before rest : List Char} {mode : Mode} {tokens : List Token}
    (h : Reaches source before rest mode tokens) {result : Except Diagnostic (List Token)}
    (hrest : Cut source mode (Place.advance {} before) rest result) :
    Cut source .value {} (before ++ rest) (result.map (tokens ++ ·)) := by
  induction h generalizing result with
  | start text =>
      have hresult : result.map ([] ++ ·) = result := by cases result <;> rfl
      rw [hresult]
      exact hrest
  | skip _ hnext ih =>
      rw [Place.advance_append] at hrest
      rw [List.append_assoc]
      exact ih (.skip hnext hrest)
  | @token before body rest c mode tokens lexeme _ hnext ih =>
      rw [Place.advance_append] at hrest ⊢
      rw [List.append_assoc]
      have hcut := ih (.token hnext hrest)
      rw [map_cons_map_append] at hcut
      simpa only [List.append_assoc, List.singleton_append] using hcut

end Scan

/-! ## The numeral -/

namespace Number

theorem readSign_of_isDigit {c : Char} (hc : c.isDigit) (rest : List Char) :
    readSign (c :: rest) = (false, c :: rest) := by
  unfold readSign
  split
  · next heq =>
      cases heq
      cases hc
  · next heq =>
      cases heq
      cases hc
  · rfl

theorem toLower_of_isDigit {c : Char} (hc : c.isDigit) : c.toLower = c := by
  have hle : c.val ≤ 57 := of_decide_eq_true (Bool.and_eq_true_iff.mp hc).2
  have hupper : ¬ (c.val ≥ 'A'.val ∧ c.val ≤ 'Z'.val) :=
    fun h => absurd (UInt32.le_trans h.1 hle) (by decide)
  exact dif_neg hupper

theorem readDecimal_of_digits {digits : List Char} (hne : digits ≠ [])
    (hdigits : ∀ c ∈ digits, c.isDigit) :
    readDecimal digits = some (nearest (ofDigits digits) 0) := by
  have htake : digits.takeWhile Char.isDigit = digits := List.takeWhile_eq_self_iff.mpr hdigits
  have hdrop : digits.dropWhile Char.isDigit = [] := List.dropWhile_eq_nil_iff.mpr hdigits
  simp [readDecimal, htake, hdrop, hne, readExponent]

/-- Digits alone are read as the number that they write. -/
theorem read?_of_digits {digits : List Char} (hne : digits ≠ [])
    (hdigits : ∀ c ∈ digits, c.isDigit) :
    read? (String.ofList digits) = some (nearest (ofDigits digits) 0) := by
  obtain ⟨d, ds, rfl⟩ := List.exists_cons_of_ne_nil hne
  have hd : d.isDigit := hdigits d (by simp)
  have hword : ∀ word : String, word.toList.head?.any Char.isDigit = false →
      String.ofList ((d :: ds).map Char.toLower) ≠ word := by
    rintro word hnone rfl
    rw [String.toList_ofList, List.map_cons, List.head?_cons, Option.any_some,
      toLower_of_isDigit hd, hd] at hnone
    cases hnone
  have hinf : ¬ (String.ofList ((d :: ds).map Char.toLower) = "inf" ∨
      String.ofList ((d :: ds).map Char.toLower) = "infinity") :=
    not_or.mpr ⟨hword _ (by decide), hword _ (by decide)⟩
  unfold read?
  simp only [String.toList_ofList, readSign_of_isDigit hd, if_neg hinf,
    if_neg (hword "nan" (by decide)), readDecimal_of_digits hne hdigits]
  rfl

end Number

/-- A token is the decimal numeral of a number, and is read as that number. -/
structure Numeral (token : Token) (n : Nat) : Prop where
  kind : token.kind = .number
  value : token.value = toString n
  no_leading_zero : token.value.toList.head? = some '0' → token.value = "0"
  no_suffix : ∀ c, token.value.toList.getLast? = some c → c ≠ 'f' ∧ c ≠ 'c'
  read : Parser.numberLiteral token = .ok (.number (Number.nearest n 0))

theorem toDigits_head?_ne_zero {n : Nat} (h : n ≠ 0) : (Nat.toDigits 10 n).head? ≠ some '0' := by
  induction n using Nat.strongRecOn with
  | ind n ih =>
      rw [Nat.toDigits_eq_if (by decide)]
      split
      · simpa using h
      · rw [List.head?_append_of_ne_nil _ Nat.toDigits_ne_nil]
        exact ih (n / 10) (by omega) (by omega)

theorem Parser.numberLiteral_of_digits {token : Token} {digits : List Char}
    (hvalue : token.value = String.ofList digits) (hne : digits ≠ [])
    (hdigits : ∀ c ∈ digits, c.isDigit) :
    Parser.numberLiteral token = .ok (.number (Number.nearest (Number.ofDigits digits) 0)) := by
  have hlast : ∀ c, digits.getLast? = some c → c.isDigit :=
    fun c hc => hdigits c (List.mem_of_getLast? hc)
  simp only [Parser.numberLiteral, hvalue, String.toList_ofList]
  split
  · next hc => cases hlast _ hc
  · rw [if_neg (fun hf => by cases hlast _ hf), Number.read?_of_digits hne hdigits]

theorem numeral_toString {token : Token} {n : Nat} (hkind : token.kind = .number)
    (hvalue : token.value = toString n) : Numeral token n := by
  have hdigits : ∀ c ∈ Nat.toDigits 10 n, c.isDigit :=
    fun c hc => Nat.isDigit_of_mem_toDigits (by decide) (by decide) hc
  have hofDigits : Number.ofDigits (Nat.toDigits 10 n) = n := Nat.ofDigitChars_ten_toDigits
  have htext : token.value.toList = Nat.toDigits 10 n := by
    rw [hvalue, Nat.toString_eq_ofList_toDigits, String.toList_ofList]
  refine ⟨hkind, hvalue, ?_, ?_, ?_⟩
  · intro hzero
    rw [htext] at hzero
    have hn : n = 0 := Decidable.byContradiction fun hn => toDigits_head?_ne_zero hn hzero
    rw [hvalue, hn]
    rfl
  · intro c hc
    rw [htext] at hc
    have hdigit := hdigits c (List.mem_of_getLast? hc)
    constructor <;> rintro rfl <;> cases hdigit
  · rw [Nat.toString_eq_ofList_toDigits] at hvalue
    rw [Parser.numberLiteral_of_digits hvalue Nat.toDigits_ne_nil hdigits, hofDigits]

/-! ## The whole text -/

/-- Wherever the scanner comes to a number in base two, eight or sixteen that ends before no letter,
digit or underscore, it makes one token of it and goes on behind it, if the number has a digit and
fits into 64 bits. The token is the decimal numeral of the number. Otherwise the text is refused,
from the beginning of the number on. -/
theorem tokenize_baseLiteral {file : String} {before after : List Char} {mode : Scan.Mode}
    {emitted : List Token} {mark : Char} {base : Nat} (figures : List (Scan.Figure base))
    (hmark : (mark, base) ∈ Scan.baseMarks)
    (hafter : ∀ c, after.head? = some c → c.isAlphanum = false ∧ c ≠ '_')
    (hreach : Scan.Reaches
      (Source.ofText file (before ++ (Scan.baseLiteral mark figures ++ after)))
      before (Scan.baseLiteral mark figures ++ after) mode emitted) :
    let literal := Scan.baseLiteral mark figures
    let text := before ++ (literal ++ after)
    let source := Source.ofText file text
    let span : Span := ⟨before.length, before.length + literal.length⟩
    (Scan.Figure.values figures ≠ [] ∧ Scan.Figure.total figures < 2 ^ 64 →
      ∃ token, Numeral token (Scan.Figure.total figures) ∧ token.span = span ∧
        tokenize (String.ofList text) file =
          (Scan.tokensFrom source after.length .operator (Place.advance {} (before ++ literal))
            after).map (emitted ++ token :: ·)) ∧
    (¬ (Scan.Figure.values figures ≠ [] ∧ Scan.Figure.total figures < 2 ^ 64) →
      ∃ cause, tokenize (String.ofList text) file =
        .error (.lexical cause (source.position (Place.advance {} before)) span)) := by
  intro literal text source span
  have hnumber := Scan.baseNumber_figures (Scan.base_le hmark) figures hafter
  have hnext := Scan.next_baseLiteral hmark mode (figures.map Scan.Figure.char ++ after)
  have htokenize : ∀ {result}, Scan.Cut source mode (Place.advance {} before) (literal ++ after)
      result → tokenize (String.ofList text) file = result.map (emitted ++ ·) := by
    intro result hcut
    have hwhole := hreach.cut hcut
    rw [tokenize, String.toList_ofList]
    exact hwhole.tokensFrom_eq (Nat.le_refl _)
  constructor
  · rintro ⟨hdigits, hfits⟩
    rw [hnumber, if_neg hdigits, if_neg (Nat.not_le.mpr hfits)] at hnext
    have hcut : Scan.Cut source mode (Place.advance {} before) (literal ++ after) _ :=
      .token hnext (Scan.cut_tokensFrom source _ _ (Nat.le_refl after.length))
    refine ⟨Scan.tokenAt source (Place.advance {} before)
      ((Place.advance {} before).advance literal) ⟨.number, toString (Scan.Figure.total figures)⟩,
      numeral_toString rfl rfl, ?_, ?_⟩
    · simp [Scan.tokenAt, span]
    · rw [htokenize hcut, Scan.map_cons_map_append, Place.advance_append]
      rfl
  · intro hrefused
    have hfault : ∃ cause, Scan.baseNumber base (figures.map Scan.Figure.char ++ after) =
        .error (cause, after) := by
      rw [hnumber]
      split
      · exact ⟨_, rfl⟩
      · next hdigits =>
          rw [if_pos (Nat.not_lt.mp fun hfits => hrefused ⟨hdigits, hfits⟩)]
          exact ⟨_, rfl⟩
    obtain ⟨cause, hfault⟩ := hfault
    rw [hfault] at hnext
    have hsplit : '0' :: (mark :: figures.map Scan.Figure.char ++ after) = literal ++ after := rfl
    have hcut : Scan.Cut source mode (Place.advance {} before) (literal ++ after) _ :=
      .fault hnext hsplit
    refine ⟨cause, (htokenize hcut).trans ?_⟩
    simp [Except.map, span, literal]

/-- The figures of `0_ffffFFFFffffFFFc`, four below the first number that is too large. -/
def wideFigures : List (Scan.Figure 16) :=
  .digit 0 false :: .underscore :: List.replicate 4 (.digit 15 false) ++
    List.replicate 4 (.digit 15 true) ++ List.replicate 4 (.digit 15 false) ++
    List.replicate 3 (.digit 15 true) ++ [.digit 12 false]

/-- A wide number behind a sign: a leading zero does no harm, and the last digit is no suffix. And a
number in base two with no digit at all. -/
theorem tokenize_wideFigures :
    Scan.baseLiteral 'x' wideFigures = "0x0_ffffFFFFffffFFFc".toList ∧
    (∃ token emitted, Numeral token 18446744073709551612 ∧ token.span = ⟨1, 21⟩ ∧
      tokenize "-0x0_ffffFFFFffffFFFc;" "main" =
        (Scan.tokensFrom (Source.ofText "main" "-0x0_ffffFFFFffffFFFc;".toList) 1 .operator
          (Place.advance {} "-0x0_ffffFFFFffffFFFc".toList) [';']).map (emitted ++ token :: ·)) ∧
    ∃ cause, tokenize "0b_" "main" = .error (.lexical cause
      ((Source.ofText "main" "0b_".toList).position {}) ⟨0, 3⟩) := by
  have hliteral : Scan.baseLiteral 'x' wideFigures = "0x0_ffffFFFFffffFFFc".toList := by decide
  have hsign : Scan.next .value '-' ([] ++ (Scan.baseLiteral 'x' wideFigures ++ [';'])) =
      .ok (some ⟨.symbol .minus, "-"⟩, Scan.baseLiteral 'x' wideFigures ++ [';']) := by
    decide +kernel
  refine ⟨hliteral, ?_, ?_⟩
  · obtain ⟨token, hnumeral, hspan, htokens⟩ :=
      (tokenize_baseLiteral wideFigures (by decide) (by simp)
        (.token (.start _) hsign)).1 (by decide)
    rw [hliteral] at hspan htokens
    exact ⟨token, _, hnumeral, hspan, htokens⟩
  · have hnone : ([.underscore] : List (Scan.Figure 2)).filterMap Scan.Figure.value? = [] := rfl
    exact (tokenize_baseLiteral [.underscore] (by decide) (by simp)
      (.start (Scan.baseLiteral 'b' [.underscore] ++ []))).2 fun h => h.1 hnone

end ClassScript
