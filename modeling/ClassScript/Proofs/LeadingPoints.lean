import ClassScript.Proofs.Layout

/-!
# Numbers that begin with their point

Where a value is expected, the zero before the point of a number can be left out. If a blank stands
before the number, nothing else changes: a token or comment that ends before the blank does not
depend on what comes behind it, and the text behind the number is cut as before.
-/

namespace ClassScript.Text

theorem isAlphanum_iff {c : Char} : c.isAlphanum ↔
    65 ≤ c.toNat ∧ c.toNat ≤ 90 ∨ 97 ≤ c.toNat ∧ c.toNat ≤ 122 ∨ 48 ≤ c.toNat ∧ c.toNat ≤ 57 := by
  change ((decide (c.val ≥ 65 ∧ c.val ≤ 90) || (decide (c.val ≥ 97) && decide (c.val ≤ 122))) ||
    (decide (c.val ≥ 48) && decide (c.val ≤ 57))) = true ↔ _
  simp [UInt32.le_iff_toNat_le, or_assoc]

/-- A blank is no letter and no digit. -/
theorem isAlphanum_of_isBlank {b : Char} (h : isBlank b) : b.isAlphanum = false := by
  rw [Bool.eq_false_iff, Ne, isAlphanum_iff]
  simp [isBlank, inRanges, blankRanges] at h
  omega

theorem ne_of_isBlank {b c : Char} (h : isBlank b) (hc : isBlank c = false) : b ≠ c := by
  rintro rfl
  rw [h] at hc
  cases hc

end ClassScript.Text

namespace ClassScript.Scan

/-! ## Up to a blank -/

inductive EndsBlank : List Char → Prop
  | blank {b : Char} (hb : Text.isBlank b) : EndsBlank [b]
  | cons (c : Char) {cs : List Char} (h : EndsBlank cs) : EndsBlank (c :: cs)

namespace EndsBlank

variable {cs : List Char} {c : Char}

theorem ne_nil (h : EndsBlank cs) : cs ≠ [] := by
  cases h <;> simp

theorem tail_of_not_blank (h : EndsBlank (c :: cs)) (hc : ¬ Text.isBlank c) : EndsBlank cs := by
  cases h with
  | blank hb => exact absurd hb hc
  | cons _ h => exact h

theorem head?_append (h : EndsBlank cs) (tail : List Char) : (cs ++ tail).head? = cs.head? :=
  List.head?_append_of_ne_nil cs h.ne_nil

/-- What is left of such a text is empty or ends in a blank as well. -/
theorem of_append {taken : List Char} (h : EndsBlank (taken ++ cs)) : cs = [] ∨ EndsBlank cs := by
  induction taken with
  | nil => exact Or.inr h
  | cons c taken ih =>
      generalize hall : c :: taken ++ cs = all at h
      cases h with
      | blank hb => exact Or.inl (by simp_all)
      | cons d h =>
          obtain ⟨-, rfl⟩ := List.cons.inj hall
          exact ih h

theorem iff_getLast? : EndsBlank cs ↔ cs.getLast?.any Text.isBlank := by
  constructor
  · intro h
    induction h with
    | blank hb => exact hb
    | @cons c cs h ih =>
        obtain ⟨b, hlast, hb⟩ := (Option.any_eq_true _ _).mp ih
        rw [List.getLast?_cons, hlast]
        exact hb
  · intro h
    induction cs with
    | nil => cases h
    | cons c cs ih =>
        cases cs with
        | nil => exact .blank h
        | cons d cs => exact .cons c (ih (by rwa [List.getLast?_cons_cons] at h))

instance : DecidablePred EndsBlank :=
  fun _ => decidable_of_iff _ iff_getLast?.symm

theorem exists_getLast? (h : EndsBlank cs) : ∃ b, cs.getLast? = some b ∧ Text.isBlank b :=
  (Option.any_eq_true _ _).mp (iff_getLast?.mp h)

variable {p : Char → Bool} (hp : ∀ b, Text.isBlank b → p b = false)
include hp

theorem takeWhile_append (h : EndsBlank cs) (tail : List Char) :
    (cs ++ tail).takeWhile p = cs.takeWhile p := by
  induction h with
  | blank hb => simp [hp _ hb]
  | cons c _ ih => simp only [List.cons_append, List.takeWhile_cons, ih]

theorem dropWhile_append (h : EndsBlank cs) (tail : List Char) :
    (cs ++ tail).dropWhile p = cs.dropWhile p ++ tail := by
  induction h with
  | blank hb => simp [hp _ hb]
  | cons c _ ih =>
      simp only [List.cons_append, List.dropWhile_cons, ih]
      split <;> rfl

end EndsBlank

/-- The same is found, and more text is left behind it. -/
def Found.extend {α : Type} (tail : List Char) : Found α → Found α
  | .ok (a, rest) => .ok (a, rest ++ tail)
  | .error (cause, rest) => .error (cause, rest ++ tail)

namespace Found

variable {α : Type} {tail : List Char}

theorem extend_prepend (cs : List Char) (found : Found (List Char)) :
    (found.prepend cs).extend tail = (found.extend tail).prepend cs := by
  rcases found with ⟨cause, rest⟩ | ⟨text, rest⟩ <;> rfl

theorem extend_lexeme (kind : Kind) (found : Found (List Char)) :
    (found.lexeme kind).extend tail = (found.extend tail).lexeme kind := by
  rcases found with ⟨cause, rest⟩ | ⟨text, rest⟩ <;> rfl

theorem extend_eq_ok {found : Found α} {a : α} {rest : List Char}
    (h : found.extend tail = .ok (a, rest ++ tail)) : found = .ok (a, rest) := by
  rcases found with ⟨cause, rest'⟩ | ⟨a', rest'⟩
  · cases h
  · obtain ⟨rfl, hrest⟩ := Prod.mk.inj (Except.ok.inj h)
    rw [List.append_cancel_right hrest]

end Found

section Numbers

variable {front : List Char} (tail : List Char)

theorem decimal_append (h : EndsBlank front) (seenPoint begun : Bool) :
    decimal seenPoint begun (front ++ tail) = (decimal seenPoint begun front).extend tail := by
  induction h generalizing seenPoint begun with
  | @blank b hb =>
      have halphanum := Text.isAlphanum_of_isBlank hb
      have hdigit : ¬ b.isDigit := by simp_all [Char.isAlphanum]
      have hmarks : b ≠ '_' ∧ b ≠ '.' ∧ b ≠ 'f' ∧ b ≠ 'c' :=
        ⟨Text.ne_of_isBlank hb rfl, Text.ne_of_isBlank hb rfl, Text.ne_of_isBlank hb rfl,
          Text.ne_of_isBlank hb rfl⟩
      simp [decimal, hdigit, hmarks, Found.extend]
  | @cons c cs h ih =>
      rw [List.cons_append, decimal, decimal, h.head?_append, ih, ih, ih]
      split
      · rfl
      split
      · rw [Found.extend_prepend]
      split
      · split
        · rfl
        · rw [Found.extend_prepend]
      split <;> rfl

theorem isAlphanum_of_isDigitOf {base : Nat} {c : Char} (h : isDigitOf base c) :
    c.isAlphanum := by
  obtain ⟨n, hn, -⟩ := (Option.any_eq_true _ _).mp h
  have hranges : '0' ≤ c ∧ c ≤ '9' ∨ 'a' ≤ c ∧ c ≤ 'f' ∨ 'A' ≤ c ∧ c ≤ 'F' := by
    unfold digitValue? at hn
    split at hn
    · exact Or.inl ‹_›
    split at hn
    · exact Or.inr (Or.inl ‹_›)
    split at hn
    · exact Or.inr (Or.inr ‹_›)
    · cases hn
  rw [Text.isAlphanum_iff]
  simp [Char.le_def, UInt32.le_iff_toNat_le] at hranges
  omega

theorem baseDigits_append (h : EndsBlank front) (base : Nat) :
    baseDigits base (front ++ tail) = (baseDigits base front).extend tail := by
  induction h with
  | @blank b hb =>
      have halphanum := Text.isAlphanum_of_isBlank hb
      have hdigit : ¬ isDigitOf base b := by
        intro h
        rw [isAlphanum_of_isDigitOf h] at halphanum
        cases halphanum
      have hmark : b ≠ '_' := Text.ne_of_isBlank hb rfl
      simp [baseDigits, hmark, hdigit, halphanum, Found.extend]
  | @cons c cs h ih =>
      rw [List.cons_append, baseDigits, baseDigits, ih]
      split
      · rfl
      split
      · rw [Found.extend_prepend]
      split <;> rfl

theorem baseNumber_append (h : EndsBlank front) (base : Nat) :
    baseNumber base (front ++ tail) = (baseNumber base front).extend tail := by
  unfold baseNumber
  rw [baseDigits_append tail h]
  rcases baseDigits base front with ⟨cause, rest⟩ | ⟨digits, rest⟩
  · rfl
  · simp only [Found.extend]
    split
    · rfl
    · split <;> rfl

theorem baseOf?_of_isBlank {b : Char} (h : Text.isBlank b) : baseOf? b = none := by
  unfold baseOf?
  split
  all_goals first | rfl | cases h

theorem baseAt?_append (h : EndsBlank front) : baseAt? (front ++ tail) = baseAt? front := by
  cases h with
  | blank hb =>
      have hzero := Text.ne_of_isBlank (c := '0') hb rfl
      rw [List.singleton_append, baseAt?_cons, baseAt?_cons, if_neg hzero, if_neg hzero]
  | cons c h => rw [List.cons_append, baseAt?_cons, baseAt?_cons, h.head?_append]

theorem number_append (h : EndsBlank front) :
    number (front ++ tail) = (number front).extend tail := by
  cases hbase : baseAt? front with
  | none =>
      rw [number_of_decimal ((baseAt?_append tail h).trans hbase), number_of_decimal hbase,
        decimal_append tail h, Found.extend_lexeme]
  | some base =>
      rw [number_of_base ((baseAt?_append tail h).trans hbase), number_of_base hbase]
      unfold baseAt? at hbase
      split at hbase
      · next mark digits =>
          have hmark : ¬ Text.isBlank mark := by
            intro hblank
            rw [baseOf?_of_isBlank hblank] at hbase
            cases hbase
          have hdigits := (h.tail_of_not_blank (by decide)).tail_of_not_blank hmark
          exact baseNumber_append tail hdigits base
      · cases hbase

end Numbers

/-! ## Signs -/

/-- A text with a blank in it is no sign. -/
theorem symbolOf?_of_blank {mode : Mode} {cs : List Char} {n : Nat} {b : Char}
    (hb : Text.isBlank b) (hmem : b ∈ cs.take n) : symbolOf? mode cs n = none := by
  refine Option.eq_none_iff_forall_ne_some.mpr fun found hfound => ?_
  obtain ⟨sign, hsign, -⟩ := symbolOf?_eq_some_iff.mp hfound
  have hnone := no_blank_in_spelling hsign b hmem
  rw [hb] at hnone
  cases hnone

theorem symbolOf?_append {front : List Char} (h : EndsBlank front) (mode : Mode)
    (tail : List Char) (n : Nat) :
    symbolOf? mode (front ++ tail) n =
      (symbolOf? mode front n).map fun found => (found.1, found.2 ++ tail) := by
  rcases Nat.lt_or_ge n front.length with hn | hn
  · have htake : (front ++ tail).take n = front.take n :=
      List.take_append_of_le_length (Nat.le_of_lt hn)
    have hdrop : (front ++ tail).drop n = front.drop n ++ tail :=
      List.drop_append_of_le_length (Nat.le_of_lt hn)
    have hne : front.drop n ≠ [] := by
      rw [Ne, List.drop_eq_nil_iff]
      omega
    simp only [symbolOf?, htake, hdrop, List.head?_append_of_ne_nil _ hne]
    cases Symbol.ofText? (String.ofList (front.take n)) with
    | none => rfl
    | some sign =>
        simp only
        split <;> rfl
  · obtain ⟨b, hlast, hb⟩ := h.exists_getLast?
    have hmem := List.mem_of_getLast? hlast
    rw [symbolOf?_of_blank hb, symbolOf?_of_blank hb]
    · rfl
    · rw [List.take_of_length_le hn]
      exact hmem
    · rw [List.take_append, List.take_of_length_le hn]
      exact List.mem_append_left _ hmem

theorem symbol?_append {front : List Char} (h : EndsBlank front) (mode : Mode)
    (tail : List Char) :
    symbol? mode (front ++ tail) =
      (symbol? mode front).map fun found => (found.1, found.2 ++ tail) := by
  simp only [symbol?, symbolOf?_append h mode tail]
  exact List.map_findSome?.symm

/-! ## The first thing in a text -/

theorem blockComment_taken {cs rest : List Char} (h : blockComment cs = some rest) :
    ∃ taken, cs = taken ++ rest ∧ taken ≠ [] ∧
      ∀ after, blockComment (taken ++ after) = some after := by
  fun_induction blockComment cs with
  | case1 => cases h
  | case2 rest' =>
      cases h
      exact ⟨['*', '/'], rfl, by simp, fun _ => rfl⟩
  | case3 c cs hclose ih =>
      obtain ⟨taken, rfl, hne, hagain⟩ := ih h
      obtain ⟨d, taken, rfl⟩ := List.exists_cons_of_ne_nil hne
      refine ⟨c :: d :: taken, rfl, by simp, fun after => ?_⟩
      rw [List.cons_append, blockComment, hagain]
      intro behind hc hbehind
      exact hclose (taken ++ rest) hc (by rw [List.cons_append, (List.cons.inj hbehind).1])

theorem regexBody_getLast? {cs text rest : List Char} (h : regexBody cs = .ok (text, rest)) :
    text.getLast? = some '/' := by
  fun_induction regexBody cs generalizing text with
  | case1 | case2 | case4 => cases h
  | case3 c cs ih | case6 c cs _ _ _ _ ih =>
      obtain ⟨text, htext, rfl⟩ := Found.prepend_eq_ok h
      rw [List.getLast?_append, ih htext]
      rfl
  | case5 =>
      cases h
      rfl

theorem name_append {front : List Char} (tail : List Char) (h : EndsBlank front) :
    name (front ++ tail) = ((name front).1, (name front).2 ++ tail) := by
  have hp : ∀ b, Text.isBlank b → isNamePart b = false := by
    intro b hb
    simp [isNamePart, Text.isAlphanum_of_isBlank hb, Text.ne_of_isBlank (c := '_') hb rfl,
      Text.ne_of_isBlank (c := '$') hb rfl]
  simp only [name, h.takeWhile_append hp, h.dropWhile_append hp]

theorem regex_append {cs tail rest : List Char} {lexeme : Lexeme} (hcs : EndsBlank cs)
    (h : regex (cs ++ tail) = .ok (lexeme, rest ++ tail)) (tail' : List Char) :
    regex (cs ++ tail') = .ok (lexeme, rest ++ tail') := by
  have hp : ∀ b, Text.isBlank b → b.isAlpha = false := by
    intro b hb
    have halphanum := Text.isAlphanum_of_isBlank hb
    rw [Char.isAlphanum, Bool.or_eq_false_iff] at halphanum
    exact halphanum.1
  obtain ⟨body, behind, hbody, hrest, rfl⟩ := regex_eq_ok h
  obtain ⟨htaken, hagain⟩ := regexBody_taken hbody
  obtain ⟨flags, hflags⟩ := List.dropWhile_suffix (l := behind) Char.isAlpha
  rw [← hrest, ← List.append_assoc] at hflags
  obtain ⟨ws, rfl⟩ : ∃ ws, behind = ws ++ tail := ⟨_, hflags.symm⟩
  rw [← List.append_assoc] at htaken
  obtain rfl := List.append_cancel_right htaken
  rcases hcs.of_append with rfl | hws
  · -- the last character of the body is its slash, not the blank
    obtain ⟨b, hlast, hb⟩ := hcs.exists_getLast?
    rw [List.append_nil, regexBody_getLast? hbody] at hlast
    cases hlast
    cases hb
  · rw [hws.dropWhile_append hp] at hrest
    simp only [regex, List.append_assoc, hagain, hws.takeWhile_append hp, hws.dropWhile_append hp,
      List.append_cancel_right hrest]

theorem StartsSign.of_head? {mode : Mode} {c : Char} {cs ds : List Char}
    (h : StartsSign mode c cs) (hhead : ds.head? = cs.head?) : StartsSign mode c ds :=
  { h with
    not_number := by
      unfold StartsNumber
      rw [hhead]
      exact h.not_number
    not_comment := by
      rw [hhead]
      exact h.not_comment }

/-- What comes first in a text does not depend on what stands behind a later blank. -/
theorem next_append {mode : Mode} {c d : Char} {cs tail rest : List Char} {first : Option Lexeme}
    (hcs : EndsBlank (c :: cs)) (hd : d ≠ '\n')
    (h : next mode c (cs ++ d :: tail) = .ok (first, rest ++ d :: tail)) (tail' : List Char) :
    next mode c (cs ++ tail') = .ok (first, rest ++ tail') := by
  have hfirst := first_next mode c (cs ++ d :: tail)
  rw [h] at hfirst
  generalize hfound : (.ok (first, rest ++ d :: tail) : Found (Option Lexeme)) = found at hfirst
  cases hfirst with
  | openComment _ _ _ _ | unexpected _ _ => cases hfound
  | blank hc =>
      obtain ⟨rfl, hrest⟩ := Prod.mk.inj (Except.ok.inj hfound)
      rw [List.append_cancel_right hrest]
      exact (First.blank hc).next_eq
  | line hc =>
      obtain ⟨rfl, hrest⟩ := Prod.mk.inj (Except.ok.inj hfound)
      rw [lineComment, List.dropWhile_append] at hrest
      split at hrest
      · -- the comment would go on behind the blank
        have hle := (List.dropWhile_suffix (l := tail) fun e => decide (e ≠ '\n')).length_le
        have hlength := congrArg List.length hrest
        simp [hd] at hlength hle
        omega
      · next hline =>
          rw [(First.line hc).next_eq, lineComment, List.dropWhile_append, if_neg hline,
            List.append_cancel_right hrest]
  | number hc hblank =>
      have hend := hcs.tail_of_not_blank hblank
      obtain ⟨lexeme, hscan, rfl⟩ := Found.token_eq_ok hfound.symm
      rw [← List.cons_append, number_append _ hcs] at hscan
      have hstart : StartsNumber mode c (cs ++ tail') := by
        unfold StartsNumber at hc ⊢
        rwa [hend.head?_append] at hc ⊢
      rw [(First.number hstart hblank).next_eq, ← List.cons_append, number_append _ hcs,
        Found.extend_eq_ok hscan]
      rfl
  | name hc hblank hdigit =>
      obtain ⟨rfl, hrest⟩ := Prod.mk.inj (Except.ok.inj hfound)
      rw [← List.cons_append, name_append _ hcs] at hrest ⊢
      rw [(First.name hc hblank hdigit).next_eq, ← List.cons_append, name_append _ hcs,
        List.append_cancel_right hrest]
  | regex hc hmode =>
      obtain ⟨lexeme, hscan, rfl⟩ := Found.token_eq_ok hfound.symm
      have hend := hcs.tail_of_not_blank (by rw [hc]; decide)
      rw [(First.regex hc hmode).next_eq, regex_append hend hscan]
      rfl
  | comment hc hmode hhead hclosed =>
      obtain ⟨rfl, rfl⟩ := Prod.mk.inj (Except.ok.inj hfound)
      have hend := hcs.tail_of_not_blank (by rw [hc]; decide)
      obtain ⟨body, rfl⟩ := List.head?_eq_some_iff.mp ((hend.head?_append _).symm.trans hhead)
      obtain ⟨taken, htaken, -, hagain⟩ := blockComment_taken hclosed
      rw [← List.append_assoc] at htaken
      refine (First.comment hc hmode rfl ?_).next_eq
      rw [List.cons_append, List.tail_cons, List.append_cancel_right htaken, List.append_assoc,
        hagain]
  | string hc =>
      obtain ⟨lexeme, hscan, rfl⟩ := Found.token_eq_ok hfound.symm
      obtain ⟨text, htext, rfl⟩ := Found.lexeme_eq_ok hscan
      obtain ⟨taken, htaken, -, hagain⟩ := template_taken htext
      rw [← List.append_assoc] at htaken
      rw [(First.string hc).next_eq, List.append_cancel_right htaken, List.append_assoc, hagain]
      rfl
  | symbol hc hsign =>
      obtain ⟨rfl, rfl⟩ := Prod.mk.inj (Except.ok.inj hfound)
      have hend := hcs.tail_of_not_blank hc.not_blank
      rw [← List.cons_append, symbol?_append hcs] at hsign
      obtain ⟨⟨lexeme', rest'⟩, hsame, heq⟩ := Option.map_eq_some_iff.mp hsign
      obtain ⟨rfl, hrest⟩ := Prod.mk.inj heq
      refine (First.symbol (hc.of_head? ?_) ?_).next_eq
      · rw [hend.head?_append, hend.head?_append]
      · rw [← List.cons_append, symbol?_append hcs, hsame, ← List.append_cancel_right hrest]
        rfl

/-! ## The whole text -/

def Mode.behind (mode : Mode) (tokens : List Token) : Mode :=
  tokens.foldl (fun _ t => Mode.after t.kind) mode

theorem Mode.behind_eq_value {before : List Token}
    (h : ∀ p, before.getLast? = some p → ∃ sign, p.kind = .symbol sign ∧ sign.closes = false) :
    Mode.value.behind before = .value := by
  rcases List.eq_nil_or_concat before with rfl | ⟨before, p, rfl⟩
  · rfl
  · obtain ⟨sign, hkind, hopen⟩ := h p (by simp)
    rw [Mode.behind, List.concat_eq_append, List.foldl_append, List.foldl_cons, List.foldl_nil,
      hkind, Mode.after, if_neg (by simp [hopen])]

theorem Cut.start_le {source : Source} {mode : Mode} {place : Place} {cs : List Char}
    {result : Except Diagnostic (List Token)} {tokens : List Token}
    (h : Cut source mode place cs result) (hresult : result = .ok tokens) :
    ∀ t ∈ tokens, place.offset ≤ t.span.start := by
  induction h generalizing tokens with
  | finish =>
      cases hresult
      simp [tokenAt]
  | skip _ _ ih =>
      intro t ht
      have hle := ih hresult t ht
      rw [Place.offset_advance] at hle
      omega
  | @token _ place _ _ _ _ result _ _ ih =>
      cases result with
      | error fault => cases hresult
      | ok ts =>
          cases hresult
          refine List.forall_mem_cons.mpr ⟨Nat.le_refl _, fun t ht => ?_⟩
          have hle := ih rfl t ht
          rw [Place.offset_advance] at hle
          omega
  | fault => cases hresult

/-- A text is cut into the same tokens wherever it stands. -/
theorem Cut.moved {source : Source} {mode : Mode} {place : Place} {cs : List Char}
    {result : Except Diagnostic (List Token)} {tokens : List Token}
    (h : Cut source mode place cs result) (hresult : result = .ok tokens) (source' : Source)
    (place' : Place) :
    ∃ tokens', Cut source' mode place' cs (.ok tokens') ∧
      List.Forall₂ (Token.Like Anywhere) tokens tokens' := by
  induction h generalizing tokens place' with
  | finish =>
      cases hresult
      exact ⟨_, .finish, .cons ⟨rfl, rfl, trivial⟩ .nil⟩
  | @skip _ _ c body _ _ hnext _ ih =>
      obtain ⟨ts', hcut, hts'⟩ := ih hresult (place'.advance (c :: body))
      exact ⟨ts', .skip hnext hcut, hts'⟩
  | @token _ _ c body _ _ result hnext _ ih =>
      cases result with
      | error fault => cases hresult
      | ok ts =>
          cases hresult
          obtain ⟨ts', hcut, hts'⟩ := ih rfl (place'.advance (c :: body))
          exact ⟨_, .token hnext hcut, .cons ⟨rfl, rfl, trivial⟩ hts'⟩
  | fault => cases hresult

/-- The zero before its point makes no difference to a number. -/
theorem next_point {d : Char} (hd : d.isDigit) (more : List Char) :
    next .value '.' (d :: more) = next .value '0' ('.' :: d :: more) := by
  have hpoint : StartsNumber .value '.' (d :: more) := Or.inr ⟨rfl, rfl, hd⟩
  have hzero : StartsNumber .value '0' ('.' :: d :: more) := Or.inl rfl
  have hpointed : ∀ begun, decimal false begun ('.' :: d :: more) =
      Found.prepend (if begun then ['.'] else ['0', '.']) (decimal true true (d :: more)) := by
    intro begun
    rw [decimal, if_neg (by decide), if_neg (by decide), if_pos ⟨rfl, hd⟩, if_neg (by decide)]
  have hsame : decimal false false ('0' :: '.' :: d :: more) =
      decimal false false ('.' :: d :: more) := by
    rw [decimal, if_neg (by decide), if_pos (by decide), hpointed, hpointed, Found.prepend_prepend]
    rfl
  rw [(First.number hpoint (by decide)).next_eq, (First.number hzero (by decide)).next_eq,
    number_of_decimal rfl, number_of_decimal rfl, hsame]

/-- One step in the text before the zero can be taken without the zero as well. -/
theorem next_before_zero {mode : Mode} {c : Char} {body rest front tail : List Char}
    {first : Option Lexeme} (hnext : next mode c (body ++ rest) = .ok (first, rest))
    (hcs : c :: body ++ rest = front ++ '0' :: tail) (hfront : front = [] ∨ EndsBlank front)
    (hle : (c :: body).length ≤ front.length) :
    ∃ gap, front = c :: body ++ gap ∧ rest = gap ++ '0' :: tail ∧ (gap = [] ∨ EndsBlank gap) ∧
      ∀ tail', next mode c (body ++ (gap ++ tail')) = .ok (first, gap ++ tail') := by
  obtain ⟨gap, rfl⟩ : c :: body <+: front :=
    List.prefix_of_prefix_length_le ⟨rest, rfl⟩ ⟨'0' :: tail, hcs.symm⟩ hle
  rw [List.append_assoc] at hcs
  obtain rfl := List.append_cancel_left hcs
  rcases hfront with hnil | hfront
  · simp at hnil
  · refine ⟨gap, rfl, rfl, hfront.of_append, fun tail' => ?_⟩
    rw [← List.append_assoc] at hnext ⊢
    exact next_append hfront (by decide) hnext tail'

/-- What comes of a text without the zero, if the text before it ends in a blank and a value is
expected there. -/
theorem Cut.without_zero {source : Source} {mode : Mode} {place : Place} {cs : List Char}
    {result : Except Diagnostic (List Token)} (h : Cut source mode place cs result)
    {before behind : List Token} {t : Token} (hresult : result = .ok (before ++ t :: behind))
    {front more : List Char} {d : Char} (hcs : cs = front ++ '0' :: '.' :: d :: more)
    (hfront : front = [] ∨ EndsBlank front) (hd : d.isDigit)
    (ht : t.span.start = place.offset + front.length) (hmode : mode.behind before = .value)
    (source' : Source) (place' : Place) :
    ∃ tokens', Cut source' mode place' (front ++ '.' :: d :: more) (.ok tokens') ∧
      List.Forall₂ (Token.Like Anywhere) (before ++ t :: behind) tokens' := by
  induction h generalizing before front place' with
  | finish => simp at hcs
  | @skip mode place c body rest result hnext hrest ih =>
      have hle := hrest.start_le hresult t (by simp)
      rw [Place.offset_advance, ht] at hle
      obtain ⟨gap, rfl, rfl, hgap, hagain⟩ := next_before_zero hnext hcs hfront (by omega)
      obtain ⟨tokens', hcut, htokens'⟩ := ih hresult rfl hgap
        (by simp only [ht, Place.offset_advance, List.length_append]; omega) hmode
        (place'.advance (c :: body))
      rw [List.append_assoc]
      exact ⟨tokens', .skip (hagain _) hcut, htokens'⟩
  | @token mode place c body rest lexeme result hnext hrest ih =>
      cases result with
      | error fault => cases hresult
      | ok ts =>
          have hts := Except.ok.inj hresult
          cases before with
          | nil =>
              -- the number itself: the zero is its first character
              obtain ⟨rfl, rfl⟩ := List.cons.inj hts
              obtain rfl : front = [] := by simpa [tokenAt] using ht
              rw [List.nil_append, List.cons_append] at hcs
              obtain ⟨rfl, hbody⟩ := List.cons.inj hcs
              obtain rfl : mode = .value := hmode
              rw [hbody, ← next_point hd] at hnext
              obtain ⟨body', hbody', -⟩ := next_taken hnext
              obtain ⟨ts', hcut, hts'⟩ := hrest.moved rfl source' (place'.advance ('.' :: body'))
              rw [hbody'] at hnext ⊢
              exact ⟨_, .token hnext hcut, .cons ⟨rfl, rfl, trivial⟩ hts'⟩
          | cons u before =>
              obtain ⟨rfl, rfl⟩ := List.cons.inj hts
              have hle := hrest.start_le rfl t (by simp)
              rw [Place.offset_advance, ht] at hle
              obtain ⟨gap, rfl, rfl, hgap, hagain⟩ := next_before_zero hnext hcs hfront (by omega)
              obtain ⟨tokens', hcut, htokens'⟩ := ih rfl rfl hgap
                (by simp only [ht, Place.offset_advance, List.length_append]; omega) hmode
                (place'.advance (c :: body))
              rw [List.append_assoc]
              exact ⟨_, .token (hagain _) hcut, .cons ⟨rfl, rfl, trivial⟩ htokens'⟩
  | fault => cases hresult

end ClassScript.Scan

namespace ClassScript

/-- The zero before the point of a number can be left out behind a blank, if the number is the first
token or the token before it is an operator or a mark that closes nothing: the text has the same
tokens but for their places, and the same program. -/
theorem parse_without_zero {text file : String} {before behind : List Token} {t : Token}
    {program : List Stmt} (htokens : tokenize text file = .ok (before ++ t :: behind))
    (hparse : parse (before ++ t :: behind) = .ok program) (hkind : t.kind = .number) {d : Char}
    {ds : List Char} (hslice : t.span.slice text.toList = '0' :: '.' :: d :: ds) (hd : d.isDigit)
    (hblank : Scan.EndsBlank (text.toList.take t.span.start))
    (hbefore : ∀ p, before.getLast? = some p →
      ∃ sign, p.kind = .symbol sign ∧ sign.closes = false) :
    ∃ tokens', tokenize (String.ofList (text.toList.eraseIdx t.span.start)) file = .ok tokens' ∧
      tokens'.map (fun t => (t.kind, t.value)) =
        (before ++ t :: behind).map (fun t => (t.kind, t.value)) ∧
      parse tokens' = .ok program := by
  have hinside := (tokenize_lossless htokens).nonempty t (by simp) (by simp [hkind])
  have hdrop : text.toList.drop t.span.start =
      '0' :: '.' :: d :: (ds ++ text.toList.drop t.span.stop) := by
    rw [← Span.slice_append_drop (Nat.le_of_lt hinside.1), hslice]
    rfl
  have htext := (List.take_append_drop t.span.start text.toList).symm
  rw [hdrop] at htext
  have hlength : (text.toList.take t.span.start).length = t.span.start := by
    rw [List.length_take]
    omega
  obtain ⟨tokens', hcut, halike⟩ := (cut_tokenize text file).without_zero htokens htext
    (.inr hblank) hd (by rw [hlength]; exact (Nat.zero_add _).symm)
    (Scan.Mode.behind_eq_value hbefore)
    (Source.ofText file (text.toList.eraseIdx t.span.start)) {}
  have herased : text.toList.eraseIdx t.span.start = text.toList.take t.span.start ++
      '.' :: d :: (ds ++ text.toList.drop t.span.stop) := by
    rw [List.eraseIdx_eq_take_drop_succ, ← List.tail_drop, hdrop, List.tail_cons]
  refine ⟨tokens', ?_, (map_eq_of_like Prod.mk halike).symm, ?_⟩
  · rw [tokenize, String.toList_ofList]
    rw [← herased] at hcut
    exact hcut.tokensFrom_eq (Nat.le_refl _)
  · have hsame := parse_same halike (last_of_tokenize htokens)
    rw [hparse] at hsame
    generalize parse tokens' = result at hsame
    cases hsame
    rfl

/-- The token with a number, found by running the tokenizer and the parser. -/
theorem exists_token_of_run (text file : String) (n : Nat) (kind : Kind) (span : Span)
    (last : Option Kind)
    (h : (tokenize text file).toOption.map (fun tokens =>
      (tokens[n]?.map (fun t => (t.kind, t.span)), (tokens.take n).getLast?.map Token.kind,
        (parse tokens).toOption.isSome)) = some (some (kind, span), last, true)) :
    ∃ before t behind program, tokenize text file = .ok (before ++ t :: behind) ∧
      parse (before ++ t :: behind) = .ok program ∧ t.kind = kind ∧ t.span = span ∧
      before.getLast?.map Token.kind = last := by
  cases htokens : tokenize text file with
  | error fault =>
      rw [htokens] at h
      cases h
  | ok tokens =>
      rw [htokens] at h
      obtain ⟨hat, hrest⟩ := Prod.mk.inj (Option.some.inj h)
      obtain ⟨hlast, hparse⟩ := Prod.mk.inj hrest
      obtain ⟨t, ht, heq⟩ := Option.map_eq_some_iff.mp hat
      obtain ⟨hkind, hspan⟩ := Prod.mk.inj heq
      obtain ⟨hn, rfl⟩ := List.getElem?_eq_some_iff.mp ht
      have hsplit : tokens = tokens.take n ++ tokens[n] :: tokens.drop (n + 1) := by
        rw [← List.drop_eq_getElem_cons, List.take_append_drop]
      cases hprogram : parse tokens with
      | error fault =>
          rw [hprogram] at hparse
          cases hparse
      | ok program =>
          exact ⟨tokens.take n, tokens[n], tokens.drop (n + 1), program, by rw [← hsplit],
            by rw [← hsplit, hprogram], hkind, hspan, hlast⟩

/-- The zero is left out behind an operator, with a comment before it. -/
theorem parse_without_zero_halved : ∃ before t behind program tokens',
    tokenize "x = y /* half */ * 0.5_0" "main" = .ok (before ++ t :: behind) ∧
    parse (before ++ t :: behind) = .ok program ∧ t.kind = .number ∧
    t.span.slice "x = y /* half */ * 0.5_0".toList = ['0', '.', '5', '_', '0'] ∧
    before.getLast?.map Token.kind = some (.symbol .star) ∧
    tokenize "x = y /* half */ * .5_0" "main" = .ok tokens' ∧ parse tokens' = .ok program := by
  obtain ⟨before, t, behind, program, htokens, hparse, hkind, hspan, hlast⟩ :=
    exists_token_of_run "x = y /* half */ * 0.5_0" "main" 4 .number ⟨19, 24⟩
      (some (.symbol .star)) (by decide +kernel)
  have hslice : t.span.slice "x = y /* half */ * 0.5_0".toList = ['0', '.', '5', '_', '0'] := by
    rw [hspan]
    decide
  have hblank : Scan.EndsBlank ("x = y /* half */ * 0.5_0".toList.take t.span.start) := by
    rw [hspan]
    decide
  have hbefore : ∀ p, before.getLast? = some p → ∃ sign, p.kind = .symbol sign ∧
      sign.closes = false := by
    intro p hp
    rw [hp] at hlast
    exact ⟨.star, Option.some.inj hlast, rfl⟩
  obtain ⟨tokens', htokens', -, hparse'⟩ :=
    parse_without_zero htokens hparse hkind hslice (by decide) hblank hbefore
  rw [hspan] at htokens'
  exact ⟨before, t, behind, program, tokens', htokens, hparse, hkind, hslice, hlast, htokens',
    hparse'⟩

/-- A number can stand behind a closing bracket, and it needs its zero there. -/
theorem parse_behind_bracket :
    (∃ before t behind program,
      tokenize "if (true) 0.5" "main" = .ok (before ++ t :: behind) ∧
      parse (before ++ t :: behind) = .ok program ∧ t.kind = .number ∧
      t.span.slice "if (true) 0.5".toList = ['0', '.', '5'] ∧
      Scan.EndsBlank ("if (true) 0.5".toList.take t.span.start) ∧
      "if (true) 0.5".toList.eraseIdx t.span.start = "if (true) .5".toList) ∧
    ∀ program, (tokenize "if (true) .5" "main" >>= parse) ≠ .ok program := by
  constructor
  · obtain ⟨before, t, behind, program, htokens, hparse, hkind, hspan, -⟩ :=
      exists_token_of_run "if (true) 0.5" "main" 4 .number ⟨10, 13⟩ (some (.symbol .rParen))
        (by decide +kernel)
    refine ⟨before, t, behind, program, htokens, hparse, hkind, ?_, ?_, ?_⟩
    all_goals
      rw [hspan]
      decide
  · intro program heq
    have hnone : (tokenize "if (true) .5" "main" >>= parse).toOption.isSome = false := by
      decide +kernel
    rw [heq] at hnone
    cases hnone

end ClassScript
