import ClassScript.Proofs.LeadingPoints
import ClassScript.Proofs.PlainLiterals
import ClassScript.Proofs.TypeGrammar
import Mathlib.Data.List.TakeWhile

/-!
# Types are read back from their text

A type is written with its arguments before its name, so that a row of opening signs can come first.
The scanner takes two of them for one sign; the parser takes that sign apart again. Whatever the
depth of a type, a declaration with its text declares a variable of that type.
-/

namespace ClassScript

namespace Scan

/-! ## The longest sign -/

/-- The characters that make a longer sign, or the beginning of one, of a text. A sign with letters
counts only where an operator is expected. -/
def followers (mode : Mode) (text : List Char) : List Char :=
  Symbol.spellings.filterMap fun entry =>
    if entry.2.isWordy && mode == .value then none
    else if text.isPrefixOf entry.1.toList then entry.1.toList[text.length]?
    else none

theorem mem_spellings_of_ofText? {text : List Char} {sign : Symbol}
    (h : Symbol.ofText? (String.ofList text) = some sign) :
    (String.ofList text, sign) ∈ Symbol.spellings := by
  obtain ⟨before, behind, hspellings, -⟩ := List.lookup_eq_some_iff.mp h
  rw [hspellings]
  exact List.mem_append_right _ List.mem_cons_self

theorem length_of_ofText? {text : List Char} {sign : Symbol}
    (h : Symbol.ofText? (String.ofList text) = some sign) :
    1 ≤ text.length ∧ text.length ≤ Symbol.longest := by
  have hall : Symbol.spellings.all fun entry =>
      1 ≤ entry.1.toList.length && entry.1.toList.length ≤ Symbol.longest := by decide +kernel
  simpa using List.all_eq_true.mp hall _ (mem_spellings_of_ofText? h)

/-- A sign is taken whole when the character behind it does not go on with it. -/
theorem symbol?_of_longest {mode : Mode} (text : List Char) {rest : List Char} {sign : Symbol}
    (htext : Symbol.ofText? (String.ofList text) = some sign) (hplain : sign.isWordy = false)
    (hrest : ∀ d ∈ rest.head?, d ∉ followers mode text) :
    symbol? mode (text ++ rest) = some (⟨.symbol sign, String.ofList text⟩, rest) := by
  obtain ⟨hpos, hlongest⟩ := length_of_ofText? htext
  have hexact : ∀ n, (text ++ rest).take n = text → (text ++ rest).drop n = rest →
      symbolOf? mode (text ++ rest) n = some (⟨.symbol sign, String.ofList text⟩, rest) := by
    intro n htake hdrop
    refine symbolOf?_eq_some_iff.mpr ⟨sign, ?_, ?_, ?_, hdrop.symm⟩
    · rw [htake]
      exact htext
    · simp [hplain]
    · rw [htake]
  have hwhole : symbolOf? mode (text ++ rest) (text.length - 1 + 1) =
      some (⟨.symbol sign, String.ofList text⟩, rest) := by
    rw [Nat.sub_add_cancel hpos]
    exact hexact _ (by simp) (by simp)
  refine findSome?_range (show text.length - 1 < Symbol.longest by omega) hwhole fun n hn => ?_
  cases rest with
  | nil =>
      have hle : text.length ≤ n + 1 := by omega
      exact Or.inr (hexact _ (by simp [List.take_of_length_le hle]) (by simp [hle]))
  | cons d rest =>
      rcases Nat.eq_or_lt_of_le hn with rfl | hlt
      · exact Or.inr hwhole
      -- a longer text would go on with the character
      refine Or.inl (Option.eq_none_iff_forall_ne_some.mpr fun found hfound => ?_)
      obtain ⟨sign', hsign', hwordy, -⟩ := symbolOf?_eq_some_iff.mp hfound
      obtain ⟨k, hk⟩ : ∃ k, n + 1 = text.length + (k + 1) := ⟨n - text.length, by omega⟩
      have htake : (text ++ d :: rest).take (n + 1) = text ++ d :: rest.take k := by
        rw [hk, List.take_length_add_append, List.take_succ_cons]
      rw [htake] at hsign'
      refine hrest d rfl (List.mem_filterMap.mpr ⟨_, mem_spellings_of_ofText? hsign', ?_⟩)
      have hvalue : (sign'.isWordy && mode == .value) = false := by
        cases hw : sign'.isWordy with
        | false => rfl
        | true => simpa using (hwordy hw).1
      simp [hvalue]

theorem startsSign_of_mem {mode : Mode} {c : Char} {cs : List Char}
    (hc : c ∈ ['<', '>', ',', '?', ':']) : StartsSign mode c cs := by
  simp only [List.mem_cons, List.not_mem_nil, or_false] at hc
  rcases hc with rfl | rfl | rfl | rfl | rfl
  all_goals
    exact ⟨by decide, by decide, by simp [StartsNumber], by decide, by simp, by simp, by decide⟩

theorem next_of_longest {mode : Mode} (c : Char) (body : List Char) {rest : List Char}
    {sign : Symbol} (hc : c ∈ ['<', '>', ',', '?', ':'])
    (htext : Symbol.ofText? (String.ofList (c :: body)) = some sign) (hplain : sign.isWordy = false)
    (hrest : ∀ d ∈ rest.head?, d ∉ followers mode (c :: body)) :
    next mode c (body ++ rest) = .ok (some ⟨.symbol sign, String.ofList (c :: body)⟩, rest) := by
  have hlongest := symbol?_of_longest (c :: body) htext hplain hrest
  exact (First.symbol (startsSign_of_mem hc) hlongest).next_eq

/-! ## Names -/

def isName (text : String) : Bool :=
  match text.toList with
  | [] => false
  | c :: cs => isNameStart c && cs.all isNamePart && (Keyword.ofText? text).isNone

theorem not_isBlank_of_isNameStart {c : Char} (h : isNameStart c) : ¬ Text.isBlank c := by
  intro hblank
  have hpart := isNamePart_of_isNameStart h
  simp [isNamePart, Text.isAlphanum_of_isBlank hblank, Text.ne_of_isBlank (c := '_') hblank rfl,
    Text.ne_of_isBlank (c := '$') hblank rfl] at hpart

theorem not_isDigit_of_isNameStart {c : Char} (h : isNameStart c) : ¬ c.isDigit := by
  intro hdigit
  have hrange : 48 ≤ c.toNat ∧ c.toNat ≤ 57 := by
    change (decide (c.val ≥ 48) && decide (c.val ≤ 57)) = true at hdigit
    simpa [UInt32.le_iff_toNat_le] using hdigit
  change (((decide (c.val ≥ 65 ∧ c.val ≤ 90) || (decide (c.val ≥ 97) && decide (c.val ≤ 122))) ||
    c == '_') || c == '$') = true at h
  simp only [Bool.or_eq_true, Bool.and_eq_true, decide_eq_true_eq, beq_iff_eq, ge_iff_le,
    UInt32.le_iff_toNat_le] at h
  rcases h with (h | rfl) | rfl
  · simp at h
    omega
  · exact absurd hrange (by decide)
  · exact absurd hrange (by decide)

/-- A word is taken whole when no name goes on behind it. -/
theorem next_of_word {mode : Mode} {c : Char} {body rest : List Char} (hc : isNameStart c)
    (hbody : ∀ d ∈ body, isNamePart d) (hrest : ∀ d ∈ rest.head?, ¬ isNamePart d) :
    next mode c (body ++ rest) = .ok (some (name (c :: body)).1, rest) := by
  have hword : ∀ d ∈ c :: body, isNamePart d :=
    List.forall_mem_cons.mpr ⟨isNamePart_of_isNameStart hc, hbody⟩
  have hstop : rest.takeWhile isNamePart = [] ∧ rest.dropWhile isNamePart = rest := by
    cases rest with
    | nil => exact ⟨rfl, rfl⟩
    | cons d rest => simp [hrest d rfl]
  have htake : (c :: body ++ rest).takeWhile isNamePart = (c :: body).takeWhile isNamePart := by
    rw [List.takeWhile_append_of_pos hword, hstop.1, List.append_nil,
      List.takeWhile_eq_self_iff.mpr hword]
  have hdrop : (c :: body ++ rest).dropWhile isNamePart = rest := by
    rw [List.dropWhile_append_of_pos hword, hstop.2]
  rw [(First.name hc (not_isBlank_of_isNameStart hc) (not_isDigit_of_isNameStart hc)).next_eq,
    ← List.cons_append]
  simp only [name, htake, hdrop]

end Scan

/-! ## The words and signs of a type -/

inductive Piece where
  | question | opening | closing | comma
  | name (text : String)

namespace Piece

def kind : Piece → Kind
  | .question => .symbol .question
  | .opening => .symbol .lt
  | .closing => .symbol .gt
  | .comma => .symbol .comma
  | .name _ => .identifier

def value : Piece → String
  | .question => "?"
  | .opening => "<"
  | .closing => ">"
  | .comma => ","
  | .name text => text

/-- The characters of a piece; there is a blank behind a comma. -/
def chars : Piece → List Char
  | .question => ['?']
  | .opening => ['<']
  | .closing => ['>']
  | .comma => [',', ' ']
  | .name text => text.toList

def isProper : Piece → Bool
  | .name text => Scan.isName text
  | _ => true

/-- Whether a piece can stand directly before another. -/
def meets : Piece → Piece → Bool
  | .name _, .closing | .name _, .comma | .closing, .name _ => true
  | .question, .opening | .question, .name _ => true
  | .opening, .question | .opening, .opening | .opening, .name _ => true
  | .comma, .question | .comma, .opening | .comma, .name _ => true
  | _, _ => false

def endsAt : Piece → Char → Bool
  | .name _, d => !Scan.isNamePart d
  | .comma, _ => true
  | .question, d => d ≠ '.' && d ≠ '?'
  | .opening, d => d ≠ '=' && d ≠ '<'
  | .closing, d => d ≠ '=' && d ≠ '>'

end Piece

namespace Scan

theorem exists_of_isName {text : String} (h : isName text) :
    ∃ c body, text.toList = c :: body ∧ isNameStart c ∧ (∀ d ∈ body, isNamePart d) ∧
      Keyword.ofText? text = none := by
  unfold isName at h
  cases htext : text.toList with
  | nil => simp [htext] at h
  | cons c body =>
      simp only [htext, Bool.and_eq_true, List.all_eq_true, Option.isNone_iff_eq_none] at h
      exact ⟨c, body, rfl, h.1.1, h.1.2, h.2⟩

/-- A piece is one token. A question mark is one where a value is expected. -/
theorem next_of_piece {mode : Mode} {piece : Piece} {rest : List Char} (hproper : piece.isProper)
    (hmode : piece = .question → mode = .value) (hrest : ∀ d ∈ rest.head?, piece.endsAt d) :
    ∃ c body, piece.value.toList = c :: body ∧
      next mode c (body ++ rest) = .ok (some ⟨piece.kind, piece.value⟩, rest) := by
  cases piece with
  | name text =>
      obtain ⟨c, body, htext, hc, hbody, hword⟩ := exists_of_isName hproper
      refine ⟨c, body, htext, ?_⟩
      rw [next_of_word hc hbody (by simpa [Piece.endsAt] using hrest)]
      have htake : (c :: body).takeWhile isNamePart = c :: body :=
        List.takeWhile_eq_self_iff.mpr
          (List.forall_mem_cons.mpr ⟨isNamePart_of_isNameStart hc, hbody⟩)
      have hvalue : String.ofList (c :: body) = text := by rw [← htext, String.ofList_toList]
      simp only [name, htake, hvalue, hword, Piece.kind, Piece.value]
  | question =>
      obtain rfl := hmode rfl
      have hfollowers : followers .value ['?'] = ['.', '?', '?'] := by decide +kernel
      refine ⟨'?', [], rfl, next_of_longest '?' [] (by decide) (by decide +kernel) rfl ?_⟩
      intro d hd
      simpa [hfollowers, Piece.endsAt] using hrest d hd
  | opening =>
      have hfollowers : followers mode ['<'] = ['=', '<', '<'] := by
        cases mode <;> decide +kernel
      refine ⟨'<', [], rfl, next_of_longest '<' [] (by decide) (by decide +kernel) rfl ?_⟩
      intro d hd
      simpa [hfollowers, Piece.endsAt] using hrest d hd
  | closing =>
      have hfollowers : followers mode ['>'] = ['=', '>', '>', '>', '>'] := by
        cases mode <;> decide +kernel
      refine ⟨'>', [], rfl, next_of_longest '>' [] (by decide) (by decide +kernel) rfl ?_⟩
      intro d hd
      simpa [hfollowers, Piece.endsAt] using hrest d hd
  | comma =>
      have hfollowers : followers mode [','] = [] := by cases mode <;> decide +kernel
      refine ⟨',', [], rfl, next_of_longest ',' [] (by decide) (by decide +kernel) rfl ?_⟩
      intro d _
      rw [hfollowers]
      exact List.not_mem_nil

/-- Two openings are one token, but for a third one. -/
theorem next_of_openings {mode : Mode} {rest : List Char} (hrest : ∀ d ∈ rest.head?, d ≠ '=') :
    next mode '<' (['<'] ++ rest) = .ok (some ⟨.symbol .shl, "<<"⟩, rest) := by
  have hfollowers : followers mode ['<', '<'] = ['='] := by cases mode <;> decide +kernel
  refine next_of_longest '<' ['<'] (by decide) (by decide +kernel) rfl fun d hd => ?_
  simpa [hfollowers] using hrest d hd

end Scan

namespace Piece

theorem exists_chars_eq {piece : Piece} (hproper : piece.isProper) :
    ∃ c cs, piece.chars = c :: cs := by
  cases piece with
  | name text =>
      obtain ⟨c, body, htext, -⟩ := Scan.exists_of_isName hproper
      exact ⟨c, body, htext⟩
  | question | opening | closing | comma => exact ⟨_, _, rfl⟩

/-- A piece ends where one begins that it can stand before; two openings are the exception. -/
theorem endsAt_of_meets {p q : Piece} (hmeets : p.meets q) (hproper : q.isProper)
    (hopenings : ¬ (p = .opening ∧ q = .opening)) {d : Char} (hd : d ∈ q.chars.head?) :
    p.endsAt d := by
  cases q with
  | name text =>
      obtain ⟨c, body, htext, hstart, -⟩ := Scan.exists_of_isName hproper
      simp only [chars, htext, List.head?_cons, Option.mem_some_iff] at hd
      subst hd
      have hne : ∀ x, ¬ Scan.isNameStart x → c ≠ x := fun x hx hcx => hx (hcx ▸ hstart)
      cases p with
      | name | comma => simp_all [meets, endsAt]
      | question => simp [endsAt, hne '.' (by decide), hne '?' (by decide)]
      | opening => simp [endsAt, hne '=' (by decide), hne '<' (by decide)]
      | closing => simp [endsAt, hne '=' (by decide), hne '>' (by decide)]
  | question | opening | closing | comma =>
      obtain rfl := Option.some.inj hd
      cases p <;> first | rfl | exact absurd ⟨rfl, rfl⟩ hopenings | cases hmeets

end Piece

namespace Scan

/-- Tokens that write pieces: one for each of them, except that one token may write two openings. -/
inductive Writes : List Token → List Piece → Prop
  | nil : Writes [] []
  | piece {t : Token} {ts : List Token} {p : Piece} {ps : List Piece} (hkind : t.kind = p.kind)
      (hvalue : t.value = p.value) (h : Writes ts ps) : Writes (t :: ts) (p :: ps)
  | openings {t : Token} {ts : List Token} {ps : List Piece} (hkind : t.kind = .symbol .shl)
      (h : Writes ts ps) : Writes (t :: ts) (.opening :: .opening :: ps)

/-- The pieces from a place on are cut into tokens that write them. -/
def CutsInto (source : Source) (mode : Mode) (place : Place) (ps : List Piece) : Prop :=
  ∃ ts finish, Cut source mode place (ps.flatMap Piece.chars) (.ok (ts ++ [finish])) ∧
    finish.kind = .finish ∧ Writes ts ps

theorem cutsInto_piece {source : Source} {mode : Mode} {place : Place} {p : Piece}
    {ps : List Piece} (hproper : p.isProper) (hmode : p = .question → mode = .value)
    (hrest : ∀ d ∈ (ps.flatMap Piece.chars).head?, p.endsAt d)
    (h : ∀ place, CutsInto source (Mode.after p.kind) place ps) :
    CutsInto source mode place (p :: ps) := by
  obtain ⟨ts, finish, hcut, hfinish, hwrites⟩ := h (place.advance p.chars)
  refine ⟨tokenAt source place (place.advance p.value.toList) ⟨p.kind, p.value⟩ :: ts, finish, ?_,
    hfinish, .piece rfl rfl hwrites⟩
  by_cases hcomma : p = .comma
  · subst hcomma
    obtain ⟨c, body, hvalue, hnext⟩ := next_of_piece hproper hmode
      (show ∀ d ∈ (' ' :: ps.flatMap Piece.chars).head?, Piece.comma.endsAt d from fun _ _ => rfl)
    obtain ⟨rfl, rfl⟩ : c = ',' ∧ body = [] := by simpa [Piece.value, eq_comm] using hvalue
    exact .token hnext hcut.blank
  · obtain ⟨c, body, hvalue, hnext⟩ := next_of_piece hproper hmode hrest
    have hchars : p.chars = c :: body := by
      cases p with
      | comma => exact absurd rfl hcomma
      | question | opening | closing | name => exact hvalue
    rw [hchars] at hcut
    rw [List.flatMap_cons, hchars, hvalue]
    exact .token hnext hcut

theorem cutsInto_openings {source : Source} {mode : Mode} {place : Place} {ps : List Piece}
    (hrest : ∀ d ∈ (ps.flatMap Piece.chars).head?, d ≠ '=')
    (h : ∀ place, CutsInto source .value place ps) :
    CutsInto source mode place (.opening :: .opening :: ps) := by
  obtain ⟨ts, finish, hcut, hfinish, hwrites⟩ := h (place.advance ['<', '<'])
  refine ⟨tokenAt source place (place.advance ['<', '<']) ⟨.symbol .shl, "<<"⟩ :: ts, finish, ?_,
    hfinish, .openings rfl hwrites⟩
  exact .token (next_of_openings hrest) hcut

end Scan

namespace Piece

abbrev Chain : List Piece → Prop :=
  List.IsChain fun p q => p.meets q

theorem head?_flatMap_chars {p : Piece} (hproper : p.isProper) (ps : List Piece) :
    ((p :: ps).flatMap chars).head? = p.chars.head? := by
  obtain ⟨c, cs, hchars⟩ := exists_chars_eq hproper
  simp [hchars]

theorem endsAt_of_chain {p : Piece} {ps : List Piece} (hchain : Chain (p :: ps))
    (hproper : ∀ q ∈ ps, q.isProper) (hopenings : ¬ (p = .opening ∧ ps.head? = some .opening))
    {d : Char} (hd : d ∈ (ps.flatMap chars).head?) : p.endsAt d := by
  cases ps with
  | nil => cases hd
  | cons q ps =>
      have hq : q.isProper := hproper q List.mem_cons_self
      rw [head?_flatMap_chars hq] at hd
      refine endsAt_of_meets (List.isChain_cons_cons.mp hchain).1 hq ?_ hd
      rintro ⟨rfl, rfl⟩
      exact hopenings ⟨rfl, rfl⟩

/-- No piece begins with an equals sign. -/
theorem ne_equals_of_mem_head? {ps : List Piece} (hproper : ∀ q ∈ ps, q.isProper) {d : Char}
    (hd : d ∈ (ps.flatMap chars).head?) : d ≠ '=' := by
  rintro rfl
  cases ps with
  | nil => cases hd
  | cons q ps =>
      rw [head?_flatMap_chars (hproper q List.mem_cons_self)] at hd
      cases q with
      | name text =>
          obtain ⟨c, body, htext, hstart, -⟩ :=
            Scan.exists_of_isName (hproper (.name text) List.mem_cons_self)
          simp only [chars, htext, List.head?_cons, Option.mem_some_iff] at hd
          subst hd
          exact absurd hstart (by decide)
      | question | opening | closing | comma => simp [chars] at hd

/-- A question mark stands where a value is expected. -/
theorem after_eq_value {p : Piece} (h : p.meets .question) : Scan.Mode.after p.kind = .value := by
  cases p <;> first | rfl | cases h

end Piece

namespace Scan

/-- Pieces that stand well beside each other are cut into tokens that write them, after a piece that
they can follow. -/
theorem cutsInto_of_chain {source : Source} {p : Piece} {ps : List Piece} (place : Place)
    (hchain : Piece.Chain (p :: ps)) (hproper : ∀ q ∈ ps, q.isProper) :
    CutsInto source (Mode.after p.kind) place ps := by
  match ps with
  | [] => exact ⟨[], _, .finish, rfl, .nil⟩
  | q :: ps =>
      obtain ⟨hmeets, hrest⟩ := List.isChain_cons_cons.mp hchain
      obtain ⟨hq, hps⟩ := List.forall_mem_cons.mp hproper
      by_cases hopenings : q = .opening ∧ ps.head? = some .opening
      · obtain ⟨rfl, hhead⟩ := hopenings
        obtain ⟨ps, rfl⟩ := List.head?_eq_some_iff.mp hhead
        obtain ⟨-, hps⟩ := List.forall_mem_cons.mp hps
        exact cutsInto_openings (fun d => Piece.ne_equals_of_mem_head? hps) fun place =>
          cutsInto_of_chain (p := .opening) place (List.isChain_cons_cons.mp hrest).2 hps
      · exact cutsInto_piece hq (fun hquestion => Piece.after_eq_value (hquestion ▸ hmeets))
          (fun d => Piece.endsAt_of_chain hrest hps hopenings)
          fun place => cutsInto_of_chain place hrest hps
termination_by ps.length

end Scan

namespace Ty

mutual

def allNames (test : String → Bool) : Ty → Bool
  | ⟨name, _, generics⟩ => test name && allNamesIn test generics

def allNamesIn (test : String → Bool) : List Ty → Bool
  | [] => true
  | t :: ts => allNames test t && allNamesIn test ts

end

mutual

def pieces : Ty → List Piece
  | ⟨name, nullable, generics⟩ =>
    let mark := if nullable then [Piece.question] else []
    match generics with
    | [] => mark ++ [.name name]
    | first :: others =>
      mark ++ .opening :: (pieces first ++ (piecesRest others ++ [.closing, .name name]))

def piecesRest : List Ty → List Piece
  | [] => []
  | t :: ts => .comma :: (pieces t ++ piecesRest ts)

end

mutual

theorem toList_text (t : Ty) : t.text.toList = t.pieces.flatMap Piece.chars := by
  obtain ⟨name, nullable, generics⟩ := t
  have hmark : (if nullable then "?" else "").toList =
      (if nullable then [Piece.question] else []).flatMap Piece.chars := by
    cases nullable <;> rfl
  match generics with
  | [] => simp [text, pieces, hmark, Piece.chars]
  | first :: others =>
      simp [text, pieces, hmark, Piece.chars, toList_text first, toList_textRest others]

theorem toList_textRest (ts : List Ty) :
    (textRest ts).toList = (piecesRest ts).flatMap Piece.chars := by
  match ts with
  | [] => rfl
  | t :: ts => simp [textRest, piecesRest, Piece.chars, toList_text t, toList_textRest ts]

end

mutual

theorem isProper_of_mem_pieces {t : Ty} (h : t.allNames Scan.isName) :
    ∀ p ∈ t.pieces, p.isProper := by
  obtain ⟨name, nullable, generics⟩ := t
  simp only [allNames, Bool.and_eq_true] at h
  have hmark : ∀ p ∈ if nullable then [Piece.question] else [], p.isProper := by
    cases nullable <;> simp [Piece.isProper]
  match generics with
  | [] =>
      simp only [pieces, List.forall_mem_append, List.forall_mem_singleton]
      exact ⟨hmark, h.1⟩
  | first :: others =>
      simp only [allNamesIn, Bool.and_eq_true] at h
      simp only [pieces, List.forall_mem_append, List.forall_mem_cons]
      exact ⟨hmark, rfl, isProper_of_mem_pieces h.2.1, isProper_of_mem_piecesRest h.2.2, rfl, h.1,
        fun _ => nofun⟩

theorem isProper_of_mem_piecesRest {ts : List Ty} (h : allNamesIn Scan.isName ts) :
    ∀ p ∈ piecesRest ts, p.isProper := by
  match ts with
  | [] => exact fun _ => nofun
  | t :: ts =>
      simp only [allNamesIn, Bool.and_eq_true] at h
      simp only [piecesRest, List.forall_mem_append, List.forall_mem_cons]
      exact ⟨rfl, isProper_of_mem_pieces h.1, isProper_of_mem_piecesRest h.2⟩

end

theorem chain_mark {p q : Piece} (hp : p = .opening ∨ p = .comma)
    (hq : q = .opening ∨ ∃ text, q = .name text) {ps : List Piece} (h : Piece.Chain (q :: ps))
    (nullable : Bool) :
    Piece.Chain (p :: ((if nullable then [Piece.question] else []) ++ q :: ps)) := by
  have hquestion : Piece.Chain (.question :: q :: ps) := by
    refine List.isChain_cons_cons.mpr ⟨?_, h⟩
    rcases hq with rfl | ⟨text, rfl⟩ <;> rfl
  cases nullable with
  | false =>
      refine List.isChain_cons_cons.mpr ⟨?_, h⟩
      rcases hp with rfl | rfl <;> rcases hq with rfl | ⟨text, rfl⟩ <;> rfl
  | true =>
      refine List.isChain_cons_cons.mpr ⟨?_, hquestion⟩
      rcases hp with rfl | rfl <;> rfl

mutual

/-- A type can stand where its name can. -/
theorem chain_pieces (t : Ty) {p : Piece} (hp : p = .opening ∨ p = .comma) {ps : List Piece}
    (hps : Piece.Chain (.name t.name :: ps)) : Piece.Chain (p :: (t.pieces ++ ps)) := by
  obtain ⟨name, nullable, generics⟩ := t
  match generics with
  | [] =>
      rw [pieces, List.append_assoc]
      exact chain_mark hp (.inr ⟨name, rfl⟩) hps nullable
  | first :: others =>
      have hfirst : Piece.Chain (.opening ::
          (first.pieces ++ (piecesRest others ++ .closing :: .name name :: ps))) :=
        chain_pieces first (.inl rfl)
          (chain_piecesRest others (List.isChain_cons_cons.mpr ⟨rfl, hps⟩))
      simpa [pieces] using chain_mark hp (.inl rfl) hfirst nullable

theorem chain_piecesRest (ts : List Ty) {name : String} {ps : List Piece}
    (hps : Piece.Chain (.closing :: ps)) :
    Piece.Chain (.name name :: (piecesRest ts ++ .closing :: ps)) := by
  match ts with
  | [] => exact List.isChain_cons_cons.mpr ⟨rfl, hps⟩
  | t :: ts =>
      rw [piecesRest, List.cons_append, List.append_assoc]
      exact List.isChain_cons_cons.mpr ⟨rfl, chain_pieces t (.inr rfl) (chain_piecesRest ts hps)⟩

end

end Ty

/-! ## From the tokens to the type -/

namespace Scan

open Grammar

theorem Writes.mark {us : List Token} {ps : List Piece} {nullable : Bool}
    (h : Writes us ((if nullable then [Piece.question] else []) ++ ps)) :
    ∃ mark rest, us = mark ++ rest ∧ NullMark nullable mark ∧ Writes rest ps := by
  cases nullable with
  | false => exact ⟨[], us, rfl, .absent, h⟩
  | true =>
      cases h with
      | @piece t rest _ _ hkind _ h => exact ⟨[t], rest, rfl, .present hkind, h⟩

/-- The tokens that write a type's arguments with its name, from what the arguments are. -/
theorem Writes.closing {us : List Token} {name : String} {ps : List Piece}
    (h : Writes us (.closing :: .name name :: ps)) :
    ∃ closing last rest, us = closing :: last :: rest ∧ Sign .gt closing ∧
      last.kind = .identifier ∧ last.value = name ∧ Writes rest ps := by
  cases h with
  | @piece closing _ _ _ hclosing _ h =>
      cases h with
      | @piece last rest _ _ hlast hvalue h =>
          exact ⟨closing, last, rest, rfl, hclosing, hlast, hvalue, h⟩

mutual

/-- Tokens that write the pieces of a type write the type. -/
theorem annotates_of_writes (ty : Ty) {us : List Token} {ps : List Piece}
    (h : Writes us (ty.pieces ++ ps)) :
    ∃ ts rest, us = ts ++ rest ∧ Annotates .type ts [ty] ∧ Writes rest ps := by
  obtain ⟨name, nullable, generics⟩ := ty
  match generics with
  | [] =>
      rw [Ty.pieces, List.append_assoc] at h
      obtain ⟨mark, us, rfl, hmark, h⟩ := h.mark
      cases h with
      | @piece last rest _ _ hkind hvalue h =>
          refine ⟨mark ++ [last], rest, by simp, ?_, h⟩
          obtain rfl : last.value = name := hvalue
          exact .plain hmark hkind
  | first :: others =>
      rw [Ty.pieces, List.append_assoc] at h
      obtain ⟨mark, us, rfl, hmark, hbody⟩ := h.mark
      simp only [List.cons_append, List.append_assoc, List.nil_append] at hbody
      generalize hqs : first.pieces ++ (Ty.piecesRest others ++ .closing :: .name name :: ps) = qs
        at hbody
      cases hbody with
      | @piece opening us _ _ hkind _ hargs =>
          subst hqs
          obtain ⟨ts, us, rfl, hfirst, hothers⟩ := annotates_of_writes first hargs
          obtain ⟨us', rest, rfl, hrow, hend⟩ := annotates_of_writesRest others hfirst hothers
          obtain ⟨closing, last, rest, rfl, hclosing, hlast, rfl, hrest⟩ := hend.closing
          exact ⟨_, rest, by simp, .generic hmark hkind hrow hclosing hlast, hrest⟩
      | @openings opening us qs hkind hargs =>
          -- the second half of the sign begins the first argument
          have hhalf : Writes (secondHalf opening :: us)
              (first.pieces ++ (Ty.piecesRest others ++ .closing :: .name name :: ps)) :=
            hqs ▸ .piece rfl rfl hargs
          obtain ⟨ts, us', hts, hfirst, hothers⟩ := annotates_of_writes first hhalf
          obtain ⟨us'', rest, rfl, hrow, hend⟩ := annotates_of_writesRest others hfirst hothers
          obtain ⟨closing, last, rest, rfl, hclosing, hlast, rfl, hrest⟩ := hend.closing
          cases ts with
          | nil => exact absurd hfirst.length_pos (by simp)
          | cons t ts =>
              obtain ⟨rfl, rfl⟩ := List.cons.inj hts
              exact ⟨_, rest, by simp, .doubled hmark hkind hrow hclosing hlast, hrest⟩

theorem annotates_of_writesRest (others : List Ty) {first : Ty} {ts us : List Token}
    {ps : List Piece} (hfirst : Annotates .type ts [first])
    (h : Writes us (Ty.piecesRest others ++ ps)) :
    ∃ us' rest, us = us' ++ rest ∧ Annotates .row (ts ++ us') (first :: others) ∧
      Writes rest ps := by
  match others with
  | [] => exact ⟨[], us, rfl, by simpa using .last hfirst, h⟩
  | t :: others =>
      rw [Ty.piecesRest, List.cons_append, List.append_assoc] at h
      cases h with
      | @piece comma us _ _ hkind _ h =>
          obtain ⟨ts', us, rfl, hnext, h⟩ := annotates_of_writes t h
          obtain ⟨us', rest, rfl, hrow, h⟩ := annotates_of_writesRest others hnext h
          exact ⟨comma :: (ts' ++ us'), rest, by simp, .more hfirst hkind hrow, h⟩

end

end Scan

namespace Parser

open Grammar

theorem optional_of_sign {α : Type} {s : Symbol} {part : Parser α} {t : Token} {c' : Cursor} {a : α}
    {passed rest : List Token} (ht : Sign s t) (hpart : part ⟨t :: passed, rest⟩ = .ok a c') :
    optional s part ⟨passed, t :: rest⟩ = .ok (some a) c' := by
  have hsign : acceptSign s ⟨passed, t :: rest⟩ = .ok true ⟨t :: passed, rest⟩ :=
    leads_acceptSign ht passed
  rw [optional, bind_eq_of_ok hsign]
  exact bind_eq_of_ok hpart

section Declaration

variable {word name colon finish : Token} {ts : List Token} {ty : Ty}

/-- A declaration with a type and no value, up to the end. -/
theorem varDeclaration_of_annotates (hword : word.kind = .keyword .varKw)
    (hname : name.kind = .identifier) (hcolon : Sign .colon colon)
    (hty : Annotates .type ts [ty]) (hfinish : finish.kind = .finish) (expr : Parser Expr)
    (passed : List Token) :
    ∃ passed', varDeclaration expr ⟨passed, word :: name :: colon :: (ts ++ [finish])⟩ =
      .ok (.var name.value (some ty) none) ⟨passed', [finish]⟩ := by
  have hstart : expectWord .varKw ⟨passed, word :: name :: colon :: (ts ++ [finish])⟩ =
      .ok () ⟨word :: passed, name :: colon :: (ts ++ [finish])⟩ :=
    bind_eq_of_ok (leads_expect (by nofun) hword passed)
  have hnamed : expectName ⟨word :: passed, name :: colon :: (ts ++ [finish])⟩ =
      .ok name.value ⟨name :: word :: passed, colon :: (ts ++ [finish])⟩ :=
    leads_expectName hname _
  obtain ⟨last, passed', -, hread⟩ :=
    type_of_annotates hty (colon :: name :: word :: passed) [finish]
  have hannotated : optional .colon type ⟨name :: word :: passed, colon :: (ts ++ [finish])⟩ =
      .ok (some ty) ⟨last :: passed', [finish]⟩ := optional_of_sign hcolon hread
  have hvalue : optional .eq expr ⟨last :: passed', [finish]⟩ =
      .ok none ⟨last :: passed', [finish]⟩ :=
    bind_eq_of_ok (leads_acceptSign_of_ne (by simp [hfinish]) _)
  refine ⟨last :: passed', ?_⟩
  rw [varDeclaration, bind_eq_of_ok hstart, bind_eq_of_ok hnamed, bind_eq_of_ok hannotated,
    bind_eq_of_ok hvalue]
  rfl

theorem program_declaration (hword : word.kind = .keyword .varKw)
    (hname : name.kind = .identifier) (hcolon : Sign .colon colon)
    (hty : Annotates .type ts [ty]) (hfinish : finish.kind = .finish) (string : StringRule) :
    ∃ c, program string ⟨[], word :: name :: colon :: (ts ++ [finish])⟩ =
      .ok [.var name.value (some ty) none] c := by
  obtain ⟨passed, hdeclared⟩ := varDeclaration_of_annotates hword hname hcolon hty hfinish
    (expressionWith string) []
  generalize htokens : word :: name :: colon :: (ts ++ [finish]) = tokens at hdeclared ⊢
  have hnext : nextKind tokens = .keyword .varKw := by rw [← htokens, nextKind_cons, hword]
  obtain ⟨bound, hbound⟩ : ∃ bound, tokens.length = bound + 2 :=
    ⟨tokens.length - 2, by simp [← htokens]⟩
  have hstatement : statementAt (expressionWith string) (bound + 2) ⟨[], tokens⟩ =
      .ok (.var name.value (some ty) none) ⟨passed, [finish]⟩ := by
    rw [statementAt, statement, peek_bind, peek_kind, hnext]
    exact hdeclared
  have hsemicolon : acceptSign .semicolon ⟨[], tokens⟩ = .ok false ⟨[], tokens⟩ :=
    leads_acceptSign_of_ne (by simp [hnext]) []
  have hcheck : check .finish ⟨[], tokens⟩ = .ok false ⟨[], tokens⟩ :=
    leads_check_of_ne (by simp [hnext]) []
  refine ⟨⟨passed, [finish]⟩, ?_⟩
  rw [program, get_bind, hbound, statementsTo, bind_eq_of_ok hsemicolon, if_neg Bool.false_ne_true,
    bind_eq_of_ok hcheck, if_neg Bool.false_ne_true, bind_eq_of_ok hstatement]
  exact statements_finish _ bound hfinish _

theorem parse_declaration (hword : word.kind = .keyword .varKw)
    (hname : name.kind = .identifier) (hcolon : Sign .colon colon)
    (hty : Annotates .type ts [ty]) (hfinish : finish.kind = .finish) :
    parse (word :: name :: colon :: (ts ++ [finish])) = .ok [.var name.value (some ty) none] := by
  have hcursor := ofTokens_append hfinish (word :: name :: colon :: ts)
  simp only [List.cons_append] at hcursor
  obtain ⟨c, hprogram⟩ := program_declaration hword hname hcolon hty hfinish
    (stringRule (depthOf (word :: name :: colon :: (ts ++ [finish]))))
  rw [parse, hcursor, hprogram]

end Declaration

end Parser

namespace Scan

theorem next_of_colon {mode : Mode} {rest : List Char} (hrest : ∀ d ∈ rest.head?, d ≠ ':') :
    next mode ':' ([] ++ rest) = .ok (some ⟨.symbol .colon, ":"⟩, rest) := by
  have hfollowers : followers mode [':'] = [':'] := by cases mode <;> decide +kernel
  refine next_of_longest ':' [] (by decide) (by decide +kernel) rfl fun d hd => ?_
  simpa [hfollowers] using hrest d hd

/-- The beginning of a declaration is three tokens, and what comes behind them is cut as a value. -/
theorem cut_declaration {source : Source} {cs : List Char} {place : Place} {tokens : List Token}
    (hplace : place = Place.advance {} "var x: ".toList)
    (h : Cut source .value place cs (.ok tokens)) :
    ∃ word name colon, Cut source .value {} ("var x: ".toList ++ cs)
        (.ok (word :: name :: colon :: tokens)) ∧
      word.kind = .keyword .varKw ∧ name.kind = .identifier ∧ name.value = "x" ∧
      colon.kind = .symbol .colon := by
  have hword : ∀ rest, next .value 'v' (['a', 'r'] ++ ' ' :: rest) =
      .ok (some ⟨.keyword .varKw, "var"⟩, ' ' :: rest) := by
    intro rest
    have hlexeme : (name ['v', 'a', 'r']).1 = ⟨.keyword .varKw, "var"⟩ := by decide +kernel
    rw [← hlexeme]
    exact next_of_word (by decide) (List.all_eq_true.mp rfl) (by rintro d ⟨⟩; decide)
  have hname : ∀ rest, next .operator 'x' ([] ++ ':' :: rest) =
      .ok (some ⟨.identifier, "x"⟩, ':' :: rest) := by
    intro rest
    have hlexeme : (name ['x']).1 = ⟨.identifier, "x"⟩ := by decide +kernel
    rw [← hlexeme]
    exact next_of_word (by decide) (List.all_eq_true.mp rfl) (by rintro d ⟨⟩; decide)
  have hcolon : ∀ rest, next .operator ':' ([] ++ ' ' :: rest) =
      .ok (some ⟨.symbol .colon, ":"⟩, ' ' :: rest) :=
    fun rest => next_of_colon (by rintro d ⟨⟩; decide)
  subst hplace
  exact ⟨_, _, _, .token (hword _) (.blank (.token (hname _) (.token (hcolon _) (.blank h)))),
    rfl, rfl, rfl, rfl⟩

end Scan

/-- A type is read back from its text. -/
theorem parse_type_text {ty : Ty} (h : ty.allNames Scan.isName) (file : String) :
    ∃ tokens, tokenize ("var x: " ++ ty.text) file = .ok tokens ∧
      parse tokens = .ok [.var "x" (some ty) none] := by
  have hchain : Piece.Chain (.comma :: ty.pieces) := by
    simpa using ty.chain_pieces (.inr rfl) (.singleton _)
  obtain ⟨us, finish, hcut, hfinish, hwrites⟩ := Scan.cutsInto_of_chain
    (Place.advance {} "var x: ".toList) hchain (Ty.isProper_of_mem_pieces h)
  rw [← List.append_nil ty.pieces] at hwrites
  obtain ⟨ts, rest, rfl, hty, hrest⟩ := Scan.annotates_of_writes ty hwrites
  cases hrest
  obtain ⟨word, name, colon, hcut, hword, hname, hx, hcolon⟩ := Scan.cut_declaration rfl hcut
  refine ⟨word :: name :: colon :: (ts ++ [finish]), ?_, ?_⟩
  · rw [tokenize, String.toList_append, Ty.toList_text]
    simpa using hcut.tokensFrom_eq (Nat.le_refl _)
  · rw [← hx]
    exact Parser.parse_declaration hword hname hcolon hty hfinish

/-- A type with three openings in a row. -/
def nestedType : Ty :=
  ⟨"E", true, [⟨"D", false, [⟨"B", false, [⟨"A", false, []⟩]⟩, ⟨"C", true, []⟩]⟩]⟩

theorem parse_nestedType : nestedType.text = "?<<<A>B, ?C>D>E" ∧
    nestedType.allNames Scan.isName = true ∧
    ∃ tokens, tokenize ("var x: " ++ nestedType.text) "main" = .ok tokens ∧
      parse tokens = .ok [.var "x" (some nestedType) none] := by
  have hnames : nestedType.allNames Scan.isName = true := by decide +kernel
  exact ⟨by decide +kernel, hnames, parse_type_text hnames "main"⟩

end ClassScript
