import ClassScript.Proofs.PlacementGrammar
import Mathlib.Data.List.Induction

/-!
# Diagnostics point into the source

The tokenizer counts lines, columns and offsets one character at a time. Here they are given by the
text itself: the line is the number of newlines before the offset, the column the distance from the
last of them, and the text of the line what stands between two newlines. The parser makes up no
places: a fault in the grammar is at the place of a token, also if it is found in embedded code.
-/

namespace ClassScript

def lastLine (cs : List Char) : List Char :=
  (cs.reverse.takeWhile (· ≠ '\n')).reverse

def lineAt (text : List Char) (offset : Nat) : List Char :=
  lastLine (text.take offset) ++ (text.drop offset).takeWhile (· ≠ '\n')

/-- A position and a span that belong to the same place in a text. -/
structure PointsInto (text : List Char) (name : String) (position : Position) (span : Span) :
    Prop where
  file : position.file = name
  offset : position.offset = span.start
  ordered : span.start ≤ span.stop
  inside : span.stop ≤ text.length
  line : position.line = 1 + (text.take position.offset).count '\n'
  column : position.column = 1 + (lastLine (text.take position.offset)).length
  /-- One carriage return at the end of the line is left out. -/
  lineText : lineAt text position.offset = position.lineText.toList ++ ['\r'] ∨
    lineAt text position.offset = position.lineText.toList ∧
      position.lineText.toList.getLast? ≠ some '\r'

/-! ## Counting -/

@[simp]
theorem lastLine_concat (cs : List Char) (c : Char) :
    lastLine (cs ++ [c]) = if c = '\n' then [] else lastLine cs ++ [c] := by
  unfold lastLine
  by_cases hc : c = '\n'
  · simp [hc]
  · simp [hc]

theorem lastLine_of_not_mem {cs : List Char} (h : '\n' ∉ cs) : lastLine cs = cs := by
  induction cs using List.reverseRecOn with
  | nil => rfl
  | append_singleton cs c ih =>
      obtain ⟨hcs, hc⟩ : '\n' ∉ cs ∧ c ≠ '\n' := by
        simpa [eq_comm] using h
      rw [lastLine_concat, if_neg hc, ih hcs]

theorem lastLine_cons_of_mem {c : Char} {cs : List Char} (h : '\n' ∈ cs) :
    lastLine (c :: cs) = lastLine cs := by
  induction cs using List.reverseRecOn with
  | nil => cases h
  | append_singleton cs d ih =>
      rw [← List.cons_append, lastLine_concat, lastLine_concat]
      split
      · rfl
      · next hd =>
          have hcs : '\n' ∈ cs := by simpa [Ne.symm hd] using h
          rw [ih hcs]

theorem lastLine_cons_newline {cs : List Char} (h : '\n' ∉ cs) : lastLine ('\n' :: cs) = cs := by
  induction cs using List.reverseRecOn with
  | nil => rfl
  | append_singleton cs c ih =>
      obtain ⟨hcs, hc⟩ : '\n' ∉ cs ∧ c ≠ '\n' := by
        simpa [eq_comm] using h
      rw [← List.cons_append, lastLine_concat, if_neg hc, ih hcs]

namespace Place

theorem advance_concat (p : Place) (cs : List Char) (c : Char) :
    p.advance (cs ++ [c]) = (p.advance cs).step c := by
  rw [advance_append]
  rfl

theorem line_advance (cs : List Char) : (advance {} cs).line = 1 + cs.count '\n' := by
  induction cs using List.reverseRecOn with
  | nil => rfl
  | append_singleton cs c ih =>
      rw [advance_concat, step]
      split
      · next hc => simp [ih, hc, Nat.add_assoc]
      · next hc => simp [ih, hc]

theorem column_advance (cs : List Char) : (advance {} cs).column = 1 + (lastLine cs).length := by
  induction cs using List.reverseRecOn with
  | nil => rfl
  | append_singleton cs c ih =>
      rw [advance_concat, step, lastLine_concat]
      split
      · rfl
      · simp [ih, Nat.add_assoc]

end Place

namespace Source

theorem splitLines_eq (cs : List Char) :
    ∃ lines, splitLines cs = cs.takeWhile (· ≠ '\n') :: lines := by
  induction cs with
  | nil => exact ⟨[], rfl⟩
  | cons c cs ih =>
      obtain ⟨lines, hlines⟩ := ih
      rw [splitLines]
      split
      · next hc => exact ⟨splitLines cs, by simp [hc]⟩
      · next hc => exact ⟨lines, by simp [hlines, hc]⟩

/-- The lines before the newlines that were passed are gone. -/
theorem getElem?_splitLines (before rest : List Char) :
    (splitLines (before ++ rest))[before.count '\n']? =
      some (lastLine before ++ rest.takeWhile (· ≠ '\n')) := by
  induction before with
  | nil =>
      obtain ⟨lines, hlines⟩ := splitLines_eq rest
      simp [hlines, lastLine]
  | cons c before ih =>
      by_cases hmem : '\n' ∈ before
      · -- the line is behind the first newline, and the first character is not on it
        rw [lastLine_cons_of_mem hmem, ← ih, List.cons_append, splitLines]
        split
        · next hc => simp [hc]
        · next hc =>
            obtain ⟨n, hn⟩ := Nat.exists_eq_add_of_lt (List.count_pos_iff.mpr hmem)
            obtain ⟨lines, hlines⟩ := splitLines_eq (before ++ rest)
            simp [hlines, hc, hn]
      · have hcount : before.count '\n' = 0 := List.count_eq_zero.mpr hmem
        rw [lastLine_of_not_mem hmem, hcount] at ih
        rw [List.cons_append, splitLines]
        split
        · next hc => simpa [hc, hcount, lastLine_cons_newline hmem] using ih
        · next hc =>
            have hmem' : '\n' ∉ c :: before := by simp [hmem, Ne.symm hc]
            obtain ⟨lines, hlines⟩ := splitLines_eq (before ++ rest)
            rw [hlines] at ih ⊢
            simpa [lastLine_of_not_mem hmem', hcount, hc] using ih

theorem chompReturn_cases (line : List Char) :
    line = chompReturn line ++ ['\r'] ∨
      line = chompReturn line ∧ (chompReturn line).getLast? ≠ some '\r' := by
  unfold chompReturn
  split
  · next h =>
      obtain ⟨front, rfl⟩ := List.getLast?_eq_some_iff.mp h
      exact Or.inl (by simp)
  · next h => exact Or.inr ⟨rfl, h⟩

/-- The place behind some of a text points into it. -/
theorem pointsInto_position (name : String) (before taken rest : List Char) :
    PointsInto (before ++ taken ++ rest) name
      ((ofText name (before ++ taken ++ rest)).position (Place.advance {} before))
      ⟨before.length, before.length + taken.length⟩ := by
  have htext : before ++ taken ++ rest = before ++ (taken ++ rest) := List.append_assoc _ _ _
  have hoffset : (Place.advance {} before).offset = before.length := by simp
  have htake : (before ++ taken ++ rest).take before.length = before := by simp
  have hline :
      ((ofText name (before ++ taken ++ rest)).position (Place.advance {} before)).lineText =
      String.ofList (chompReturn (lineAt (before ++ taken ++ rest) before.length)) := by
    have hfound := getElem?_splitLines before (taken ++ rest)
    rw [← htext] at hfound
    have hbehind : (before ++ taken ++ rest).drop before.length = taken ++ rest := by simp
    simp only [position, ofText, Place.line_advance, Nat.add_sub_cancel_left, lineAt, htake,
      hbehind, Array.getD_eq_getD_getElem?, List.getElem?_toArray, List.getElem?_map, hfound,
      Option.map_some, Option.getD_some]
  refine ⟨rfl, hoffset, Nat.le_add_right _ _, by simp, ?_, ?_, ?_⟩
  · simp only [position, hoffset, htake]
    exact Place.line_advance before
  · simp only [position, hoffset, htake]
    exact Place.column_advance before
  · rw [hline]
    simpa only [position, hoffset, String.toList_ofList] using chompReturn_cases _

end Source

/-! ## Tokens and faults -/

/-- Everything that comes of cutting the rest of a text points into the text. -/
theorem Scan.Cut.pointsInto {text : List Char} {name : String} {mode : Scan.Mode} {place : Place}
    {cs : List Char} {result : Except Diagnostic (List Token)}
    (h : Scan.Cut (Source.ofText name text) mode place cs result) {before : List Char}
    (htext : text = before ++ cs) (hplace : place = Place.advance {} before) :
    (∀ ts, result = .ok ts → ∀ t ∈ ts, PointsInto text name t.position t.span) ∧
      ∀ d, result = .error d → PointsInto text name d.position d.span := by
  induction h generalizing before with
  | @finish mode place =>
      have hpoint := Source.pointsInto_position name before [] []
      simp only [List.append_nil] at htext hpoint
      subst htext hplace
      refine ⟨fun ts hts t ht => ?_, by simp⟩
      cases hts
      obtain rfl := List.mem_singleton.mp ht
      simpa [tokenAt] using hpoint
  | @skip mode place c body rest result hnext _ ih =>
      rw [← List.append_assoc] at htext
      exact ih htext (by rw [hplace, Place.advance_append])
  | @token mode place c body rest lexeme result hnext _ ih =>
      rw [← List.append_assoc] at htext
      obtain ⟨hok, herror⟩ := ih htext (by rw [hplace, Place.advance_append])
      have hpoint := Source.pointsInto_position name before (c :: body) rest
      rw [← htext, ← hplace] at hpoint
      cases result with
      | error fault =>
          refine ⟨by simp [Except.map], fun d hd => ?_⟩
          cases hd
          exact herror fault rfl
      | ok us =>
          refine ⟨fun ts hts => ?_, by simp [Except.map]⟩
          cases hts
          refine List.forall_mem_cons.mpr ⟨?_, hok us rfl⟩
          simpa [tokenAt, hplace] using hpoint
  | @fault mode place c cs taken rest cause hnext hcs =>
      refine ⟨by simp, fun d hd => ?_⟩
      cases hd
      have hpoint := Source.pointsInto_position name before taken rest
      rw [hcs, ← List.append_assoc] at htext
      rw [← htext, ← hplace] at hpoint
      simpa [Diagnostic.position, Diagnostic.span, hplace] using hpoint

/-- The grammar finds its faults where the tokens are. -/
theorem parse_pointsInto {text : List Char} {name : String} {tokens : List Token}
    (htokens : ∀ t ∈ tokens, PointsInto text name t.position t.span)
    (hlast : tokens.getLast?.map Token.kind = some .finish) {d : Diagnostic}
    (h : parse tokens = .error d) : PointsInto text name d.position d.span := by
  have halike : List.Forall₂ (Token.Like fun m _ => PointsInto text name m.1 m.2) tokens tokens :=
    List.forall₂_same.mpr fun t ht => ⟨rfl, rfl, htokens t ht⟩
  have hsame := parse_same halike hlast
  rw [h] at hsame
  cases hsame with
  | error hfault =>
      cases hfault with
      | grammatical hlike => exact hlike.mark

/-- Every token of a text, every fault of cutting it into tokens and every fault of parsing them
points into the text. -/
theorem diagnostics_pointInto (text file : String) :
    (∀ d, tokenize text file = .error d → PointsInto text.toList file d.position d.span) ∧
    ∀ tokens, tokenize text file = .ok tokens →
      (∀ t ∈ tokens, PointsInto text.toList file t.position t.span) ∧
      ∀ d, parse tokens = .error d → PointsInto text.toList file d.position d.span := by
  obtain ⟨hok, herror⟩ := (cut_tokenize text file).pointsInto (List.nil_append _).symm rfl
  refine ⟨herror, fun tokens htokens => ⟨hok tokens htokens, fun d hd => ?_⟩⟩
  exact parse_pointsInto (hok tokens htokens) (last_of_tokenize htokens) hd

/-- A text with a fault in a string that is embedded in another one. -/
def nestedFault : String :=
  "var a = 1;\r\n  print(\"x\x7b\"y\x7b1 +\x7d\"\x7d\")\r\n"

theorem nestedFault_pointsInto : ∃ tokens d, tokenize nestedFault "main" = .ok tokens ∧
    parse tokens = .error d ∧
    d.position = ⟨"main", 2, 9, 20, "  print(\"x\x7b\"y\x7b1 +\x7d\"\x7d\")"⟩ ∧
    PointsInto nestedFault.toList "main" d.position d.span := by
  have hrun : (tokenize nestedFault "main").toOption.map
      (fun tokens => ((parse tokens).map fun _ => ()).mapError Diagnostic.position) =
      some (.error ⟨"main", 2, 9, 20, "  print(\"x\x7b\"y\x7b1 +\x7d\"\x7d\")"⟩) := by
    decide +kernel
  cases htokens : tokenize nestedFault "main" with
  | error fault =>
      rw [htokens] at hrun
      cases hrun
  | ok tokens =>
      rw [htokens] at hrun
      have hparse := Option.some.inj hrun
      dsimp only at hparse
      cases hd : parse tokens with
      | ok program =>
          rw [hd] at hparse
          cases hparse
      | error d =>
          rw [hd] at hparse
          exact ⟨tokens, d, rfl, hd, Except.error.inj hparse,
            ((diagnostics_pointInto nestedFault "main").2 tokens htokens).2 d hd⟩

end ClassScript
