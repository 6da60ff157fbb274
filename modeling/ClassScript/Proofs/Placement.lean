import ClassScript.Parse.Program
import Mathlib.Data.List.Forall2

/-!
# Two runs of a parser side by side

Two tokens are alike if they differ in their places only. A parser goes the same way through two
lists of tokens that are alike: it gives the same on both, or refuses alike tokens for the same
cause. What the places of alike tokens have in common is a parameter, so that the same lemmas tell
both that places do not matter and that a fault is found at a place that some token has.

How the two cursors are related is a parameter too. So a run beside itself tells where a parser can
get to.
-/

namespace ClassScript

abbrev Mark := Position × Span

abbrev Anywhere : Mark → Mark → Prop :=
  fun _ _ => True

structure Token.Like (A : Mark → Mark → Prop) (t u : Token) : Prop where
  kind : t.kind = u.kind
  value : t.value = u.value
  mark : A (t.position, t.span) (u.position, u.span)

inductive Diagnostic.Like (A : Mark → Mark → Prop) : Diagnostic → Diagnostic → Prop
  | grammatical {cause : GrammarCause} {t u : Token} (h : t.Like A u) :
      Diagnostic.Like A (.grammatical cause t) (.grammatical cause u)

/-- Two cursors at the same place in alike tokens, which have a token for the end. -/
structure Cursor.Like (A : Mark → Mark → Prop) (c d : Cursor) : Prop where
  passed : List.Forall₂ (Token.Like A) c.passed d.passed
  rest : List.Forall₂ (Token.Like A) c.rest d.rest
  closed : c.rest.getLast?.map Token.kind = some .finish

section Tokens

variable {A : Mark → Mark → Prop} {t u : Token}

theorem Token.Like.text (h : t.Like A u) : t.text = u.text := by
  simp only [Token.text, h.kind, h.value]

theorem Token.Like.isSoft (h : t.Like A u) (word : String) : t.isSoft word = u.isSoft word := by
  unfold Token.isSoft
  rw [h.kind, h.value]

theorem Token.Like.message (h : t.Like A u) (cause : GrammarCause) :
    cause.message t = cause.message u := by
  have htext := h.text
  have hvalue := h.value
  unfold GrammarCause.message
  rw [htext, hvalue]

theorem Diagnostic.Like.message {e f : Diagnostic} (h : e.Like A f) : e.message = f.message := by
  cases h with
  | @grammatical cause t u h => exact h.message cause

theorem map_eq_of_like {β : Type} (f : Kind → String → β) {ts us : List Token}
    (h : List.Forall₂ (Token.Like A) ts us) :
    ts.map (fun t => f t.kind t.value) = us.map fun u => f u.kind u.value := by
  induction h with
  | nil => rfl
  | cons htu _ ih => rw [List.map_cons, List.map_cons, htu.kind, htu.value, ih]

end Tokens

namespace Cursor

theorem next_cons {passed ts : List Token} {t : Token} (h : t.kind ≠ .finish) :
    next ⟨passed, t :: ts⟩ = ⟨t :: passed, ts⟩ :=
  if_neg h

def Onward (c d : Cursor) : Prop :=
  ∃ taken, c.rest = taken ++ d.rest ∧ d.passed = taken.reverse ++ c.passed

namespace Onward

variable {c d e : Cursor}

theorem refl (c : Cursor) : c.Onward c :=
  ⟨[], rfl, rfl⟩

theorem trans (h : c.Onward d) (h' : d.Onward e) : c.Onward e := by
  obtain ⟨taken, hrest, hpassed⟩ := h
  obtain ⟨taken', hrest', hpassed'⟩ := h'
  refine ⟨taken ++ taken', ?_, ?_⟩
  · rw [hrest, hrest', List.append_assoc]
  · rw [hpassed', hpassed, List.reverse_append, List.append_assoc]

theorem next (c : Cursor) : c.Onward c.next := by
  unfold Cursor.next
  split
  · next token rest hrest =>
      split
      · exact refl c
      · exact ⟨[token], by simp [hrest], rfl⟩
  · exact refl c

/-- The way back leads to the cursor that was left. -/
theorem rewind (h : c.Onward d) : d.rewind c.index = c := by
  obtain ⟨taken, hrest, hpassed⟩ := h
  have hback : d.index - c.index = taken.reverse.length := by
    simp [Cursor.index, hpassed]
  simp only [Cursor.rewind, hback, hpassed, List.drop_left, List.take_left, List.reverse_reverse,
    ← hrest]

end Onward

end Cursor

namespace Cursor.Like

variable {A : Mark → Mark → Prop} {c d : Cursor}

theorem length (h : c.Like A d) : c.rest.length = d.rest.length :=
  h.rest.length_eq

/-- There is a token that comes next, and only the last one is for the end. -/
theorem cases (h : c.Like A d) : ∃ t ts u us, c.rest = t :: ts ∧ d.rest = u :: us ∧ t.Like A u ∧
    List.Forall₂ (Token.Like A) ts us ∧
    (t.kind ≠ .finish → ts.getLast?.map Token.kind = some .finish) := by
  have hrest := h.rest
  have hclosed := h.closed
  cases hc : c.rest with
  | nil =>
      rw [hc] at hclosed
      cases hclosed
  | cons t ts =>
      rw [hc] at hrest hclosed
      obtain ⟨u, us, htu, htail, hd⟩ := List.forall₂_cons_left_iff.mp hrest
      refine ⟨t, ts, u, us, rfl, hd, htu, htail, fun hkind => ?_⟩
      cases ts with
      | nil => exact absurd (Option.some.inj hclosed) hkind
      | cons t' ts => exact hclosed

theorem peek (h : c.Like A d) : c.peek.Like A d.peek := by
  obtain ⟨t, ts, u, us, hc, hd, htu, -⟩ := h.cases
  simp only [Cursor.peek, hc, hd]
  exact htu

theorem next (h : c.Like A d) : c.next.Like A d.next := by
  obtain ⟨t, ts, u, us, hc, hd, htu, htail, hclosed⟩ := h.cases
  simp only [Cursor.next, hc, hd, ← htu.kind]
  split
  · exact h
  · next hkind => exact ⟨.cons htu h.passed, htail, hclosed hkind⟩

theorem assignedName?_eq (h : c.Like A d) :
    Parser.assignedName? c = Parser.assignedName? d := by
  obtain ⟨t, ts, u, us, hc, hd, htu, htail, -⟩ := h.cases
  simp only [Parser.assignedName?, hc, hd]
  cases htail with
  | nil => rfl
  | cons hsign _ => simp only [htu.kind, htu.value, hsign.kind]

theorem replace (h : c.Like A d) {kind : Kind} {value : String} (hpeek : c.peek.kind ≠ .finish) :
    (c.replace { c.peek with kind := kind, value := value }).Like A
      (d.replace { d.peek with kind := kind, value := value }) := by
  obtain ⟨t, ts, u, us, hc, hd, htu, htail, hclosed⟩ := h.cases
  simp only [Cursor.peek, hc, List.headD_cons] at hpeek
  refine ⟨h.passed, ?_, ?_⟩
  · simp only [Cursor.replace, Cursor.peek, hc, hd]
    exact .cons ⟨rfl, rfl, htu.mark⟩ htail
  · have hlast := hclosed hpeek
    simp only [Cursor.replace, hc, List.tail_cons, List.getLast?_cons]
    cases hts : ts.getLast? with
    | none =>
        rw [hts] at hlast
        cases hlast
    | some last =>
        rw [hts] at hlast
        exact hlast

theorem ofTokens {ts us : List Token}
    (h : List.Forall₂ (Token.Like A) ts us) (hlast : ts.getLast?.map Token.kind = some .finish) :
    (Cursor.ofTokens ts).Like A (.ofTokens us) := by
  have hclosed : ∀ {ts : List Token}, ts.getLast?.map Token.kind = some .finish →
      Cursor.closed ts = ts := by
    intro ts hlast
    unfold Cursor.closed
    cases hts : ts.getLast? with
    | none =>
        rw [hts] at hlast
        cases hlast
    | some last =>
        rw [hts] at hlast
        exact if_pos (Option.some.inj hlast)
  have hlast' : us.getLast?.map Token.kind = some .finish := by
    have hkinds : ts.map Token.kind = us.map Token.kind := map_eq_of_like (fun kind _ => kind) h
    rw [← hlast, ← List.getLast?_map, ← List.getLast?_map, hkinds]
  refine ⟨.nil, ?_, ?_⟩
  · simp only [Cursor.ofTokens, hclosed hlast, hclosed hlast']
    exact h
  · simp only [Cursor.ofTokens, hclosed hlast]
    exact hlast

end Cursor.Like

namespace Parser

/-- How the cursors of two runs are related while both go the same way. -/
structure Link (A : Mark → Mark → Prop) where
  cursor : Cursor → Cursor → Prop
  length {c d : Cursor} (h : cursor c d) : c.rest.length = d.rest.length
  assignedName?_eq {c d : Cursor} (h : cursor c d) : assignedName? c = assignedName? d
  peek {c d : Cursor} (h : cursor c d) : c.peek.Like A d.peek
  next {c d : Cursor} (h : cursor c d) : cursor c.next d.next

def Link.alike (A : Mark → Mark → Prop) : Link A where
  cursor := Cursor.Like A
  length h := h.length
  assignedName?_eq h := h.assignedName?_eq
  peek h := h.peek
  next h := h.next

variable {A : Mark → Mark → Prop} {L : Link A} {α β γ δ : Type} {R : α → β → Prop}
  {S : γ → δ → Prop}

inductive Agree (L : Link A) (R : α → β → Prop) :
    EStateM.Result Diagnostic Cursor α → EStateM.Result Diagnostic Cursor β → Prop
  | ok {a : α} {b : β} {c d : Cursor} (hvalue : R a b) (hcursor : L.cursor c d) :
      Agree L R (.ok a c) (.ok b d)
  | error {e f : Diagnostic} {c d : Cursor} (hfault : e.Like A f) (hcursor : L.cursor c d) :
      Agree L R (.error e c) (.error f d)

inductive Same (A : Mark → Mark → Prop) : Except Diagnostic α → Except Diagnostic α → Prop
  | ok (a : α) : Same A (.ok a) (.ok a)
  | error {e f : Diagnostic} (hfault : e.Like A f) : Same A (.error e) (.error f)

theorem Same.bind {x y : Except Diagnostic α} {f g : α → Except Diagnostic γ}
    (h : Same A x y) (hf : ∀ a, Same A (f a) (g a)) : Same A (x >>= f) (y >>= g) := by
  cases h with
  | ok a => exact hf a
  | error hfault => exact .error hfault

theorem Same.mapM {f g : α → Except Diagnostic γ} (h : ∀ a, Same A (f a) (g a))
    (as : List α) : Same A (as.mapM f) (as.mapM g) := by
  induction as with
  | nil => exact .ok _
  | cons a as ih =>
      rw [List.mapM_cons, List.mapM_cons]
      exact (h a).bind fun _ => ih.bind fun _ => .ok _

/-- Two parsers that do the same from related cursors. -/
def Pairs (L : Link A) (R : α → β → Prop) (p : Parser α) (q : Parser β) : Prop :=
  ∀ c d, L.cursor c d → Agree L R (p c) (q d)

namespace Pairs

theorem pure {a : α} {b : β} (h : R a b) : Pairs L R (Pure.pure a) (Pure.pure b) :=
  fun _ _ hcd => .ok h hcd

theorem bind {p : Parser α} {q : Parser β} {f : α → Parser γ} {g : β → Parser δ}
    (hp : Pairs L R p q) (hf : ∀ a b, R a b → Pairs L S (f a) (g b)) :
    Pairs L S (p >>= f) (q >>= g) := by
  intro c d hcd
  change Agree L S (EStateM.bind p f c) (EStateM.bind q g d)
  have hpair := hp c d hcd
  unfold EStateM.bind
  generalize p c = r at hpair
  generalize q d = r' at hpair
  cases hpair with
  | ok hvalue hcursor => exact hf _ _ hvalue _ _ hcursor
  | error hfault hcursor => exact .error hfault hcursor

/-- As `bind`, when the first parsers give the same value. -/
theorem seq {p q : Parser α} {f : α → Parser γ} {g : α → Parser δ} (hp : Pairs L Eq p q)
    (hf : ∀ a, Pairs L S (f a) (g a)) : Pairs L S (p >>= f) (q >>= g) := by
  refine bind hp ?_
  rintro a _ rfl
  exact hf a

theorem map {p q : Parser α} {f : α → γ} (hp : Pairs L Eq p q) :
    Pairs L Eq (f <$> p) (f <$> q) := by
  rw [map_eq_pure_bind, map_eq_pure_bind]
  exact seq hp fun a => pure rfl

theorem ite {c : Prop} [Decidable c] {p p' : Parser α} {q q' : Parser β} (hthen : Pairs L R p q)
    (helse : Pairs L R p' q') : Pairs L R (if c then p else p') (if c then q else q') := by
  split
  · exact hthen
  · exact helse

theorem get : Pairs L L.cursor MonadState.get MonadState.get :=
  fun _ _ hcd => .ok hcd hcd

/-- Reading how many tokens are left. -/
theorem left {f g : Nat → Parser α} (h : ∀ n, Pairs L Eq (f n) (g n)) :
    Pairs L Eq (do f (← MonadState.get).rest.length) (do g (← MonadState.get).rest.length) := by
  refine bind get fun c d hcd => ?_
  rw [L.length hcd]
  exact h _

theorem ofExcept {x y : Except Diagnostic α} (h : Same A x y) :
    Pairs L Eq (MonadExcept.ofExcept x) (MonadExcept.ofExcept y) := by
  cases h with
  | ok a => exact pure rfl
  | error hfault => exact fun _ _ hcd => .error hfault hcd

theorem peek : Pairs L (Token.Like A) Parser.peek Parser.peek :=
  bind get fun _ _ hcd => pure (L.peek hcd)

theorem advance : Pairs L (Token.Like A) Parser.advance Parser.advance := by
  refine bind get fun c d hcd => ?_
  have hset : Pairs L Eq (set c.next : Parser PUnit) (set d.next) :=
    fun _ _ _ => .ok rfl (L.next hcd)
  exact seq hset fun _ => pure (L.peek hcd)

theorem fail {t u : Token} (cause : GrammarCause) (h : t.Like A u) :
    Pairs L R (Parser.fail cause t) (Parser.fail cause u) :=
  fun _ _ hcd => .error (.grammatical h) hcd

theorem unexpected : Pairs L R Parser.unexpected Parser.unexpected :=
  bind peek fun _ _ h => fail .unexpected h

theorem check (kind : Kind) : Pairs L Eq (Parser.check kind) (Parser.check kind) :=
  bind peek fun _ _ h => pure (by rw [h.kind])

theorem accept (kind : Kind) : Pairs L Eq (Parser.accept kind) (Parser.accept kind) := by
  refine seq (check kind) fun found => ite ?_ (pure rfl)
  exact bind advance fun _ _ _ => pure rfl

theorem expect (kind : Kind) : Pairs L (Token.Like A) (Parser.expect kind) (Parser.expect kind) :=
  seq (check kind) fun _ => ite advance unexpected

theorem acceptSign (s : Symbol) : Pairs L Eq (Parser.acceptSign s) (Parser.acceptSign s) :=
  accept _

theorem expectSign (s : Symbol) : Pairs L Eq (Parser.expectSign s) (Parser.expectSign s) :=
  bind (expect _) fun _ _ _ => pure rfl

theorem expectWord (word : Keyword) :
    Pairs L Eq (Parser.expectWord word) (Parser.expectWord word) :=
  bind (expect _) fun _ _ _ => pure rfl

theorem expectName : Pairs L Eq Parser.expectName Parser.expectName :=
  bind (expect _) fun _ _ h => pure h.value

theorem optional {part part' : Parser α} (s : Symbol) (h : Pairs L Eq part part') :
    Pairs L Eq (Parser.optional s part) (Parser.optional s part') :=
  seq (acceptSign s) fun _ => ite (map h) (pure rfl)

theorem commaSeparated {part part' : Parser α} (h : Pairs L Eq part part') (bound : Nat) :
    Pairs L Eq (Parser.commaSeparated part bound) (Parser.commaSeparated part' bound) := by
  induction bound with
  | zero => exact unexpected
  | succ bound ih =>
      refine seq h fun first => seq (acceptSign _) fun more => ite ?_ (pure rfl)
      exact seq ih fun rest => pure rfl

end Pairs

end Parser

end ClassScript
