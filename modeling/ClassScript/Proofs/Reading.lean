import ClassScript.Proofs.Grammar
import ClassScript.Proofs.Outcomes

/-!
# Reading tokens

How the steps of a parser move a cursor. There are two lemmas for each step: what it leads to when
the right token comes next, and what is known when it has succeeded.
-/

namespace ClassScript.Parser

open Grammar (Sign)

variable {α β γ : Type}

/-- The token that comes next, which is the end when there is none. -/
def nextToken (rest : List Token) : Token :=
  rest.headD ⟨.finish, "", default, default⟩

def nextKind (rest : List Token) : Kind :=
  (nextToken rest).kind

@[simp]
theorem nextKind_cons (t : Token) (rest : List Token) : nextKind (t :: rest) = t.kind :=
  rfl

theorem peek_kind (c : Cursor) : c.peek.kind = nextKind c.rest :=
  rfl

theorem exists_cons_of_nextKind {rest : List Token} {kind : Kind} (h : nextKind rest = kind)
    (hkind : kind ≠ .finish) : ∃ t ts, rest = t :: ts ∧ t.kind = kind := by
  cases rest with
  | nil => exact absurd h.symm hkind
  | cons t ts => exact ⟨t, ts, rfl, h⟩

/-! ## Going forward -/

/-- A parser takes the tokens `ts`, which come before `rest`, and goes on as another parser. -/
def Leads (p : Parser α) (ts : List Token) (q : Parser α) (rest : List Token) : Prop :=
  ∀ passed, p ⟨passed, ts ++ rest⟩ = q ⟨ts.reverse ++ passed, rest⟩

namespace Leads

variable {p q r : Parser α} {f : α → Parser β} {ts us rest : List Token}

theorem refl (p : Parser α) (rest : List Token) : Leads p [] p rest :=
  fun _ => rfl

theorem trans (hp : Leads p ts q (us ++ rest)) (hq : Leads q us r rest) :
    Leads p (ts ++ us) r rest := by
  intro passed
  rw [List.append_assoc, hp, hq, List.reverse_append, List.append_assoc]

theorem bind {a : α} {q : Parser β} (hp : Leads p ts (pure a) (us ++ rest))
    (hf : Leads (f a) us q rest) : Leads (p >>= f) (ts ++ us) q rest := by
  intro passed
  rw [List.append_assoc, bind_eq_of_ok (hp passed), hf, List.reverse_append, List.append_assoc]

/-- As `bind`, when what comes second takes nothing. -/
theorem last {a : α} {q : Parser β} (hp : Leads p ts (pure a) rest)
    (hf : Leads (f a) [] q rest) : Leads (p >>= f) ts q rest := by
  simpa using bind hp hf

theorem peek {f : Token → Parser α} {q : Parser α} {ts rest : List Token}
    (h : Leads (f (nextToken (ts ++ rest))) ts q rest) :
    Leads (Parser.peek >>= f) ts q rest :=
  fun passed => h passed

end Leads

section Steps

variable {rest : List Token} {t : Token}

theorem leads_advance (ht : t.kind ≠ .finish) : Leads advance [t] (pure t) rest := by
  intro passed
  change EStateM.Result.ok t (Cursor.next ⟨passed, t :: rest⟩) = _
  simp only [Cursor.next, if_neg ht]
  rfl

theorem leads_check {kind : Kind} (ht : t.kind = kind) (rest : List Token) :
    Leads (check kind) [] (pure true) ([t] ++ rest) := by
  intro passed
  change EStateM.Result.ok (decide (t.kind = kind)) _ = _
  simp only [ht, decide_true]
  rfl

theorem leads_check_of_ne {kind : Kind} (hkind : nextKind rest ≠ kind) :
    Leads (check kind) [] (pure false) rest := by
  intro passed
  change EStateM.Result.ok (decide (nextKind rest = kind)) _ = _
  simp only [hkind, decide_false]
  rfl

theorem leads_accept {kind : Kind} (hkind : kind ≠ .finish) (ht : t.kind = kind) :
    Leads (accept kind) [t] (pure true) rest := by
  have hcheck := leads_check ht rest
  have hpass : Leads (do let _ ← advance; return true : Parser Bool) [t] (pure true) rest :=
    (leads_advance (ht ▸ hkind)).last (.refl _ rest)
  exact hcheck.bind hpass

theorem leads_accept_of_ne {kind : Kind} (hkind : nextKind rest ≠ kind) :
    Leads (accept kind) [] (pure false) rest :=
  (leads_check_of_ne hkind).last (.refl _ rest)

theorem leads_expect {kind : Kind} (hkind : kind ≠ .finish) (ht : t.kind = kind) :
    Leads (expect kind) [t] (pure t) rest :=
  (leads_check ht rest).bind (leads_advance (ht ▸ hkind))

theorem leads_acceptSign {s : Symbol} (ht : Sign s t) :
    Leads (acceptSign s) [t] (pure true) rest :=
  leads_accept (by nofun) ht

theorem leads_acceptSign_of_ne {s : Symbol} (h : nextKind rest ≠ .symbol s) :
    Leads (acceptSign s) [] (pure false) rest :=
  leads_accept_of_ne h

theorem leads_expectSign {s : Symbol} (ht : Sign s t) :
    Leads (expectSign s) [t] (pure ()) rest :=
  (leads_expect (by nofun) ht).last (.refl _ rest)

theorem leads_expectName (ht : t.kind = .identifier) :
    Leads expectName [t] (pure t.value) rest :=
  (leads_expect (by nofun) ht).last (.refl _ rest)

end Steps

/-! ## Looking back -/

theorem peek_bind (f : Token → Parser α) (c : Cursor) : (peek >>= f) c = f c.peek c :=
  rfl

theorem get_bind (f : Cursor → Parser α) (c : Cursor) : (get >>= f) c = f c c :=
  rfl

theorem pure_eq_ok {a b : α} {c c' : Cursor} (h : (pure a : Parser α) c = .ok b c') :
    a = b ∧ c = c' := by
  cases h
  exact ⟨rfl, rfl⟩

theorem ofExcept_eq_ok {x : Except Diagnostic α} {a : α} {c c' : Cursor}
    (h : (ofExcept x : Parser α) c = .ok a c') : x = .ok a ∧ c = c' := by
  cases x with
  | ok b =>
      cases h
      exact ⟨rfl, rfl⟩
  | error fault => cases h

/-- A step gives the next token and takes it, unless it is the end. -/
theorem advance_eq_ok {c c' : Cursor} {t : Token} (h : advance c = .ok t c') :
    t = c.peek ∧ (t.kind ≠ .finish → c.rest = t :: c'.rest) := by
  obtain ⟨passed, rest⟩ := c
  cases rest with
  | nil =>
      cases h
      exact ⟨rfl, fun hkind => absurd rfl hkind⟩
  | cons u rest =>
      have hnext : advance ⟨passed, u :: rest⟩ = .ok u (Cursor.next ⟨passed, u :: rest⟩) := rfl
      rw [hnext] at h
      cases h
      refine ⟨rfl, fun hkind => ?_⟩
      simp only [Cursor.next, if_neg hkind]

theorem accept_eq_ok {kind : Kind} (hkind : kind ≠ .finish) {c c' : Cursor} {b : Bool}
    (h : accept kind c = .ok b c') :
    (b = true ∧ ∃ t, t.kind = kind ∧ c.rest = t :: c'.rest) ∨
      (b = false ∧ nextKind c.rest ≠ kind ∧ c' = c) := by
  obtain ⟨passed, rest⟩ := c
  by_cases hnext : nextKind rest = kind
  · cases rest with
    | nil => exact absurd hnext.symm hkind
    | cons t rest =>
        have htaken : accept kind ⟨passed, t :: rest⟩ = .ok true ⟨t :: passed, rest⟩ :=
          leads_accept hkind hnext passed
        cases htaken.symm.trans h
        exact Or.inl ⟨rfl, t, hnext, rfl⟩
  · have hkept : accept kind ⟨passed, rest⟩ = .ok false ⟨passed, rest⟩ :=
      leads_accept_of_ne hnext passed
    cases hkept.symm.trans h
    exact Or.inr ⟨rfl, hnext, rfl⟩

theorem expect_eq_ok {kind : Kind} {c c' : Cursor} {t : Token} (h : expect kind c = .ok t c') :
    nextKind c.rest = kind ∧ (kind ≠ .finish → t.kind = kind ∧ c.rest = t :: c'.rest) := by
  obtain ⟨b, d, hcheck, h⟩ := exists_of_bind_eq_ok h
  cases hcheck
  by_cases hnext : nextKind c.rest = kind
  · have htrue : decide (c.peek.kind = kind) = true := by simp [peek_kind, hnext]
    rw [htrue] at h
    obtain ⟨rfl, hrest⟩ := advance_eq_ok h
    refine ⟨hnext, fun hkind => ?_⟩
    have hkind' : c.peek.kind = kind := hnext
    exact ⟨hkind', hrest (hkind'.symm ▸ hkind)⟩
  · have hfalse : decide (c.peek.kind = kind) = false := by simp [peek_kind, hnext]
    rw [hfalse] at h
    cases h

theorem acceptSign_eq_ok {s : Symbol} {c c' : Cursor} {b : Bool}
    (h : acceptSign s c = .ok b c') :
    (b = true ∧ ∃ t, Sign s t ∧ c.rest = t :: c'.rest) ∨
      (b = false ∧ nextKind c.rest ≠ .symbol s ∧ c' = c) :=
  accept_eq_ok (by nofun) h

theorem expectSign_eq_ok {s : Symbol} {c c' : Cursor} {u : Unit}
    (h : expectSign s c = .ok u c') : ∃ t, Sign s t ∧ c.rest = t :: c'.rest := by
  obtain ⟨t, d, ht, h⟩ := exists_of_bind_eq_ok h
  cases h
  obtain ⟨_, htoken⟩ := expect_eq_ok ht
  obtain ⟨hsign, hrest⟩ := htoken nofun
  exact ⟨t, hsign, hrest⟩

theorem expectName_eq_ok {c c' : Cursor} {name : String} (h : expectName c = .ok name c') :
    ∃ t, t.kind = .identifier ∧ t.value = name ∧ c.rest = t :: c'.rest := by
  obtain ⟨t, d, ht, h⟩ := exists_of_bind_eq_ok h
  cases h
  obtain ⟨_, htoken⟩ := expect_eq_ok ht
  obtain ⟨hkind, hrest⟩ := htoken nofun
  exact ⟨t, hkind, rfl, hrest⟩

/-! ## The tables of operators -/

theorem levels_entry : ∀ n < 8, ∀ entry ∈ levels.getD n [],
    entry.1 = entry.2.sign ∧ entry.2.level = n := by
  decide

/-- A token is an operator of a level exactly if it is the sign of one. -/
theorem operatorOf?_eq_some_iff {n : Nat} (hn : n < 8) {kind : Kind} {op : BinOp} :
    operatorOf? (levels.getD n []) kind = some op ↔ kind = .symbol op.sign ∧ op.level = n := by
  constructor
  · intro h
    obtain ⟨entry, hfind, rfl⟩ := Option.map_eq_some_iff.mp h
    obtain ⟨hsign, hlevel⟩ := levels_entry n hn entry (List.mem_of_find?_eq_some hfind)
    have hkind : kind = .symbol entry.1 := by simpa using List.find?_some hfind
    exact ⟨hsign ▸ hkind, hlevel⟩
  · rintro ⟨rfl, rfl⟩
    cases op <;> rfl

/-- The operators from a level on, one level for each round. -/
theorem levels_drop {n : Nat} (hn : n < 8) :
    levels.drop n = levels.getD n [] :: levels.drop (n + 1) := by
  have hlength : n < levels.length := hn
  rw [List.drop_eq_getElem_cons hlength, List.getD_eq_getElem?_getD,
    List.getElem?_eq_getElem hlength, Option.getD_some]

theorem prefixOf?_eq_some_iff {kind : Kind} {op : UnOp} :
    prefixOf? kind = some op ↔ kind = .symbol op.sign := by
  constructor
  · intro h
    unfold prefixOf? at h
    split at h <;> cases h <;> rfl
  · rintro rfl
    cases op <;> rfl

theorem assignment?_eq_some_iff {t : Token} {op : Option BinOp} :
    assignment? t.kind = some op ↔ Grammar.AssignSign op t := by
  constructor
  · intro h
    unfold assignment? at h
    split at h <;> cases h <;> exact ⟨_, rfl, by assumption⟩
  · rintro ⟨s, hs, ht⟩
    rw [show t.kind = .symbol s from ht]
    rcases op with _ | op
    · cases hs
      rfl
    · cases op <;> cases hs <;> rfl

theorem assignedName?_cons (passed : List Token) (t : Token) (rest : List Token) :
    assignedName? ⟨passed, t :: rest⟩ =
      if t.kind = .identifier then (assignment? (nextKind rest)).map (t.value, ·) else none := by
  cases rest with
  | nil => exact (ite_self none).symm
  | cons sign rest => rfl

theorem assigned_eq_stored (op : Option BinOp) (old value : Expr) :
    assigned op old value = Grammar.stored op old value := by
  cases op <;> rfl

end ClassScript.Parser
