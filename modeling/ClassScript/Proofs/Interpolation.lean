import ClassScript.Proofs.Callers
import ClassScript.Proofs.FailedClasses
import ClassScript.Proofs.Guidance
import Mathlib.Data.List.Induction

/-!
# Interpolation is addition

A template has the value of a sum: the empty text and the parts of the template, added one after the
other. The two spend their fuel in different ways, so they are compared by what they come to when
there is enough of it. More fuel changes nothing once a run has come to an end, and therefore what
code comes to can be said of its parts in turn.
-/

namespace ClassScript

def Regime.untilSpent : Regime where
  depth _ := True
  cut why := why = .outOfFuel

/-- A host that does the same with more fuel, if calls do. It leaves the depth of calls and the
context as they are. -/
def Host.Steady (host : Host) : Prop :=
  Regime.untilSpent.Hosts host host

namespace Config

variable {α β : Type} {config : Config} {s : State} {r : EStateM.Result Halt State α}

/-- What code comes to: a result, with the state it leaves, that it has with enough fuel. -/
def Yields (config : Config) (x : Evaluator → Exec α) (s : State)
    (r : EStateM.Result Halt State α) : Prop :=
  (∀ t, r ≠ .error .outOfFuel t) ∧ ∃ fuel, x (evaluator config fuel) s = r

/-- Code does the same with more fuel, unless it was out of fuel before. -/
def Steady (config : Config) (x : Evaluator → Exec α) : Prop :=
  ∀ fuel fuel', fuel ≤ fuel' →
    Regime.untilSpent.Follows (x (evaluator config fuel)) (x (evaluator config fuel'))

def Alike (config : Config) (x y : Evaluator → Exec α) : Prop :=
  ∀ s r, config.Yields x s r ↔ config.Yields y s r

/-! ## Fuel -/

theorem Steady.of_guides (hhost : config.host.Steady) {x : Evaluator → Exec α}
    (h : ∀ {ev ev'}, Regime.untilSpent.Guides ev ev' → Regime.untilSpent.Follows (x ev) (x ev')) :
    config.Steady x := by
  intro fuel fuel' hle
  have hhosts : Regime.untilSpent.Hosts config.host config.host := hhost
  exact h (Regime.guides_evaluator hhosts (fun _ _ hlow => ⟨hlow, trivial⟩) (Or.inr rfl)
    (Or.inr ⟨hle, rfl⟩))

theorem Steady.eq_of_le {x : Evaluator → Exec α} (h : config.Steady x)
    (hr : ∀ t, r ≠ .error .outOfFuel t) {fuel fuel' : Nat} (hfuel : x (evaluator config fuel) s = r)
    (hle : fuel ≤ fuel') : x (evaluator config fuel') s = r := by
  have hends := h fuel fuel' hle s trivial
  rw [hfuel] at hends
  generalize x (evaluator config fuel') s = r' at hends
  cases hends with
  | ok a t => rfl
  | halt why t => rfl
  | cut why hwhy t => exact absurd (congrArg (EStateM.Result.error · t) hwhy) (hr t)

theorem Yields.unique {x : Evaluator → Exec α} (hx : config.Steady x)
    {r' : EStateM.Result Halt State α} (h : config.Yields x s r) (h' : config.Yields x s r') :
    r = r' := by
  obtain ⟨hr, fuel, hfuel⟩ := h
  obtain ⟨hr', fuel', hfuel'⟩ := h'
  have heq := hx.eq_of_le hr hfuel (Nat.le_max_left fuel fuel')
  exact heq.symm.trans (hx.eq_of_le hr' hfuel' (Nat.le_max_right fuel fuel'))

/-! ## What sequences come to -/

theorem yields_bind_iff {x : Evaluator → Exec α} {f : α → Evaluator → Exec β}
    (hx : config.Steady x) (hf : ∀ a, config.Steady (f a)) {r : EStateM.Result Halt State β} :
    config.Yields (fun ev => x ev >>= fun a => f a ev) s r ↔
      (∃ a t, config.Yields x s (.ok a t) ∧ config.Yields (f a) t r) ∨
        ∃ why t, config.Yields x s (.error why t) ∧ r = .error why t := by
  constructor
  · rintro ⟨hr, fuel, h⟩
    cases hxs : x (evaluator config fuel) s with
    | ok a t =>
        exact Or.inl ⟨a, t, ⟨by simp, fuel, hxs⟩, hr, fuel, (bind_eq_of_ok hxs).symm.trans h⟩
    | error why t =>
        obtain rfl := (bind_eq_of_error hxs).symm.trans h
        refine Or.inr ⟨why, t, ⟨fun u hu => ?_, fuel, hxs⟩, rfl⟩
        cases hu
        exact hr t rfl
  · rintro (⟨a, t, ⟨hok, fuel, hxs⟩, hr, fuel', hfs⟩ | ⟨why, t, ⟨hwhy, fuel, hxs⟩, rfl⟩)
    · have hfirst := hx.eq_of_le hok hxs (Nat.le_max_left fuel fuel')
      have hsecond := (hf a).eq_of_le hr hfs (Nat.le_max_right fuel fuel')
      exact ⟨hr, max fuel fuel', (bind_eq_of_ok hfirst).trans hsecond⟩
    · refine ⟨fun u hu => ?_, fuel, bind_eq_of_error hxs⟩
      cases hu
      exact hwhy t rfl

namespace Alike

theorem of_eq {x y : Evaluator → Exec α} (h : ∀ ev, x ev = y ev) : config.Alike x y := by
  obtain rfl : x = y := funext h
  exact fun _ _ => Iff.rfl

theorem trans {x y z : Evaluator → Exec α} (hxy : config.Alike x y) (hyz : config.Alike y z) :
    config.Alike x z :=
  fun s r => (hxy s r).trans (hyz s r)

theorem bind {x y : Evaluator → Exec α} {f g : α → Evaluator → Exec β} (hx : config.Steady x)
    (hy : config.Steady y) (hf : ∀ a, config.Steady (f a)) (hg : ∀ a, config.Steady (g a))
    (hxy : config.Alike x y) (hfg : ∀ a, config.Alike (f a) (g a)) :
    config.Alike (fun ev => x ev >>= fun a => f a ev) (fun ev => y ev >>= fun a => g a ev) := by
  intro s r
  simp only [yields_bind_iff hx hf, yields_bind_iff hy hg, hxy s, hfg _ _ r]

/-- An evaluator comes to what one step into the expression comes to. -/
theorem evalStep (scope : Scope) (e : Expr) :
    config.Alike (fun ev => ev.eval scope e) (fun ev => ev.evalStep scope e) := by
  intro s r
  constructor
  · rintro ⟨hr, fuel, h⟩
    cases fuel with
    | zero => exact absurd h.symm (hr s)
    | succ fuel => exact ⟨hr, fuel, h⟩
  · rintro ⟨hr, fuel, h⟩
    exact ⟨hr, fuel + 1, h⟩

end Alike

end Config

/-! ## Sums of text -/

def TemplatePart.operand : TemplatePart → Expr
  | .text value => .string value
  | .code e => e

/-- The parts of a template, added to the empty text one after the other. -/
def TemplatePart.sum (parts : List TemplatePart) : Expr :=
  parts.foldl (fun total part => .binary .add total part.operand) (.string "")

namespace Evaluator

open Exec

theorem textOf_string (s : State) (text : String) : s.textOf (.string text) = .ok text := by
  unfold State.textOf
  cases s.lists.size <;> rfl

theorem ask_textOf_string (text : String) : ask (·.textOf (.string text)) = pure text := by
  funext s
  unfold ask
  dsimp only
  rw [textOf_string]
  rfl

theorem builtin_add_string (s : State) (text : String) (value : Value) :
    BinOp.builtin s .add (.string text) value =
      (fun more => some (.string (text ++ more))) <$> s.textOf value := by
  have hjoined : BinOp.builtin s .add (.string text) value =
      (some ∘ .string) <$> BinOp.joined s (.string text) value := by
    cases value <;> rfl
  rw [hjoined, BinOp.joined, textOf_string]
  cases s.textOf value <;> rfl

/-- To add anything to a text is to append its text, whatever operators its class has. -/
theorem binary_add_string (ev : Evaluator) (text : String) (value : Value) :
    binary ev .add (.string text) value =
      (fun more => .string (text ++ more)) <$> ask (·.textOf value) := by
  funext s
  have hask : ask (BinOp.builtin · .add (.string text) value) s =
      EStateM.map (fun more => some (.string (text ++ more))) (ask (·.textOf value)) s := by
    unfold EStateM.map ask
    dsimp only
    rw [builtin_add_string]
    cases s.textOf value <;> rfl
  unfold binary
  rw [if_neg (by decide)]
  change _ = EStateM.map _ _ s
  unfold EStateM.map at hask ⊢
  cases htext : ask (·.textOf value) s with
  | ok more t =>
      rw [htext] at hask
      exact bind_eq_of_ok hask
  | error why t =>
      rw [htext] at hask
      exact bind_eq_of_error hask

def partText (ev : Evaluator) (scope : Scope) (text : String) : TemplatePart → Exec String
  | .text more => return text ++ more
  | .code e => do
    let value ← ev.eval scope e
    return text ++ (← ask (·.textOf value))

theorem templateText_concat (ev : Evaluator) (scope : Scope) (text : String)
    (parts : List TemplatePart) (part : TemplatePart) :
    templateText ev scope text (parts ++ [part]) =
      templateText ev scope text parts >>= fun text => partText ev scope text part := by
  induction parts generalizing text with
  | nil => cases part <;> simp [templateText, partText]
  | cons first parts ih =>
      cases first with
      | text more => exact ih (text ++ more)
      | code e =>
          simp only [List.cons_append, templateText, bind_assoc]
          simp only [ih]

end Evaluator

theorem Regime.Guides.partText {R : Regime} {ev ev' : Evaluator} (h : R.Guides ev ev')
    (scope : Scope) (text : String) (part : TemplatePart) :
    R.Follows (ev.partText scope text part) (ev'.partText scope text part) := by
  cases part with
  | text more => exact .pure _
  | code e => exact .bind (h.eval scope e) fun value => .bind (.ask _) fun _ => .pure _

namespace Config.Alike

open Evaluator

variable {config : Config}

/-- A part is added as its text. -/
theorem add_operand (hhost : config.host.Steady) (scope : Scope) (text : String)
    (part : TemplatePart) :
    config.Alike
      (fun ev => ev.eval scope part.operand >>= fun value => ev.binary .add (.string text) value)
      (fun ev => .string <$> ev.partText scope text part) := by
  cases part with
  | text more =>
      have hstep : config.Alike
          (fun ev => ev.eval scope (.string more) >>=
            fun value => ev.binary .add (.string text) value)
          (fun ev => ev.evalStep scope (.string more) >>=
            fun value => ev.binary .add (.string text) value) :=
        .bind (.of_guides hhost fun h => h.eval _ _) (.of_guides hhost fun h => h.evalStep _ _)
          (fun _ => .of_guides hhost fun h => h.binary _ _ _)
          (fun _ => .of_guides hhost fun h => h.binary _ _ _) (.evalStep _ _)
          fun _ => .of_eq fun _ => rfl
      refine hstep.trans (.of_eq fun ev => ?_)
      have hvalue : ev.evalStep scope (.string more) = pure (.string more) := rfl
      rw [hvalue, pure_bind, binary_add_string, ask_textOf_string, partText, map_pure, map_pure]
  | code e =>
      refine .of_eq fun ev => ?_
      simp only [binary_add_string, partText, TemplatePart.operand, map_bind, bind_pure_comp,
        Functor.map_map]

/-- A sum of parts comes to the text of the template. -/
theorem sum (hhost : config.host.Steady) (scope : Scope) (parts : List TemplatePart) :
    config.Alike (fun ev => ev.eval scope (TemplatePart.sum parts))
      (fun ev => .string <$> ev.templateText scope "" parts) := by
  induction parts using List.reverseRecOn with
  | nil => exact (Alike.evalStep scope (.string "")).trans (.of_eq fun _ => rfl)
  | append_singleton parts part ih =>
      have hsum : TemplatePart.sum (parts ++ [part]) =
          .binary .add (TemplatePart.sum parts) part.operand := by
        rw [TemplatePart.sum, List.foldl_concat, ← TemplatePart.sum]
      have htext : config.Steady fun ev => ev.templateText scope "" parts :=
        .of_guides hhost fun h => h.templateText scope "" parts
      have hadd : ∀ left, config.Steady fun ev =>
          ev.eval scope part.operand >>= fun right => ev.binary .add left right := fun left =>
        .of_guides hhost fun h => .bind (h.eval scope _) fun right => h.binary .add left right
      have hpart : ∀ text, config.Steady fun ev => Value.string <$> ev.partText scope text part :=
        fun text => .of_guides hhost fun h => .map _ (h.partText scope text part)
      rw [hsum]
      refine (Alike.evalStep scope _).trans ?_
      -- the sum so far has the text of the template so far
      refine (Alike.bind (.of_guides hhost fun h => h.eval scope _) ?_ hadd hadd ih
        fun _ => .of_eq fun _ => rfl).trans ?_
      · exact .of_guides hhost fun h => .map _ (h.templateText scope "" parts)
      -- and the next part is added to it as a text
      · refine .trans (.of_eq fun ev => bind_map_left _ _ _) ?_
        refine (Alike.bind htext htext (fun text => hadd (.string text)) hpart
          (.of_eq fun _ => rfl) fun text => add_operand hhost scope text part).trans ?_
        refine .of_eq fun ev => ?_
        rw [templateText_concat, map_bind]

end Config.Alike

/-- What an expression comes to in a state, with enough fuel. -/
def Config.Evaluates (config : Config) (scope : Scope) (e : Expr) (s : State)
    (r : EStateM.Result Halt State Value) : Prop :=
  config.Yields (fun ev => ev.eval scope e) s r

/-- A template comes to what the sum of its parts comes to: the same value or the same fault, and
the same state with all that was printed. -/
theorem template_evaluates_as_sum {config : Config} (hhost : config.host.Steady) (scope : Scope)
    (parts : List TemplatePart) (s : State) (r : EStateM.Result Halt State Value) :
    (config.Evaluates scope (.template parts) s r ↔
      config.Evaluates scope (TemplatePart.sum parts) s r) ∧
      ∀ r', config.Evaluates scope (.template parts) s r →
        config.Evaluates scope (TemplatePart.sum parts) s r' → r' = r := by
  have htemplate : config.Alike (fun ev => ev.eval scope (.template parts))
      (fun ev => .string <$> ev.templateText scope "" parts) :=
    (Config.Alike.evalStep scope _).trans (.of_eq fun _ => bind_pure_comp _ _)
  have hsame := (htemplate s r).trans (Config.Alike.sum hhost scope parts s r).symm
  refine ⟨hsame, fun r' hr hr' => ?_⟩
  exact Config.Yields.unique (.of_guides hhost fun h => h.eval scope _) hr' (hsame.mp hr)

/-- A class whose instances have a sum of their own. -/
def summingClass : ClassDecl where
  name := "C"
  bases := []
  members :=
    [{ access := .everywhere, isStatic := false
       body := .binary .add
        { name := "operator +", params := [{ name := "x", ty := .object, default := none }],
          returnType := none, body := .ret (some (.string "own")) } }]

/-- An instance that is interpolated is not asked for its own sum, which it has. -/
theorem template_evaluates_as_sum_own :
    let config : Config := { host := .toolkit }
    let s := ((evaluator config 20).exec State.start.globals (.classDecl summingClass)).final
      State.start
    let parts : List TemplatePart := [.code (.call (.var "C") []), .text ", ", .code .null]
    let r := (evaluator config 20).eval s.globals (.template parts) s
    Host.toolkit.Steady ∧ Exec.ending r = .ok (.string "[object C], null") ∧
      config.Evaluates s.globals (TemplatePart.sum parts) s r ∧
      Exec.ending ((evaluator config 20).eval s.globals
        (.binary .add (.call (.var "C") []) .null) s) = .ok (.string "own") := by
  intro config s parts r
  have hhost : Host.toolkit.Steady := Regime.hosts_toolkit _
  have hconfig : config.host.Steady := hhost
  have hending : Exec.ending r = .ok (.string "[object C], null") := rfl
  have hr : config.Evaluates s.globals (.template parts) s r := by
    refine ⟨fun t ht => ?_, 20, rfl⟩
    rw [ht] at hending
    cases hending
  exact ⟨hhost, hending, (template_evaluates_as_sum hconfig s.globals parts s r).1.mp hr, rfl⟩

end ClassScript
