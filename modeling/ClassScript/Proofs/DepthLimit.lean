import ClassScript.Proofs.Callers
import ClassScript.Proofs.Guidance

/-!
# What the limit on calls does

A run that needs more calls than it may have ends with an overflow. Nothing else in a run depends on
the limit, and no code can catch an overflow. So a run that ends in any other way ends like that
under every higher limit, and leaves the same state. The same holds of the fuel.
-/

namespace ClassScript

def Halt.Exhausted : Halt → Prop
  | .fault f => f.kind = .depth
  | .outOfFuel => True

/-- A run comes to its own end: with a result, or by a fault that is no overflow. -/
def Exec.Completes {α : Type} (r : EStateM.Result Halt State α) : Prop :=
  ∀ why, ending r = .error why → ¬ why.Exhausted

def Regime.untilExhausted : Regime where
  depth _ := True
  cut := Halt.Exhausted

/-- A host that hands on the overflow of a call, and otherwise does the same under every limit, if
calls do. It leaves the depth of calls and the context as they are. -/
def Host.Relays (host : Host) : Prop :=
  Regime.untilExhausted.Hosts host host

theorem Regime.Ends.eq_of_completes {α : Type} {s : State} {r r' : EStateM.Result Halt State α}
    (h : Regime.untilExhausted.Ends s r r') (hr : Exec.Completes r) : r' = r := by
  cases h with
  | ok a t => rfl
  | halt why t => rfl
  | cut why hwhy t => exact absurd hwhy (hr why rfl)

/-- The evaluator that may do more follows the one that may do less. -/
theorem Host.Relays.guides {host : Host} (hhost : host.Relays) {low high : Nat}
    (hlimit : low ≤ high) {fuel fuel' : Nat} (hfuel : fuel ≤ fuel') :
    Regime.untilExhausted.Guides (evaluator { maxDepth := low, host } fuel)
      (evaluator { maxDepth := high, host } fuel') := by
  have hhosts : Regime.untilExhausted.Hosts host host := hhost
  have henter : ∀ depth, Regime.untilExhausted.depth depth → depth < low →
      depth < high ∧ Regime.untilExhausted.depth (depth + 1) :=
    fun _ _ hlow => ⟨Nat.lt_of_lt_of_le hlow hlimit, trivial⟩
  have hoverflow : Regime.untilExhausted.cut (.fault (.depthExceeded low)) := rfl
  have hout : Regime.untilExhausted.cut .outOfFuel := trivial
  exact Regime.guides_evaluator hhosts henter (Or.inl hoverflow) (Or.inr ⟨hfuel, hout⟩)

/-- A program that comes to its own end under one limit does the same under every higher one: it has
the same result or the same fault, and it leaves the same state with all that it printed. -/
theorem program_eq_of_limit_le {host : Host} (hhost : host.Relays) {low high : Nat}
    (hlimit : low ≤ high) {fuel fuel' : Nat} (hfuel : fuel ≤ fuel') (program : List Stmt)
    (s : State)
    (hrun : Exec.Completes ((evaluator { maxDepth := low, host } fuel).program program s)) :
    (evaluator { maxDepth := high, host } fuel').program program s =
      (evaluator { maxDepth := low, host } fuel).program program s := by
  have hfollows := (hhost.guides hlimit hfuel).program program
  exact (hfollows s trivial).eq_of_completes hrun

def twoCalls : List Stmt :=
  let call (name : String) : Expr := .call (.var name) []
  let function (name : String) (value : Expr) : Stmt :=
    .function { name, params := [], returnType := none, body := .ret (some value) }
  [function "f" (call "g"), function "g" (.string "done"), .expr (call "f")]

/-- Two calls are enough for the program, and more do not matter; one call is too few. -/
theorem twoCalls_eq_of_limit_le :
    let run (limit fuel : Nat) :=
      (evaluator { maxDepth := limit, host := .toolkit } fuel).program twoCalls State.start
    Exec.Completes (run 2 20) ∧ run 7 30 = run 2 20 ∧ ¬ Exec.Completes (run 1 20) := by
  intro run
  have henough : Exec.Completes (run 2 20) := by
    intro why hwhy
    have hending : Exec.ending (run 2 20) = .ok (some (.string "done")) := rfl
    rw [hwhy] at hending
    cases hending
  have hhost : Host.toolkit.Relays := Regime.hosts_toolkit _
  have hmore := program_eq_of_limit_le hhost (show 2 ≤ 7 by decide) (show 20 ≤ 30 by decide)
    twoCalls State.start henough
  have hoverflow : Exec.ending (run 1 20) = .error (.fault (.depthExceeded 1)) := rfl
  exact ⟨henough, hmore, fun hcompletes => hcompletes _ hoverflow rfl⟩

end ClassScript
