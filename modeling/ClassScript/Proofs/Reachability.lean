/-!
# The closure of a graph is what can be reached

`Reach.closure` spreads from its starting points in rounds. Here it is compared with the plain
inductive notion of a path. One direction holds for any number of rounds. The other needs enough of
them: every round either finds a point with arrows that was not seen before, or it is the last one
that finds anything.
-/

namespace ClassScript.Reach

variable {α : Type}

inductive Reachable (arrows : α → List α) (start : List α) : α → Prop
  | base {a : α} (h : a ∈ start) : Reachable arrows start a
  | step {a b : α} (ha : Reachable arrows start a) (hb : b ∈ arrows a) : Reachable arrows start b

/-- A set that has the starting points and everything its members lead to has all that can be
reached. -/
theorem Reachable.mem_of_closed {arrows : α → List α} {start : List α} {p : α → Prop}
    (hstart : ∀ a ∈ start, p a) (hstep : ∀ a, p a → ∀ b ∈ arrows a, p b) {a : α}
    (h : Reachable arrows start a) : p a := by
  induction h with
  | base h => exact hstart _ h
  | step _ hb ih => exact hstep _ ih _ hb

variable [DecidableEq α]

/-- The points seen so far, the new ones of the frontier, and what they lead to. Each round but the
last finds a new point, so that as many rounds as there are points with arrows, and one more, are
enough. -/
def spread (arrows : α → List α) : (rounds : Nat) → (seen frontier : List α) → List α
  | 0, seen, _ => seen
  | rounds + 1, seen, frontier =>
    match (frontier.filter fun a => decide (a ∉ seen)).eraseDups with
    | [] => seen
    | fresh => spread arrows rounds (fresh ++ seen) (fresh.flatMap arrows)

def closure (arrows : α → List α) (size : Nat) (start : List α) : List α :=
  spread arrows (size + 1) [] start

def fresh (seen frontier : List α) : List α :=
  (frontier.filter fun a => decide (a ∉ seen)).eraseDups

theorem mem_fresh {seen frontier : List α} {a : α} :
    a ∈ fresh seen frontier ↔ a ∈ frontier ∧ a ∉ seen := by
  simp [fresh, List.mem_eraseDups]

theorem spread_succ (arrows : α → List α) (rounds : Nat) (seen frontier : List α) :
    spread arrows (rounds + 1) seen frontier =
      if fresh seen frontier = [] then seen
      else spread arrows rounds (fresh seen frontier ++ seen)
        ((fresh seen frontier).flatMap arrows) := by
  rw [spread]
  generalize hnew : (frontier.filter fun a => decide (a ∉ seen)).eraseDups = new
  rw [show fresh seen frontier = new from hnew]
  cases new <;> simp

theorem spread_nil (arrows : α → List α) (rounds : Nat) (seen : List α) :
    spread arrows rounds seen [] = seen := by
  cases rounds with
  | zero => rfl
  | succ rounds => simp [spread_succ, fresh]

/-- Whatever the rounds find has been there before or can be reached. -/
theorem reachable_of_mem_spread {arrows : α → List α} {start : List α} (rounds : Nat)
    {seen frontier : List α} (hseen : ∀ a ∈ seen, Reachable arrows start a)
    (hfrontier : ∀ a ∈ frontier, Reachable arrows start a) {a : α}
    (h : a ∈ spread arrows rounds seen frontier) : Reachable arrows start a := by
  induction rounds generalizing seen frontier with
  | zero => exact hseen a h
  | succ rounds ih =>
      rw [spread_succ] at h
      split at h
      · exact hseen a h
      · have hfresh : ∀ b ∈ fresh seen frontier, Reachable arrows start b := fun b hb =>
          hfrontier b (mem_fresh.mp hb).1
        refine ih ?_ ?_ h
        · intro b hb
          rcases List.mem_append.mp hb with hb | hb
          · exact hfresh b hb
          · exact hseen b hb
        · intro c hc
          obtain ⟨b, hb, hbc⟩ := List.mem_flatMap.mp hc
          exact .step (hfresh b hb) hbc

def unseen (points seen : List α) : Nat :=
  (points.filter fun a => decide (a ∉ seen)).length

theorem unseen_lt {points seen seen' : List α} {a : α} (hsub : ∀ b ∈ seen, b ∈ seen')
    (ha : a ∈ points) (hnew : a ∈ seen') (hseen : a ∉ seen) :
    unseen points seen' < unseen points seen := by
  unfold unseen
  have hfilter : (points.filter fun b => decide (b ∉ seen')) =
      (points.filter fun b => decide (b ∉ seen)).filter fun b => decide (b ∉ seen') := by
    rw [List.filter_filter]
    refine List.filter_congr fun b _ => ?_
    have hout : b ∉ seen' → b ∉ seen := mt (hsub b)
    by_cases hb : b ∈ seen' <;> simp [hb, hout]
  rw [hfilter]
  refine List.length_filter_lt_length_iff_exists.mpr ⟨a, ?_, by simpa using hnew⟩
  simpa using ⟨ha, hseen⟩

theorem unseen_append_lt {points seen new : List α} {a : α} (ha : a ∈ points) (hnew : a ∈ new)
    (hseen : a ∉ seen) : unseen points (new ++ seen) < unseen points seen :=
  unseen_lt (fun _ => List.mem_append_right _) ha (List.mem_append_left _ hnew) hseen

theorem unseen_anti {seen seen' : List α} (points : List α) (h : ∀ a ∈ seen, a ∈ seen') :
    unseen points seen' ≤ unseen points seen := by
  rw [unseen, unseen, ← List.countP_eq_length_filter, ← List.countP_eq_length_filter]
  refine List.countP_mono_left fun a _ ha => ?_
  simp only [decide_eq_true_eq] at ha ⊢
  exact mt (h a) ha

theorem unseen_le_length (points seen : List α) : unseen points seen ≤ points.length :=
  List.length_filter_le _ _

/-- What has arrows is among `points`, and there are more rounds than such points that were not seen
yet. Then the rounds end with a set that nothing leads out of. -/
theorem spread_closed {arrows : α → List α} {points : List α}
    (hpoints : ∀ a b, b ∈ arrows a → a ∈ points) (rounds : Nat) {seen frontier : List α}
    (hinv : ∀ a ∈ seen, ∀ b ∈ arrows a, b ∈ seen ∨ b ∈ frontier)
    (hrounds : unseen points seen < rounds) :
    (∀ a, a ∈ seen ∨ a ∈ frontier → a ∈ spread arrows rounds seen frontier) ∧
      ∀ a ∈ spread arrows rounds seen frontier, ∀ b ∈ arrows a,
        b ∈ spread arrows rounds seen frontier := by
  induction rounds generalizing seen frontier with
  | zero => exact absurd hrounds (Nat.not_lt_zero _)
  | succ rounds ih =>
      rw [spread_succ]
      have hsplit : ∀ a, a ∈ seen ∨ a ∈ frontier → a ∈ fresh seen frontier ++ seen := by
        intro a ha
        by_cases hs : a ∈ seen
        · exact List.mem_append_right _ hs
        · exact List.mem_append_left _ (mem_fresh.mpr ⟨ha.resolve_left hs, hs⟩)
      split
      case isTrue hnone =>
        rw [hnone] at hsplit
        exact ⟨hsplit, fun a ha b hb => hsplit b (hinv a ha b hb)⟩
      case isFalse hsome =>
        have hinv' : ∀ a ∈ fresh seen frontier ++ seen, ∀ b ∈ arrows a,
            b ∈ fresh seen frontier ++ seen ∨ b ∈ (fresh seen frontier).flatMap arrows := by
          intro a ha b hb
          rcases List.mem_append.mp ha with ha | ha
          · exact Or.inr (List.mem_flatMap.mpr ⟨a, ha, hb⟩)
          · exact Or.inl (hsplit b (hinv a ha b hb))
        by_cases hpoint : ∃ a ∈ fresh seen frontier, a ∈ points
        · obtain ⟨a, ha, hp⟩ := hpoint
          have hless := unseen_append_lt hp ha (mem_fresh.mp ha).2
          obtain ⟨hmem, hclosed⟩ := ih hinv' (by omega)
          exact ⟨fun b hb => hmem b (Or.inl (hsplit b hb)), hclosed⟩
        · -- the new points lead nowhere, so that the rounds after this one find nothing
          have hdead : (fresh seen frontier).flatMap arrows = [] := by
            rw [List.flatMap_eq_nil_iff]
            intro a ha
            refine List.eq_nil_iff_forall_not_mem.mpr fun b hb => ?_
            exact hpoint ⟨a, ha, hpoints a b hb⟩
          rw [hdead] at hinv' ⊢
          rw [spread_nil]
          refine ⟨hsplit, fun a ha b hb => ?_⟩
          exact (hinv' a ha b hb).resolve_right (List.not_mem_nil)

/-- The closure is the set of all points that can be reached, if not more points have arrows than it
is told. -/
theorem mem_closure_iff {arrows : α → List α} {points : List α} {size : Nat} {start : List α}
    (hpoints : ∀ a b, b ∈ arrows a → a ∈ points) (hsize : points.length ≤ size) {a : α} :
    a ∈ closure arrows size start ↔ Reachable arrows start a := by
  have hrounds : unseen points ([] : List α) < size + 1 := by
    have := unseen_le_length points []
    omega
  have hinv : ∀ a ∈ ([] : List α), ∀ b ∈ arrows a, b ∈ ([] : List α) ∨ b ∈ start :=
    fun _ h => absurd h List.not_mem_nil
  obtain ⟨hmem, hclosed⟩ := spread_closed hpoints (size + 1) hinv hrounds
  constructor
  · exact reachable_of_mem_spread _ (fun _ h => absurd h List.not_mem_nil) fun _ h => .base h
  · exact Reachable.mem_of_closed (fun b hb => hmem b (Or.inr hb)) hclosed

end ClassScript.Reach
