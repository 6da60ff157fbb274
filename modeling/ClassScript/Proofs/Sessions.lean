import ClassScript.Proofs.Collection
import ClassScript.Proofs.CoupledCode
import ClassScript.Run.Session

/-!
# Sessions

A session begins afresh and goes on by running programs, well or not, and by collecting garbage. Its
state is well-formed between any two of these steps, and after every single change that a program
makes; no run fails because a container is missing. A collection in between does not show in any
later run.
-/

namespace ClassScript

/-! ## The start -/

namespace State

def startOn (sink : Sink) : State :=
  { State.start with sink }

theorem startOn_get {sink : Sink} {handle : Handle} {c : Container}
    (h : (startOn sink).heap.get handle = .ok c) :
    handle = 0 ∧ c = Builtin.plainClass "Object" none ∨
      handle = 1 ∧ c = Builtin.plainClass "Type" (some 0) ∨
      handle = 2 ∧ c = Builtin.stringClass 0 := by
  have hlt : handle < 3 := Heap.lt_size_of_get h
  match handle, hlt with
  | 0, _ => exact Or.inl ⟨rfl, (Except.ok.inj h).symm⟩
  | 1, _ => exact Or.inr (Or.inl ⟨rfl, (Except.ok.inj h).symm⟩)
  | 2, _ => exact Or.inr (Or.inr ⟨rfl, (Except.ok.inj h).symm⟩)

theorem grounded_startOn (sink : Sink) :
    (startOn sink).heap.Grounded (startOn sink).objectClass where
  above handle c hc up hup := by
    rcases startOn_get hc with ⟨rfl, rfl⟩ | ⟨rfl, rfl⟩ | ⟨rfl, rfl⟩
    · cases hup
    · cases hup
      exact ⟨by decide, _, rfl, rfl⟩
    · cases hup
      exact ⟨by decide, _, rfl, rfl⟩
  object := ⟨_, rfl, rfl, rfl⟩
  only handle c hc hkind := by
    rcases startOn_get hc with ⟨rfl, rfl⟩ | ⟨rfl, rfl⟩ | ⟨rfl, rfl⟩
    · rfl
    · cases hkind
    · cases hkind

/-- The horizon of a session that has not collected garbage yet. -/
abbrev everything : Horizon :=
  .beyond fun _ => False

theorem within_plainClass {s : State} (name : String) {parent : Option Handle}
    (hparent : ∀ handle, parent = some handle → (Node.container handle).Within everything s) :
    (Builtin.plainClass name parent).Within everything s where
  above := hparent
  constructors := (Function.Within.empty name).push (nofun : ∀ name, Native.nothing ≠ .host name)
  members _ hm := absurd hm List.not_mem_nil
  statics _ hm := absurd hm List.not_mem_nil
  binaryOps _ hf := absurd hf List.not_mem_nil
  unaryOps _ hf := absurd hf List.not_mem_nil

theorem within_printer {s : State} (name : String) {code : Native}
    (hcode : ∀ host, code ≠ .host host) : (Builtin.printer name code).Within everything s := by
  intro o ho
  obtain ⟨ty, _, rfl⟩ := List.mem_map.mp ho
  exact hcode

/-- At the start nothing is stale. -/
theorem intact_startOn (sink : Sink) : (startOn sink).Intact fun _ => False := by
  have hclass : ∀ handle < 3, (Node.container handle).Within everything (startOn sink) := by
    intro handle hlt
    refine ⟨not_false, fun _ => ?_⟩
    match handle, hlt with
    | 0, _ => exact ⟨_, rfl⟩
    | 1, _ => exact ⟨_, rfl⟩
    | 2, _ => exact ⟨_, rfl⟩
  have hparent : ∀ handle, some 0 = some handle →
      (Node.container handle).Within everything (startOn sink) := by
    rintro handle ⟨⟩
    exact hclass 0 (by decide)
  have hclosed : everything.Closed (startOn sink) := {
    frame := fun id frame _ hframe b hb => by
      have hid : id < 1 := (Array.getElem?_eq_some_iff.mp hframe).1
      obtain rfl := Nat.lt_one_iff.mp hid
      obtain rfl : Builtin.frame = frame := Option.some.inj hframe
      simp only [Builtin.frame, Assoc.values, List.map_cons, List.map_nil, List.mem_cons,
        List.not_mem_nil, or_false] at hb
      rcases hb with rfl | rfl | rfl | rfl | rfl
      · exact hclass 0 (by decide)
      · exact hclass 1 (by decide)
      · exact hclass 2 (by decide)
      · exact within_printer "print" nofun
      · exact within_printer "println" nofun
    list := fun id _ v hv => absurd (Lists.lt_size_of_mem_elements hv) (Nat.not_lt_zero _)
    container := fun handle c _ hc => by
      rcases startOn_get hc with ⟨rfl, rfl⟩ | ⟨rfl, rfl⟩ | ⟨rfl, rfl⟩
      · exact within_plainClass "Object" nofun
      · exact within_plainClass "Type" hparent
      · have hplain := within_plainClass "String" hparent
        refine { hplain with members := fun m hm => ?_, statics := fun m hm => ?_ }
        · rw [List.mem_singleton.mp hm]
          exact ⟨trivial, nofun⟩
        · rw [List.mem_singleton.mp hm]
          exact ⟨trivial, nofun⟩
    globals := fun id hid => by
      rw [List.mem_singleton.mp hid]
      exact ⟨not_false, fun _ => Nat.zero_lt_one⟩
    objectClass := hclass 0 (by decide)
    typeClass := hclass 1 (by decide)
    past := fun _ h => h.elim }
  exact ⟨hclosed, fun _ _ _ h => h, grounded_startOn sink⟩

theorem persists_collectGarbage (s : State) : s.heap.Persists s.collectGarbage.1.heap where
  size := by simp [State.collectGarbage, Store.collect, Heap.sweep]
  same _ c' _ hc' := ⟨c', (get_collectGarbage.mp hc').1, .refl c'⟩

end State

/-! ## Runs -/

namespace Session

def fresh (config : Config) (fuel : Nat) (sink : Sink) : Session where
  config := config
  fuel := fuel
  state := .startOn sink

inductive Reaches (s : Session) : Session → Prop
  | refl : Reaches s s
  | run {t : Session} (h : Reaches s t) (text file : String) : Reaches s (t.run text file).2
  | collect {t : Session} (h : Reaches s t) : Reaches s t.collectGarbage.2

def Reachable (s : Session) : Prop :=
  ∃ config fuel sink, Reaches (fresh config fuel sink) s

/-- Two actions that are coupled, as steps of a session. -/
theorem perform_coupled {H : Horizon} (hcut : ∀ why, ¬ H.cut why)
    {known : List (String × String)} {α : Type} {Q : State → α → Prop} {s s' : Session}
    {x x' : Exec α} (h : H.Coupled known Q s.state s'.state (x s.state) (x' s'.state)) :
    ∃ cs, H.Allows known s.state cs ∧ (s.perform x).2 = { s with state := s.state.after cs } ∧
      (s'.perform x').2 = { s' with state := s'.state.after cs } ∧
      (s'.perform x').1 = (s.perform x).1 ∧
      (∀ a, (s.perform x).1 = .ok a → Q (s.state.after cs) a) ∧
      (H.sound → ∀ handle, (s.perform x).1 ≠ .error (.fault (.missingObject handle))) := by
  unfold perform
  generalize x s.state = r at h
  generalize x' s'.state = r' at h
  cases h with
  | ok cs hcs _ a ha => exact ⟨cs, hcs, rfl, rfl, rfl, fun _ heq => Except.ok.inj heq ▸ ha, nofun⟩
  | halt cs hcs why hwhy =>
      refine ⟨cs, hcs, rfl, rfl, rfl, nofun, fun hsound handle heq => ?_⟩
      cases why with
      | outOfFuel => cases heq
      | fault f =>
          cases heq
          exact hwhy hsound handle rfl
  | cut why hwhy => exact absurd hwhy (hcut why)

/-- The same program from alike states. -/
theorem run_alike {s s' : Session} {stale : Node → Prop} (hconfig : s'.config = s.config)
    (hfuel : s'.fuel = s.fuel) (hs : (Horizon.beyond stale).Alike s.state s'.state)
    (text file : String) :
    ∃ cs, (Horizon.beyond stale).Allows [] s.state cs ∧
      (s.run text file).2 = { s with state := s.state.after cs } ∧
      (s'.run text file).2 = { s' with state := s'.state.after cs } ∧
      (s'.run text file).1 = (s.run text file).1 ∧
      (∀ v, (s.run text file).1 = .ok (some v) →
        v.Within (Horizon.beyond stale) (s.state.after cs)) ∧
      ∀ handle, (s.run text file).1 ≠ .error (.fault (.missingObject handle)) := by
  unfold run performOn
  cases statements text file with
  | error d => exact ⟨[], trivial, rfl, rfl, rfl, nofun, nofun⟩
  | ok program =>
      -- no function of the host is within the horizon
      have hhosts : (Horizon.beyond stale).Hosts s.config.host s'.config.host :=
        fun _ _ _ _ _ _ _ name hname => absurd rfl (hname name)
      have hmatch : (Horizon.beyond stale).Matches s.evaluator s'.evaluator := by
        have hdepth : s'.config.maxDepth = s.config.maxDepth := by rw [hconfig]
        unfold evaluator
        rw [hfuel]
        exact Horizon.matches_evaluator hhosts nofun (Or.inl hdepth) s.fuel
      obtain ⟨cs, hcs, hrun, hrun', hsame, hresult, hmissing⟩ :=
        perform_coupled (fun _ h => h) (hmatch.program program hs)
      exact ⟨cs, hcs, hrun, hrun', hsame, fun v hv => hresult _ hv v rfl, hmissing trivial⟩

/-- A run makes changes that leave the state intact, its result is sound, and it misses no
container. -/
theorem run_intact {s : Session} {stale : Node → Prop} (hs : s.state.Intact stale)
    (text file : String) :
    ∃ cs, (Horizon.beyond stale).Allows [] s.state cs ∧
      (s.run text file).2 = { s with state := s.state.after cs } ∧
      (∀ v, (s.run text file).1 = .ok (some v) → (s.state.after cs).Sound v) ∧
      ∀ handle, (s.run text file).1 ≠ .error (.fault (.missingObject handle)) := by
  obtain ⟨cs, hcs, hrun, _, _, hresult, hmissing⟩ := run_alike rfl rfl (.refl hs.closed) text file
  refine ⟨cs, hcs, hrun, fun v hv => ?_, hmissing⟩
  exact State.sound_of_within trivial (hs.closed.after hcs) (hresult v hv)

/-- Wherever a session goes from an intact state, its state is intact, and handles stand for what
they stood for. -/
theorem Reaches.intact {s t : Session} (h : s.Reaches t) {stale : Node → Prop}
    (hs : s.state.Intact stale) :
    (∃ stale, t.state.Intact stale) ∧ s.state.heap.Persists t.state.heap := by
  induction h with
  | refl => exact ⟨⟨stale, hs⟩, .refl _⟩
  | run _ text file ih =>
      obtain ⟨⟨stale', ht⟩, hpersists⟩ := ih
      obtain ⟨cs, hcs, hrun, _⟩ := run_intact ht text file
      rw [hrun]
      exact ⟨⟨stale', ht.after hcs⟩, hpersists.trans (State.persists_after _ (hcs.own id))⟩
  | collect _ ih =>
      obtain ⟨⟨stale', ht⟩, hpersists⟩ := ih
      exact ⟨⟨_, ht.collectGarbage⟩, hpersists.trans (State.persists_collectGarbage _)⟩

theorem Reachable.intact {s : Session} (h : s.Reachable) : ∃ stale, s.state.Intact stale := by
  obtain ⟨config, fuel, sink, hreaches⟩ := h
  exact (hreaches.intact (State.intact_startOn sink)).1

/-! ## Well-formedness -/

/-- The state of a session is well-formed and its questions have answers, and handles are never
given out again. So it is after each change of any later run. Such a run never misses a container,
and its result is sound. -/
theorem wellFormed_of_reachable {s : Session} (h : s.Reachable) :
    s.state.WellFormed ∧ s.state.Answers ∧
      (∀ t, s.Reaches t → s.state.heap.Persists t.state.heap) ∧
      ∀ text file, (∀ handle, (s.run text file).1 ≠ .error (.fault (.missingObject handle))) ∧
        (∀ v, (s.run text file).1 = .ok (some v) → (s.run text file).2.state.Sound v) ∧
        ∃ changes, (s.run text file).2.state = s.state.after changes ∧
          ∀ before, before <+: changes →
            (s.state.after before).WellFormed ∧ (s.state.after before).Answers := by
  obtain ⟨stale, hs⟩ := h.intact
  refine ⟨hs.wellFormed, hs.wellFormed.answers, fun t ht => (ht.intact hs).2, fun text file => ?_⟩
  obtain ⟨cs, hcs, hrun, hresult, hmissing⟩ := run_intact hs text file
  rw [hrun]
  refine ⟨hmissing, hresult, cs, rfl, fun before hbefore => ?_⟩
  have hduring := (hs.after (hcs.of_isPrefix hbefore)).wellFormed
  exact ⟨hduring, hduring.answers⟩

/-- A session that collects garbage after a class body that uses a name without a meaning. -/
theorem wellFormed_after_failure :
    let text := "var o = Object(); class A \x7b var x = o; var y = z \x7d"
    let s := ((fresh {} 100 {}).run text "a").2.collectGarbage.2
    s.Reachable ∧ s.state.WellFormed := by
  intro text s
  have hreachable : s.Reachable := ⟨{}, 100, {}, .collect (.run .refl text "a")⟩
  exact ⟨hreachable, (wellFormed_of_reachable hreachable).1⟩

end Session

/-! ## Collections do not show -/

/-- Two states that agree on everything but containers that no program can get to. -/
structure State.SameButGarbage (s t : State) : Prop where
  frames : t.frames = s.frames
  lists : t.lists = s.lists
  nextHandle : t.heap.slots.size = s.heap.slots.size
  containers : ∀ handle, s.Live (.container handle) →
    t.heap.slots[handle]? = s.heap.slots[handle]?
  live : ∀ n, t.Live n ↔ s.Live n
  registry : t.registry = s.registry
  globals : t.globals = s.globals
  objectClass : t.objectClass = s.objectClass
  typeClass : t.typeClass = s.typeClass
  callDepth : t.callDepth = s.callDepth
  context : t.context = s.context
  sink : t.sink = s.sink
  kept : t.kept = s.kept

namespace State

/-- A program can get to the same points in alike states. -/
theorem live_iff_of_alike {H : Horizon} {s t : State} (hst : H.Alike s t) (n : Node) :
    t.Live n ↔ s.Live n := by
  have hanchors : t.anchors = s.anchors := by
    simp only [anchors, hst.globals, hst.objectClass, hst.typeClass]
  have harrows : ∀ {a : Node}, s.Live a → t.toStore.arrows a = s.toStore.arrows a := by
    intro a ha
    cases a with
    | container handle => simp only [Store.arrows, hst.get_eq (within_of_live hst.closed ha)]
    | list id => simp only [Store.arrows, hst.lists]
    | frame id => simp only [Store.arrows, hst.frames]
  constructor
  · intro h
    refine h.mem_of_closed (fun a ha => .base (hanchors ▸ ha)) fun a ha b hb => ?_
    exact .step ha (harrows ha ▸ hb)
  · intro h
    have hboth : s.Live n ∧ t.Live n := by
      refine h.mem_of_closed (p := fun n => s.Live n ∧ t.Live n)
        (fun a ha => ⟨.base ha, .base (hanchors.symm ▸ ha)⟩)
        fun a ha b hb => ⟨.step ha.1 hb, .step ha.2 ?_⟩
      rw [harrows ha.1]
      exact hb
    exact hboth.2

end State

namespace Session

/-- A program does the same before and after a collection: it has the same result, or fails with the
same message; it prints the same; and the states that it leaves differ in garbage only. -/
theorem run_collectGarbage {s : Session} (h : s.Reachable) (text file : String) :
    (s.collectGarbage.2.run text file).1 = (s.run text file).1 ∧
      (s.collectGarbage.2.run text file).2.state.sink = (s.run text file).2.state.sink ∧
      (s.run text file).2.state.SameButGarbage (s.collectGarbage.2.run text file).2.state := by
  obtain ⟨stale, hs⟩ := h.intact
  have halike : (Horizon.beyond s.state.Garbage).Alike s.state s.collectGarbage.2.state :=
    hs.alike_collectGarbage
  obtain ⟨cs, hcs, hrun, hrun', hsame, _⟩ :=
    run_alike (show s.collectGarbage.2.config = s.config from rfl) rfl halike text file
  have hafter := halike.after hcs
  rw [hrun, hrun']
  refine ⟨hsame, hafter.sink, ?_⟩
  exact { hafter with
    nextHandle := hafter.size
    containers := fun handle hlive =>
      hafter.slots handle (State.within_of_live hafter.closed hlive).1
    live := State.live_iff_of_alike hafter
    context := by rw [State.after_context, State.after_context]; rfl }

/-- A collection that drops an instance, before a program that prints and makes another one. -/
theorem run_collectGarbage_dropped :
    let s := ((fresh {} 100 {}).run "class A \x7b \x7d A()" "a").2
    s.Reachable ∧
      (s.collectGarbage.2.run "println(A); A()" "b").1 = (s.run "println(A); A()" "b").1 := by
  intro s
  have hreachable : s.Reachable := ⟨{}, 100, {}, .run .refl "class A \x7b \x7d A()" "a"⟩
  exact ⟨hreachable, (run_collectGarbage hreachable "println(A); A()" "b").1⟩

end Session

end ClassScript
