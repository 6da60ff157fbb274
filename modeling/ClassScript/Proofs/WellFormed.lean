import ClassScript.Proofs.Chains
import ClassScript.Proofs.Reachability

/-!
# Well-formed states

What a session can rely on between any two steps: handles are in range, every container stands on
classes that were made before it, every chain of parents ends at `Object`, and every point of the
store that can be reached from the global scope or from a container is there.

In a well-formed state the walks over parents and over nested lists have an answer, which does not
depend on their bounds.
-/

namespace ClassScript

/-! ## Printing -/

/-- Items whose texts do not depend on a number have texts that do not depend on it. -/
theorem mapM_total {ε : Type} {items : List Value} {text : Nat → Value → Except ε String}
    (h : ∀ w ∈ items, ∃ t, ∀ more, text more w = .ok t) :
    ∃ ts, ∀ more, items.mapM (text more) = .ok ts := by
  induction items with
  | nil => exact ⟨[], fun _ => rfl⟩
  | cons w items ih =>
      obtain ⟨t, ht⟩ := h w List.mem_cons_self
      obtain ⟨ts, hts⟩ := ih fun x hx => h x (List.mem_cons_of_mem _ hx)
      refine ⟨t :: ts, fun more => ?_⟩
      rw [List.mapM_cons, ht, hts]
      rfl

/-- The text of a value does not depend on the depth, if that is enough for all lists that are not
being printed. -/
theorem Lists.render_total {ε : Type} {ls : Lists} {leaf : Value → Except ε String}
    {wrap : List String → String} {P : Value → Prop}
    (hleaf : ∀ v, P v → cell? v = none → ∃ text, leaf v = .ok text)
    (hlist : ∀ id, P (.list id) → id < ls.size ∧ ∀ w ∈ (ls.elements id).toList, P w)
    (depth : Nat) {around : List ListId} {v : Value}
    (hdepth : Reach.unseen (List.range ls.size) around ≤ depth) (hv : P v) :
    ∃ text, ∀ more, ls.render leaf wrap (depth + more) around v = .ok text := by
  induction depth generalizing around v with
  | zero =>
      cases v with
      | list id =>
          -- no list is left that is not being printed
          have hmem : id ∈ around := by
            have hnone := List.length_eq_zero_iff.mp (Nat.le_zero.mp hdepth)
            have := List.filter_eq_nil_iff.mp hnone id (List.mem_range.mpr (hlist id hv).1)
            simpa using this
          refine ⟨"[...]", fun more => ?_⟩
          cases more with
          | zero => rfl
          | succ more => simp [render, hmem]
      | number _ | string _ | boolean _ | function _ | object _ | null =>
          obtain ⟨text, htext⟩ := hleaf _ hv rfl
          exact ⟨text, fun more => by cases more <;> exact htext⟩
  | succ depth ih =>
      cases v with
      | list id =>
          obtain ⟨hid, helements⟩ := hlist id hv
          by_cases hmem : id ∈ around
          · refine ⟨"[...]", fun more => ?_⟩
            rw [Nat.succ_add]
            simp [render, hmem]
          · have hless := Reach.unseen_append_lt (List.mem_range.mpr hid)
              (List.mem_singleton_self id) hmem
            have hdepth' : Reach.unseen (List.range ls.size) (id :: around) ≤ depth :=
              Nat.le_of_lt_succ (Nat.lt_of_lt_of_le hless hdepth)
            obtain ⟨texts, htexts⟩ := mapM_total fun w hw => ih hdepth' (helements w hw)
            refine ⟨wrap texts, fun more => ?_⟩
            rw [Nat.succ_add, render, if_neg hmem, htexts]
            rfl
      | number _ | string _ | boolean _ | function _ | object _ | null =>
          obtain ⟨text, htext⟩ := hleaf _ hv rfl
          exact ⟨text, fun more => by rw [Nat.succ_add]; exact htext⟩

/-! ## Points and the horizon -/

section Nodes

variable {H : Horizon} {s : State}

theorem Scope.Within.nodes {scope : Scope} (h : scope.Within H s) :
    ∀ n ∈ scope.frames.map Node.frame, n.Within H s := by
  intro n hn
  obtain ⟨id, hid, rfl⟩ := List.mem_map.mp hn
  exact h id hid

theorem Function.Within.nodes {f : Function} (h : f.Within H s) : ∀ n ∈ f.nodes, n.Within H s := by
  intro n hn
  obtain ⟨o, ho, hn⟩ := List.mem_flatMap.mp hn
  have hcode := h o ho
  cases hc : o.code with
  | native f =>
      rw [hc] at hn
      exact absurd hn List.not_mem_nil
  | script body scope =>
      rw [hc] at hn hcode
      exact Scope.Within.nodes hcode n hn

theorem Value.Within.nodes {v : Value} (h : v.Within H s) : ∀ n ∈ v.nodes, n.Within H s := by
  intro n hn
  cases v with
  | object handle => rw [List.mem_singleton.mp hn]; exact h
  | list id => rw [List.mem_singleton.mp hn]; exact h
  | function f => exact Function.Within.nodes h n hn
  | number _ | string _ | boolean _ | null => exact absurd hn List.not_mem_nil

theorem Member.Within.nodes {m : Member} (h : m.Within H s) : ∀ n ∈ m.nodes, n.Within H s := by
  intro n hn
  rcases List.mem_append.mp hn with hn | hn
  · exact h.value.nodes n hn
  · have haccessors := h.accessors
    cases hform : m.form with
    | field readonly =>
        rw [hform] at hn
        exact absurd hn List.not_mem_nil
    | property getter setter =>
        rw [hform] at hn haccessors
        obtain ⟨code, hcode, hn⟩ := List.mem_flatMap.mp hn
        exact (haccessors code hcode).nodes n hn

theorem Container.Within.nodes {c : Container} (h : c.Within H s) :
    ∀ n ∈ c.nodes, n.Within H s := by
  intro n hn
  simp only [Container.nodes, List.mem_append, List.mem_flatMap] at hn
  rcases hn with ((hn | hn) | ⟨m, hm, hn⟩) | ⟨f, hf, hn⟩
  · have habove := h.above
    cases hkind : c.kind with
    | classOf parent =>
        rw [hkind] at hn habove
        obtain ⟨handle, hhandle, rfl⟩ := List.mem_map.mp hn
        exact habove handle (Option.mem_toList.mp hhandle)
    | instanceOf cls =>
        rw [hkind] at hn habove
        rw [List.mem_singleton.mp hn]
        exact habove cls rfl
  · exact h.constructors.nodes n hn
  · exact (hm.elim (h.members m) (h.statics m)).nodes n hn
  · exact (hf.elim (h.binaryOps f) (h.unaryOps f)).nodes n hn

/-- Nothing leads out of the horizon. -/
theorem Horizon.Closed.arrows (h : H.Closed s) {a : Node} (ha : a.Within H s) :
    ∀ b ∈ s.toStore.arrows a, b.Within H s := by
  intro b hb
  cases a with
  | container handle =>
      simp only [Store.arrows] at hb
      split at hb
      · next c hc => exact (h.container handle c ha hc).nodes b hb
      · exact absurd hb List.not_mem_nil
  | list id =>
      obtain ⟨v, hv, hb⟩ := List.mem_flatMap.mp hb
      exact (h.list id ha v (Array.mem_toList_iff.mp hv)).nodes b hb
  | frame id =>
      simp only [Store.arrows] at hb
      split at hb
      · next frame hframe =>
          obtain ⟨binding, hbinding, hb⟩ := List.mem_flatMap.mp hb
          exact (h.frame id frame ha hframe binding hbinding).nodes b hb
      · exact absurd hb List.not_mem_nil

end Nodes

/-! ## Well-formed states -/

namespace State

/-- Where everything begins that a program can get to: the global scope and all containers. -/
def roots (s : State) : List Node :=
  s.globals.frames.map .frame ++ s.heap.toList.map fun entry => .container entry.1

/-- Everything that can be reached from a value is there. -/
def Sound (s : State) (v : Value) : Prop :=
  ∀ n, Reach.Reachable s.toStore.arrows v.nodes n → n.Present s

structure WellFormed (s : State) : Prop where
  /-- No handle is as large as the next one. -/
  inRange : ∀ handle c, s.heap.get handle = .ok c → handle < s.heap.slots.size
  /-- The parent of a class and the class of an instance are classes that were made before. -/
  grounded : s.heap.Grounded s.objectClass
  /-- Every chain of parents ends at the root class. -/
  chain : ∀ handle c, s.heap.get handle = .ok c → c.isClass →
    ∃ chain, s.heap.Chain handle chain ∧ chain.getLast? = some s.objectClass
  /-- Everything that can be reached is there. -/
  present : ∀ n, Reach.Reachable s.toStore.arrows s.roots n → n.Present s

theorem WellFormed.of_closed {H : Horizon} {s : State} (hsound : H.sound) (hclosed : H.Closed s)
    (hfresh : ∀ handle c, s.heap.get handle = .ok c → ¬ H.stale (.container handle))
    (hg : s.heap.Grounded s.objectClass) : s.WellFormed where
  inRange _ _ hc := Heap.lt_size_of_get hc
  grounded := hg
  chain _ _ hc hclass := hg.chain hc hclass
  present n hn := by
    have hroots : ∀ n ∈ s.roots, n.Within H s := by
      intro n hn
      rcases List.mem_append.mp hn with hn | hn
      · exact hclosed.globals.nodes n hn
      · obtain ⟨⟨handle, c⟩, hc, rfl⟩ := List.mem_map.mp hn
        have hget := Heap.mem_toList.mp hc
        exact ⟨hfresh handle c hget, fun _ => ⟨c, hget⟩⟩
    exact (hn.mem_of_closed hroots fun a ha => hclosed.arrows ha).2 hsound

theorem sound_of_within {H : Horizon} {s : State} (hsound : H.sound) (hclosed : H.Closed s)
    {v : Value} (hv : v.Within H s) : s.Sound v := by
  intro n hn
  have hwithin : n.Within H s := hn.mem_of_closed hv.nodes fun _ ha => hclosed.arrows ha
  exact hwithin.2 hsound

/-- Questions about containers that are there and about sound values have answers, and the bounds of
the walks that find them do not matter. -/
structure Answers (s : State) : Prop where
  typeOf : ∀ v, s.Sound v → ∃ ty, s.typeOf v = .ok ty
  textOf : ∀ v, s.Sound v → ∃ text, s.textOf v = .ok text ∧
    ∀ more, s.lists.render s.leafText listText (s.lists.size + more) [] v = .ok text
  findStatic : ∀ handle c name, s.heap.get handle = .ok c → c.isClass →
    ∃ found, s.heap.findStatic handle name = .ok found ∧
      ∀ more, s.heap.findStaticWithin name (s.heap.slots.size + 1 + more) handle = .ok found
  classChain : ∀ handle c cls, s.heap.get handle = .ok c → c.kind = .instanceOf cls →
    ∃ names, s.heap.classChain handle = .ok (some names) ∧
      ∀ more, s.heap.namesWithin (s.heap.slots.size + 1 + more) cls = .ok names

theorem Sound.get {s : State} {handle : Handle} (h : s.Sound (.object handle)) :
    ∃ c, s.heap.get handle = .ok c :=
  h _ (.base (List.mem_singleton_self _))

theorem Sound.element {s : State} {id : ListId} (h : s.Sound (.list id)) :
    ∀ w ∈ (s.lists.elements id).toList, s.Sound w := by
  intro w hw n hn
  refine h n (hn.mem_of_closed (fun a ha => ?_) fun _ ha b hb => .step ha hb)
  exact .step (.base (List.mem_singleton_self _)) (List.mem_flatMap.mpr ⟨w, hw, ha⟩)

theorem WellFormed.answers {s : State} (h : s.WellFormed) : s.Answers where
  typeOf v hv := by
    cases v with
    | object handle =>
        obtain ⟨c, hc⟩ := hv.get
        exact ⟨c.ty, by simp [State.typeOf, hc, bind, Except.bind, pure, Except.pure]⟩
    | number _ | string _ | boolean _ | function _ | list _ | null => exact ⟨_, rfl⟩
  textOf v hv := by
    have hleaf : ∀ w, s.Sound w → Lists.cell? w = none → ∃ text, s.leafText w = .ok text := by
      intro w hw _
      cases w with
      | object handle =>
          obtain ⟨c, hc⟩ := hw.get
          exact ⟨_, by simp only [leafText, hc, bind, Except.bind]; rfl⟩
      | number _ | string _ | boolean _ | function _ | list _ | null => exact ⟨_, rfl⟩
    have hlist : ∀ id, s.Sound (.list id) →
        id < s.lists.size ∧ ∀ w ∈ (s.lists.elements id).toList, s.Sound w := fun id hid =>
      ⟨hid _ (.base (List.mem_singleton_self _)), hid.element⟩
    have hdepth : Reach.unseen (List.range s.lists.size) ([] : List ListId) ≤ s.lists.size := by
      unfold Reach.unseen
      exact Nat.le_trans (List.length_filter_le _ _) (Nat.le_of_eq List.length_range)
    obtain ⟨text, htext⟩ := Lists.render_total hleaf hlist s.lists.size hdepth hv
    exact ⟨text, htext 0, htext⟩
  findStatic handle c name hc hclass := by
    obtain ⟨chain, hchain, _⟩ := h.chain handle c hc hclass
    have hlt := h.inRange handle c hc
    exact ⟨_, hchain.findStaticWithin name (Nat.lt_succ_of_lt hlt),
      fun more => hchain.findStaticWithin name
        (Nat.lt_of_lt_of_le (Nat.lt_succ_of_lt hlt) (Nat.le_add_right _ _))⟩
  classChain handle c cls hc hkind := by
    obtain ⟨hlt, p, hp, hclass⟩ := h.grounded.above handle c hc cls (by rw [hkind]; rfl)
    obtain ⟨chain, hchain, _⟩ := h.chain cls p hp hclass
    have hlt' := h.inRange cls p hp
    have hnames := fun more => hchain.namesWithin
      (Nat.lt_of_lt_of_le (Nat.lt_succ_of_lt hlt') (Nat.le_add_right (s.heap.slots.size + 1) more))
    refine ⟨_, ?_, hnames⟩
    have hzero := hnames 0
    rw [Nat.add_zero] at hzero
    simp [Heap.classChain, hc, bind, Except.bind, hkind, hzero, pure, Except.pure]

end State

end ClassScript
