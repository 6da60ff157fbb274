import ClassScript.Proofs.StoreGraph

/-!
# What a trace marks

A trace keeps three records: the handles that wait to be marked, and the scopes and lists that it
has entered. It turns back wherever it has been before, also where it has not finished yet, and the
records outlast each container that is traced. Two facts about them give what a collection marks.

Nothing but what can be reached gets into the records, so nothing else is marked. And whatever is
entered has its references in the records by the time the trace comes back from it, so that no
reference leads out of the marks in the end.
-/

namespace ClassScript

/-! ## Only what can be reached -/

theorem Store.mem_bindings {s : Store} {id : FrameId} {b : Binding} :
    b ∈ s.bindings id ↔ ∃ frame, s.frames[id]? = some frame ∧ b ∈ frame.values := by
  unfold bindings
  split
  · next frame hframe => simp [hframe]
  · next hnone => simp [hnone]

/-- A scope without its innermost frame. -/
theorem Scope.frames_of_parent? {e parent : Scope} (h : e.parent? = some parent) :
    parent.frames = e.outer := by
  unfold parent? at h
  split at h
  · cases h
  · next hframes =>
      cases h
      exact hframes.symm

namespace Tracer

/-- The points that wait to be marked are of a kind. -/
def Sound (R : Node → Prop) (t : Tracer) : Prop :=
  ∀ handle ∈ t.handles, R (.container handle)

section Sound

variable {s : Store} {R : Node → Prop} {t : Tracer}

theorem Sound.push (ht : t.Sound R) {handle : Handle} (h : R (.container handle)) :
    (t.push handle).Sound R := by
  intro other hother
  rcases List.mem_cons.mp hother with rfl | hother
  · exact h
  · exact ht other hother

theorem Sound.pop (ht : t.Sound R) {handle : Handle} {handles : List Handle}
    (htop : t.handles = handle :: handles) :
    R (.container handle) ∧ Sound R { t with handles } := by
  refine ⟨ht handle (htop ▸ List.mem_cons_self), fun other hother => ht other ?_⟩
  exact htop ▸ List.mem_cons_of_mem _ hother

theorem Sound.function (ht : t.Sound R) {enter : Scope → Tracer → Tracer}
    (henter : ∀ e t, (∀ id ∈ e.frames, R (.frame id)) → t.Sound R → (enter e t).Sound R)
    {f : Function} (hf : ∀ n ∈ f.nodes, R n) : (function enter f t).Sound R := by
  refine List.foldlRecOn _ _ ht fun t ht o ho => ?_
  have ho' : ∀ n ∈ o.code.nodes, R n := fun n hn => hf n (List.mem_flatMap.mpr ⟨o, ho, hn⟩)
  cases hcode : o.code with
  | native g => exact ht
  | script body e =>
      rw [hcode] at ho'
      exact henter e t (fun id hid => ho' _ (List.mem_map.mpr ⟨id, hid, rfl⟩)) ht

variable (hR : ∀ a, R a → ∀ b ∈ s.arrows a, R b)

include hR

theorem sound_value_scope (depth : Nat) :
    (∀ v t, (∀ n ∈ v.nodes, R n) → t.Sound R → (value s depth v t).Sound R) ∧
      ∀ e t, (∀ id ∈ e.frames, R (.frame id)) → t.Sound R → (scope s depth e t).Sound R := by
  induction depth with
  | zero => exact ⟨fun _ _ _ ht => ht, fun _ _ _ ht => ht⟩
  | succ depth ih =>
      obtain ⟨ihvalue, ihscope⟩ := ih
      constructor
      · intro v t hv ht
        cases v with
        | object handle => exact ht.push (hv _ (List.mem_singleton_self _))
        | list id =>
            rw [value]
            split
            · exact ht
            · have hlist := hR _ (hv _ (List.mem_singleton_self _))
              refine List.foldlRecOn _ _ ht fun t ht w hw => ?_
              exact ihvalue w t (fun n hn => hlist n (List.mem_flatMap.mpr ⟨w, hw, hn⟩)) ht
        | function f => exact ht.function ihscope hv
        | number _ | string _ | boolean _ | null => exact ht
      · intro e t he ht
        rw [scope]
        split
        · exact ht
        · have hframe := hR _ (he _ List.mem_cons_self)
          have hbindings : Sound R ((s.bindings e.inner).foldl (fun t b => value s depth b.value t)
              { t with seenScopes := e :: t.seenScopes }) := by
            refine List.foldlRecOn _ _ ht fun t ht b hb => ?_
            obtain ⟨frame, hget, hb⟩ := Store.mem_bindings.mp hb
            refine ihvalue b.value t (fun n hn => hframe n ?_) ht
            simp only [Store.arrows, hget]
            exact List.mem_flatMap.mpr ⟨b, hb, hn⟩
          dsimp only
          split
          · next parent hparent =>
              refine ihscope parent _ (fun id hid => he id ?_) hbindings
              rw [Scope.frames_of_parent? hparent] at hid
              exact List.mem_cons_of_mem _ hid
          · exact hbindings

theorem Sound.value {t : Tracer} (ht : t.Sound R) (depth : Nat) {v : Value}
    (hv : ∀ n ∈ v.nodes, R n) : (value s depth v t).Sound R :=
  (sound_value_scope hR depth).1 v t hv ht

theorem Sound.scope {t : Tracer} (ht : t.Sound R) (depth : Nat) {e : Scope}
    (he : ∀ id ∈ e.frames, R (.frame id)) : (scope s depth e t).Sound R :=
  (sound_value_scope hR depth).2 e t he ht

theorem Sound.member {t : Tracer} (ht : t.Sound R) (depth : Nat) {m : Member}
    (hm : ∀ n ∈ m.nodes, R n) : (member s depth t m).Sound R := by
  have hvalue := ht.value hR depth fun n hn => hm n (List.mem_append_left _ hn)
  refine List.foldlRecOn _ _ hvalue fun t ht a ha => ht.scope hR depth fun id hid => hm _ ?_
  refine List.mem_append_right _ ?_
  cases hform : m.form with
  | field readonly =>
      rw [hform] at ha
      exact absurd ha List.not_mem_nil
  | property getter setter =>
      rw [hform] at ha
      exact List.mem_flatMap.mpr ⟨a, ha, List.mem_map.mpr ⟨id, hid, rfl⟩⟩

theorem Sound.container {t : Tracer} (ht : t.Sound R) (depth : Nat) {c : Container}
    (hc : ∀ n ∈ c.nodes, R n) : (container s depth c t).Sound R := by
  have hscope := (sound_value_scope hR depth).2
  simp only [Container.nodes, List.mem_append, List.mem_flatMap] at hc
  refine List.foldlRecOn _ _ ?_ fun t ht f hf => ht.function hscope fun n hn =>
    hc n (Or.inr ⟨f, List.mem_append.mp hf, hn⟩)
  refine List.foldlRecOn _ _ ?_ fun t ht m hm => ht.member hR depth fun n hn =>
    hc n (Or.inl (Or.inr ⟨m, List.mem_append.mp hm, hn⟩))
  refine Sound.function ?_ hscope fun n hn => hc n (Or.inl (Or.inl (Or.inr hn)))
  have hkind := fun n hn => hc n (Or.inl (Or.inl (Or.inl hn)))
  cases hk : c.kind with
  | classOf parent =>
      rw [hk] at hkind
      cases parent with
      | none => exact ht
      | some parent => exact ht.push (hkind _ (List.mem_singleton_self _))
  | instanceOf cls =>
      rw [hk] at hkind
      exact ht.push (hkind _ (List.mem_singleton_self _))

end Sound

end Tracer

namespace Store

variable {s : Store}

theorem sound_mark {R : Node → Prop} (hR : ∀ a, R a → ∀ b ∈ s.arrows a, R b) {depth : Nat}
    {t : Tracer} (ht : t.Sound R) {marked : List Handle}
    (hmarked : ∀ handle ∈ marked, R (.container handle)) :
    ∀ handle ∈ s.mark depth t marked, R (.container handle) := by
  fun_induction s.mark depth t marked with
  | case1 => exact hmarked
  | case2 t marked handle handles htop _ ih => exact ih (ht.pop htop).2 hmarked
  | case3 t marked handle handles htop _ c hc ih =>
      obtain ⟨hhandle, hpop⟩ := ht.pop htop
      refine ih (hpop.container hR depth fun n hn => hR _ hhandle n ?_)
        (List.forall_mem_cons.mpr ⟨hhandle, hmarked⟩)
      simp only [arrows, hc]
      exact hn
  | case4 t marked handle handles htop _ f _ ih =>
      obtain ⟨hhandle, hpop⟩ := ht.pop htop
      exact ih hpop (List.forall_mem_cons.mpr ⟨hhandle, hmarked⟩)

end Store

/-! ## All that can be reached -/

inductive Entry where
  | handle (handle : Handle)
  | list (id : ListId)
  | scope (e : Scope)

def Function.entries (f : Function) : List Entry :=
  f.overloads.flatMap fun o => o.code.scope?.toList.map .scope

/-- What a trace of a value has to come across at once. -/
def Value.entries : Value → List Entry
  | .object handle => [.handle handle]
  | .list id => [.list id]
  | .function f => f.entries
  | .number _ | .string _ | .boolean _ | .null => []

def Member.entries (m : Member) : List Entry :=
  m.value.entries ++ m.form.accessors.flatMap fun a => [.scope a.scope]

def Container.entries (c : Container) : List Entry :=
  c.kind.above?.toList.map .handle ++ c.constructors.entries ++
    c.allMembers.flatMap Member.entries ++ c.operators.flatMap Function.entries

theorem Function.mem_scopes {f : Function} {e : Scope} (h : .scope e ∈ f.entries) :
    e ∈ f.scopes := by
  obtain ⟨o, ho, he⟩ := List.mem_flatMap.mp h
  obtain ⟨e', he', heq⟩ := List.mem_map.mp he
  cases heq
  exact List.mem_filterMap.mpr ⟨o, ho, Option.mem_toList.mp he'⟩

theorem Value.mem_scopes {v : Value} {e : Scope} (h : .scope e ∈ v.entries) : e ∈ v.scopes := by
  cases v with
  | function f => exact f.mem_scopes h
  | object handle | list id => cases List.mem_singleton.mp h
  | number _ | string _ | boolean _ | null => cases h

theorem Member.mem_scopes {m : Member} {e : Scope} (h : .scope e ∈ m.entries) : e ∈ m.scopes := by
  rcases List.mem_append.mp h with h | h
  · exact List.mem_append_left _ (m.value.mem_scopes h)
  · obtain ⟨a, ha, he⟩ := List.mem_flatMap.mp h
    cases List.mem_singleton.mp he
    exact List.mem_append_right _ (List.mem_map.mpr ⟨a, ha, rfl⟩)

theorem Container.mem_scopes {c : Container} {e : Scope} (h : .scope e ∈ c.entries) :
    e ∈ c.scopes := by
  simp only [entries, List.mem_append, List.mem_flatMap] at h
  simp only [scopes, List.mem_append, List.mem_flatMap]
  rcases h with ((h | h) | ⟨m, hm, h⟩) | ⟨f, hf, h⟩
  · obtain ⟨_, _, heq⟩ := List.mem_map.mp h
    cases heq
  · exact Or.inl (Or.inl (Function.mem_scopes h))
  · exact Or.inl (Or.inr ⟨m, hm, m.mem_scopes h⟩)
  · exact Or.inr ⟨f, hf, f.mem_scopes h⟩

namespace Store

def inside (s : Store) : Entry → List Entry
  | .handle _ => []
  | .list id => (s.lists.elements id).toList.flatMap Value.entries
  | .scope e => (s.bindings e.inner).flatMap (fun b => b.value.entries) ++
      e.parent?.toList.map .scope

end Store

namespace Tracer

/-- A trace has come across something, or a handle was marked before. -/
def Has (marked : List Handle) (t : Tracer) : Entry → Prop
  | .handle handle => handle ∈ t.handles ∨ handle ∈ marked
  | .list id => id ∈ t.seenLists
  | .scope e => e ∈ t.seenScopes

/-- A trace that goes on and comes back: what it had it still has, what is inside of all that it has
entered it has come across, and some more things as well. -/
structure Covers (s : Store) (marked : List Handle) (t t' : Tracer) (found : List Entry) :
    Prop where
  keeps : ∀ x, t.Has marked x → t'.Has marked x
  entered : ∀ x, t'.Has marked x → t.Has marked x ∨ ∀ y ∈ s.inside x, t'.Has marked y
  found : ∀ x ∈ found, t'.Has marked x

namespace Covers

variable {s : Store} {marked : List Handle} {t t₁ t₂ : Tracer} {xs ys : List Entry}

theorem refl (h : ∀ x ∈ xs, t.Has marked x) : Covers s marked t t xs :=
  ⟨fun _ hx => hx, fun _ hx => Or.inl hx, h⟩

theorem trans (h₁ : Covers s marked t t₁ xs) (h₂ : Covers s marked t₁ t₂ ys) :
    Covers s marked t t₂ (xs ++ ys) where
  keeps x hx := h₂.keeps x (h₁.keeps x hx)
  entered x hx := by
    rcases h₂.entered x hx with hx | hin
    · exact (h₁.entered x hx).imp_right fun hin y hy => h₂.keeps y (hin y hy)
    · exact Or.inr hin
  found x hx := by
    rcases List.mem_append.mp hx with hx | hx
    · exact h₂.keeps x (h₁.found x hx)
    · exact h₂.found x hx

theorem mono (h : Covers s marked t t₁ xs) (hys : ∀ y ∈ ys, y ∈ xs) : Covers s marked t t₁ ys :=
  { h with found := fun y hy => h.found y (hys y hy) }

theorem push (t : Tracer) (handle : Handle) :
    Covers s marked t (t.push handle) [.handle handle] where
  keeps x hx := by
    cases x with
    | handle other => exact hx.imp_left (List.mem_cons_of_mem _)
    | list id => exact hx
    | scope e => exact hx
  entered x hx := by
    cases x with
    | handle other => exact Or.inr fun y hy => absurd hy List.not_mem_nil
    | list id => exact Or.inl hx
    | scope e => exact Or.inl hx
  found x hx := by
    rw [List.mem_singleton.mp hx]
    exact Or.inl List.mem_cons_self

/-- One trace after the other. -/
theorem foldl {α : Type} {step : Tracer → α → Tracer} {entries : α → List Entry} {items : List α}
    (hstep : ∀ a ∈ items, ∀ t', Covers s marked t t' [] →
      Covers s marked t' (step t' a) (entries a)) :
    Covers s marked t (items.foldl step t) (items.flatMap entries) := by
  suffices hgeneral : ∀ t', Covers s marked t t' [] →
      Covers s marked t' (items.foldl step t') (items.flatMap entries) from
    hgeneral t (.refl fun _ hx => absurd hx List.not_mem_nil)
  induction items with
  | nil => exact fun t' _ => .refl fun _ hx => absurd hx List.not_mem_nil
  | cons a items ih =>
      intro t' ht'
      have hfirst := hstep a List.mem_cons_self t' ht'
      have hrest := ih (fun b hb => hstep b (List.mem_cons_of_mem _ hb)) (step t' a)
        ((ht'.trans hfirst).mono fun _ hx => absurd hx List.not_mem_nil)
      exact hfirst.trans hrest

/-- A trace enters something, and comes across all that is inside of it. -/
theorem enter {x : Entry} (hnew : ∀ y, t₁.Has marked y ↔ y = x ∨ t.Has marked y)
    (h : Covers s marked t₁ t₂ (s.inside x)) : Covers s marked t t₂ [x] where
  keeps y hy := h.keeps y ((hnew y).mpr (Or.inr hy))
  entered y hy := by
    rcases h.entered y hy with hy | hin
    · rcases (hnew y).mp hy with rfl | hy
      · exact Or.inr h.found
      · exact Or.inl hy
    · exact Or.inr hin
  found y hy := by
    rw [List.mem_singleton.mp hy]
    exact h.keeps x ((hnew x).mpr (Or.inl rfl))

theorem enterList {id : ListId}
    (h : Covers s marked { t with seenLists := id :: t.seenLists } t₂ (s.inside (.list id))) :
    Covers s marked t t₂ [.list id] := by
  refine h.enter fun y => ?_
  cases y <;> simp [Has]

theorem enterScope {e : Scope}
    (h : Covers s marked { t with seenScopes := e :: t.seenScopes } t₂ (s.inside (.scope e))) :
    Covers s marked t t₂ [.scope e] := by
  refine h.enter fun y => ?_
  cases y <;> simp [Has]

theorem function {enter : Scope → Tracer → Tracer} {f : Function}
    (henter : ∀ e, .scope e ∈ f.entries → ∀ t', Covers s marked t t' [] →
      Covers s marked t' (enter e t') [.scope e]) :
    Covers s marked t (Tracer.function enter f t) f.entries := by
  refine foldl fun o ho t' ht' => ?_
  have hentries : ∀ x ∈ o.code.scope?.toList.map Entry.scope, x ∈ f.entries := fun x hx =>
    List.mem_flatMap.mpr ⟨o, ho, hx⟩
  cases hcode : o.code with
  | native g => exact .refl fun _ hx => absurd hx List.not_mem_nil
  | script body e =>
      rw [hcode] at hentries
      exact henter e (hentries _ (List.mem_singleton_self _)) t' ht'

end Covers

end Tracer

/-! ### How deep a trace can go -/

namespace Scope

def chain (e : Scope) : List Scope :=
  go e.inner e.outer
where
  go (inner : FrameId) : List FrameId → List Scope
    | [] => [⟨inner, []⟩]
    | next :: outer => ⟨inner, next :: outer⟩ :: go next outer

theorem length_chain (e : Scope) : e.chain.length = e.frames.length := by
  obtain ⟨inner, outer⟩ := e
  change (chain.go inner outer).length = outer.length + 1
  induction outer generalizing inner with
  | nil => rfl
  | cons next outer ih => simp [chain.go, ih]

theorem mem_chain_self (e : Scope) : e ∈ e.chain := by
  obtain ⟨inner, outer⟩ := e
  cases outer <;> exact List.mem_cons_self

theorem mem_chain_of_parent? {e around parent : Scope} (h : around ∈ e.chain)
    (hparent : around.parent? = some parent) : parent ∈ e.chain := by
  obtain ⟨inner, outer⟩ := e
  change around ∈ chain.go inner outer at h
  change parent ∈ chain.go inner outer
  induction outer generalizing inner with
  | nil =>
      rw [List.mem_singleton.mp h] at hparent
      cases hparent
  | cons next outer ih =>
      refine List.mem_cons_of_mem _ ?_
      rcases List.mem_cons.mp h with rfl | h
      · cases hparent
        exact mem_chain_self ⟨next, outer⟩
      · exact ih next h

end Scope

namespace Store

def surroundings (s : Store) (scope : Scope) : List Scope :=
  (scope :: s.scopes).flatMap Scope.chain

theorem depth_eq (s : Store) (scope : Scope) :
    s.depth scope = 2 * (s.lists.size + (s.surroundings scope).length) + 1 := by
  simp only [depth, surroundings, List.length_flatMap, Scope.length_chain]

section Surroundings

variable {s : Store} {scope : Scope}

theorem parent_mem_surroundings {e parent : Scope} (h : e ∈ s.surroundings scope)
    (hparent : e.parent? = some parent) : parent ∈ s.surroundings scope := by
  obtain ⟨start, hstart, he⟩ := List.mem_flatMap.mp h
  exact List.mem_flatMap.mpr ⟨start, hstart, Scope.mem_chain_of_parent? he hparent⟩

theorem mem_surroundings {e : Scope} (h : e ∈ s.scopes) : e ∈ s.surroundings scope :=
  List.mem_flatMap.mpr ⟨e, List.mem_cons_of_mem _ h, e.mem_chain_self⟩

theorem self_mem_surroundings : scope ∈ s.surroundings scope :=
  List.mem_flatMap.mpr ⟨scope, List.mem_cons_self, scope.mem_chain_self⟩

/-- Whatever a trace finds inside of something, the scopes among it are known beforehand. -/
theorem scope_mem_of_inside {x : Entry} (hx : ∀ e, x = .scope e → e ∈ s.surroundings scope)
    {e : Scope} (he : .scope e ∈ s.inside x) : e ∈ s.surroundings scope := by
  cases x with
  | handle handle => exact absurd he List.not_mem_nil
  | list id =>
      obtain ⟨v, hv, he⟩ := List.mem_flatMap.mp he
      have hid := Lists.lt_size_of_mem_elements (Array.mem_toList_iff.mp hv)
      have hcell : s.lists.elements id ∈ s.lists.toList := by
        simp [Lists.elements, Array.getD_eq_getD_getElem?, hid]
      refine mem_surroundings (List.mem_append_left _ (List.mem_append_right _ ?_))
      exact List.mem_flatMap.mpr ⟨_, hcell, List.mem_flatMap.mpr ⟨v, hv, v.mem_scopes he⟩⟩
  | scope inner =>
      rcases List.mem_append.mp he with he | he
      · obtain ⟨b, hb, he⟩ := List.mem_flatMap.mp he
        obtain ⟨frame, hframe, hb⟩ := mem_bindings.mp hb
        refine mem_surroundings (List.mem_append_left _ (List.mem_append_left _ ?_))
        have hframes : frame ∈ s.frames.toList :=
          Array.mem_toList_iff.mpr (Array.mem_of_getElem? hframe)
        refine List.mem_flatMap.mpr ⟨frame, hframes, ?_⟩
        exact List.mem_flatMap.mpr ⟨b, hb, b.value.mem_scopes he⟩
      · obtain ⟨parent, hparent, heq⟩ := List.mem_map.mp he
        cases heq
        exact parent_mem_surroundings (hx inner rfl) (Option.mem_toList.mp hparent)

theorem scope_mem_of_container {handle : Handle} {c : Container} (hc : s.heap.get handle = .ok c)
    {e : Scope} (he : .scope e ∈ c.entries) : e ∈ s.surroundings scope := by
  refine mem_surroundings (List.mem_append_right _ ?_)
  exact List.mem_flatMap.mpr ⟨_, Heap.mem_toList.mpr hc, c.mem_scopes he⟩

end Surroundings

end Store

namespace Tracer

def unseen (s : Store) (start : Scope) (t : Tracer) : Nat :=
  Reach.unseen (List.range s.lists.size) t.seenLists +
    Reach.unseen (s.surroundings start) t.seenScopes

section Depth

variable {s : Store} (start : Scope) {marked : List Handle} {t t' : Tracer}

theorem Covers.unseen_le {xs : List Entry} (h : Covers s marked t t' xs) :
    t'.unseen s start ≤ t.unseen s start := by
  have hlists := Reach.unseen_anti (List.range s.lists.size) fun id => h.keeps (.list id)
  have hscopes := Reach.unseen_anti (s.surroundings start) fun e => h.keeps (.scope e)
  exact Nat.add_le_add hlists hscopes

theorem unseen_list_lt {id : ListId} (hid : id < s.lists.size) (hnew : id ∉ t.seenLists) :
    unseen s start { t with seenLists := id :: t.seenLists } < t.unseen s start := by
  have hin : id ∈ List.range s.lists.size := List.mem_range.mpr hid
  exact Nat.add_lt_add_right (Reach.unseen_append_lt hin (List.mem_singleton_self id) hnew) _

theorem unseen_scope_lt {e : Scope} (he : e ∈ s.surroundings start) (hnew : e ∉ t.seenScopes) :
    unseen s start { t with seenScopes := e :: t.seenScopes } < t.unseen s start :=
  Nat.add_lt_add_left (Reach.unseen_append_lt he (List.mem_singleton_self e) hnew) _

variable (s marked)

def Values (depth : Nat) : Prop :=
  ∀ v t, (∀ e, .scope e ∈ v.entries → e ∈ s.surroundings start) → 2 * t.unseen s start < depth →
    Covers s marked t (value s depth v t) v.entries

def Scopes (depth : Nat) : Prop :=
  ∀ e t, e ∈ s.surroundings start → 2 * t.unseen s start ≤ depth →
    Covers s marked t (scope s depth e t) [.scope e]

variable {s start marked}

theorem Covers.of_has {x : Entry} (h : t.Has marked x) : Covers s marked t t [x] := by
  refine .refl fun y hy => ?_
  rw [List.mem_singleton.mp hy]
  exact h

theorem Values.succ {depth : Nat} (hvalues : Values s start marked depth)
    (hscopes : Scopes s start marked depth) : Values s start marked (depth + 1) := by
  intro v t hv hdepth
  cases v with
  | object handle => exact .push t handle
  | list id =>
      rw [value]
      split
      · next hold => exact .of_has hold
      · next hnew =>
          refine .enterList (.foldl fun w hw t' ht' => hvalues w t' (fun e he => ?_) ?_)
          · have hin : .scope e ∈ s.inside (.list id) := List.mem_flatMap.mpr ⟨w, hw, he⟩
            exact Store.scope_mem_of_inside (fun _ heq => by cases heq) hin
          · have hid := Lists.lt_size_of_mem_elements (Array.mem_toList_iff.mp hw)
            have hless := unseen_list_lt start hid hnew
            have hmore := ht'.unseen_le start
            omega
  | function f =>
      refine .function fun e he t' ht' => hscopes e t' (hv e he) ?_
      have hmore := ht'.unseen_le start
      omega
  | number _ | string _ | boolean _ | null => exact .refl fun _ hx => absurd hx List.not_mem_nil

theorem Scopes.succ {depth : Nat} (hvalues : Values s start marked depth)
    (hscopes : Scopes s start marked depth) : Scopes s start marked (depth + 1) := by
  intro e t he hdepth
  rw [scope]
  split
  · next hold => exact .of_has hold
  · next hnew =>
      have hless := unseen_scope_lt start he hnew
      have hinside : ∀ {e'}, .scope e' ∈ s.inside (.scope e) → e' ∈ s.surroundings start := fun h =>
        Store.scope_mem_of_inside (fun _ heq => by cases heq; exact he) h
      have hbindings : Covers s marked { t with seenScopes := e :: t.seenScopes }
          ((s.bindings e.inner).foldl (fun t b => value s depth b.value t)
            { t with seenScopes := e :: t.seenScopes })
          ((s.bindings e.inner).flatMap fun b => b.value.entries) := by
        refine .foldl fun b hb t' ht' => hvalues b.value t' (fun e' he' => hinside ?_) ?_
        · exact List.mem_append_left _ (List.mem_flatMap.mpr ⟨b, hb, he'⟩)
        · have hmore := ht'.unseen_le start
          omega
      refine .enterScope (hbindings.trans ?_)
      dsimp only
      split
      · next parent hparent =>
          rw [hparent]
          refine hscopes parent _ (Store.parent_mem_surroundings he hparent) ?_
          have hmore := hbindings.unseen_le start
          omega
      · next hnone =>
          rw [hnone]
          exact .refl fun _ hx => absurd hx List.not_mem_nil

theorem values_scopes (s : Store) (start : Scope) (marked : List Handle) (depth : Nat) :
    Values s start marked depth ∧ Scopes s start marked depth := by
  induction depth with
  | zero =>
      refine ⟨fun _ _ _ hdepth => absurd hdepth (Nat.not_lt_zero _), fun e t he hdepth => ?_⟩
      by_cases hold : e ∈ t.seenScopes
      · exact .of_has hold
      · have hless := unseen_scope_lt start he hold
        omega
  | succ depth ih => exact ⟨.succ ih.1 ih.2, .succ ih.1 ih.2⟩

theorem unseen_lt_depth (s : Store) (start : Scope) (t : Tracer) :
    2 * t.unseen s start < s.depth start := by
  have hlists := Reach.unseen_le_length (List.range s.lists.size) t.seenLists
  have hscopes := Reach.unseen_le_length (s.surroundings start) t.seenScopes
  rw [List.length_range] at hlists
  rw [Store.depth_eq, unseen]
  omega

theorem covers_scope {e : Scope} (he : e ∈ s.surroundings start) (t : Tracer) :
    Covers s marked t (scope s (s.depth start) e t) [.scope e] := by
  have hdepth := Nat.le_of_lt (unseen_lt_depth s start t)
  exact (values_scopes s start marked _).2 e t he hdepth

theorem covers_function {f : Function}
    (hf : ∀ e, .scope e ∈ f.entries → e ∈ s.surroundings start) (t : Tracer) :
    Covers s marked t (function (scope s (s.depth start)) f t) f.entries :=
  .function fun e he t' _ => covers_scope (hf e he) t'

theorem covers_member {m : Member}
    (hm : ∀ e, .scope e ∈ m.entries → e ∈ s.surroundings start) (t : Tracer) :
    Covers s marked t (member s (s.depth start) t m) m.entries := by
  have hvalue := (values_scopes s start marked _).1 m.value t
    (fun e he => hm e (List.mem_append_left _ he)) (unseen_lt_depth s start t)
  refine hvalue.trans (.foldl fun a ha t' _ => covers_scope (hm _ ?_) t')
  exact List.mem_append_right _ (List.mem_flatMap.mpr ⟨a, ha, List.mem_singleton_self _⟩)

theorem covers_above (kind : ContainerKind) (t : Tracer) :
    Covers s marked t (above kind t) (kind.above?.toList.map .handle) := by
  cases kind with
  | classOf parent =>
      cases parent with
      | none => exact .refl fun _ hx => absurd hx List.not_mem_nil
      | some parent => exact .push t parent
  | instanceOf cls => exact .push t cls

theorem covers_container {c : Container}
    (hc : ∀ e, .scope e ∈ c.entries → e ∈ s.surroundings start) (t : Tracer) :
    Covers s marked t (container s (s.depth start) c t) c.entries := by
  simp only [Container.entries, List.mem_append, List.mem_flatMap] at hc
  have habove : Covers s marked t (above c.kind t) _ := covers_above c.kind t
  have hconstructors := habove.trans
    (covers_function (fun e he => hc e (Or.inl (Or.inl (Or.inr he)))) _)
  have hmembers := hconstructors.trans (.foldl fun m hm t' _ =>
    covers_member (fun e he => hc e (Or.inl (Or.inr ⟨m, hm, he⟩))) t')
  exact hmembers.trans (.foldl fun f hf t' _ =>
    covers_function (fun e he => hc e (Or.inr ⟨f, hf, he⟩)) t')

end Depth

end Tracer

/-! ### The end of a marking -/

/-- No reference is lost: what is inside of the things that were entered, and what the containers
that were marked refer to, is on record. -/
structure Store.Marking (s : Store) (t : Tracer) (marked : List Handle) : Prop where
  inside : ∀ x, t.Has marked x → ∀ y ∈ s.inside x, t.Has marked y
  traced : ∀ handle ∈ marked, ∀ c, s.heap.get handle = .ok c → ∀ y ∈ c.entries, t.Has marked y

namespace Tracer

theorem has_pop {t : Tracer} {handle : Handle} {handles marked : List Handle}
    (htop : t.handles = handle :: handles) (x : Entry) :
    Has (handle :: marked) { t with handles } x ↔ t.Has marked x := by
  cases x with
  | handle other => simp [Has, htop, or_assoc, or_left_comm]
  | list id => rfl
  | scope e => rfl

theorem has_of_marked {t : Tracer} {handle : Handle} {marked : List Handle}
    (hmarked : handle ∈ marked) (x : Entry) : t.Has (handle :: marked) x ↔ t.Has marked x := by
  cases x with
  | handle other =>
      refine or_congr_right ⟨fun h => ?_, List.mem_cons_of_mem _⟩
      rcases List.mem_cons.mp h with rfl | h
      · exact hmarked
      · exact h
  | list id => rfl
  | scope e => rfl

end Tracer

namespace Store

variable {s : Store}

namespace Marking

variable {t : Tracer} {marked handles : List Handle} {handle : Handle}

/-- A handle that was marked before. -/
theorem skip (h : s.Marking t marked) (htop : t.handles = handle :: handles)
    (hold : handle ∈ marked) :
    s.Marking { t with handles } marked ∧
      ∀ x, t.Has marked x → Tracer.Has marked { t with handles } x := by
  have hhas : ∀ x, Tracer.Has marked { t with handles } x ↔ t.Has marked x := fun x =>
    (Tracer.has_of_marked hold x).symm.trans (Tracer.has_pop htop x)
  refine ⟨⟨fun x hx y hy => ?_, fun other hother c hc y hy => ?_⟩, fun x hx => (hhas x).mpr hx⟩
  · exact (hhas y).mpr (h.inside x ((hhas x).mp hx) y hy)
  · exact (hhas y).mpr (h.traced other hother c hc y hy)

/-- A handle without a container. -/
theorem missing (h : s.Marking t marked) (htop : t.handles = handle :: handles) {f : Fault}
    (hmissing : s.heap.get handle = .error f) :
    s.Marking { t with handles } (handle :: marked) ∧
      ∀ x, t.Has marked x → Tracer.Has (handle :: marked) { t with handles } x := by
  have hhas : ∀ x, Tracer.Has (handle :: marked) { t with handles } x ↔ t.Has marked x :=
    Tracer.has_pop htop
  refine ⟨⟨fun x hx y hy => ?_, fun other hother c hc y hy => ?_⟩, fun x hx => (hhas x).mpr hx⟩
  · exact (hhas y).mpr (h.inside x ((hhas x).mp hx) y hy)
  · rcases List.mem_cons.mp hother with rfl | hother
    · rw [hmissing] at hc
      cases hc
    · exact (hhas y).mpr (h.traced other hother c hc y hy)

/-- A handle whose container is traced. -/
theorem trace (h : s.Marking t marked) (htop : t.handles = handle :: handles) {c : Container}
    (hc : s.heap.get handle = .ok c) (start : Scope) :
    let t' := Tracer.container s (s.depth start) c { t with handles }
    s.Marking t' (handle :: marked) ∧ ∀ x, t.Has marked x → t'.Has (handle :: marked) x := by
  intro t'
  have hcovers : Tracer.Covers s (handle :: marked) { t with handles } t' c.entries :=
    Tracer.covers_container (fun _ he => scope_mem_of_container hc he) _
  have hkeeps : ∀ x, t.Has marked x → t'.Has (handle :: marked) x := fun x hx =>
    hcovers.keeps x ((Tracer.has_pop htop x).mpr hx)
  refine ⟨⟨fun x hx y hy => ?_, fun other hother c' hc' y hy => ?_⟩, hkeeps⟩
  · rcases hcovers.entered x hx with hx | hin
    · exact hkeeps y (h.inside x ((Tracer.has_pop htop x).mp hx) y hy)
    · exact hin y hy
  · rcases List.mem_cons.mp hother with rfl | hother
    · rw [hc] at hc'
      cases hc'
      exact hcovers.found y hy
    · exact hkeeps y (h.traced other hother c' hc' y hy)

end Marking

/-- The marking goes on until no handle waits, and nothing gets lost on the way. -/
theorem marking_mark (start : Scope) {t : Tracer} {marked : List Handle} (h : s.Marking t marked) :
    ∃ t' : Tracer, t'.handles = [] ∧ s.Marking t' (s.mark (s.depth start) t marked) ∧
      ∀ x, t.Has marked x → t'.Has (s.mark (s.depth start) t marked) x := by
  fun_induction s.mark (s.depth start) t marked with
  | case1 t marked hempty => exact ⟨t, hempty, h, fun _ hx => hx⟩
  | case2 t marked handle handles htop hold ih =>
      obtain ⟨hnext, hhas⟩ := h.skip htop hold
      obtain ⟨t', hempty, hmarking, hkeeps⟩ := ih hnext
      exact ⟨t', hempty, hmarking, fun x hx => hkeeps x (hhas x hx)⟩
  | case3 t marked handle handles htop _ c hc ih =>
      obtain ⟨hnext, hhas⟩ := h.trace htop hc start
      obtain ⟨t', hempty, hmarking, hkeeps⟩ := ih hnext
      exact ⟨t', hempty, hmarking, fun x hx => hkeeps x (hhas x hx)⟩
  | case4 t marked handle handles htop _ f hmissing ih =>
      obtain ⟨hnext, hhas⟩ := h.missing htop hmissing
      obtain ⟨t', hempty, hmarking, hkeeps⟩ := ih hnext
      exact ⟨t', hempty, hmarking, fun x hx => hkeeps x (hhas x hx)⟩

end Store

/-! ### Records and points -/

/-- The points that something on record stands for. A scope stands for all its frames. -/
def Entry.nodes : Entry → List Node
  | .handle h => [.container h]
  | .list id => [.list id]
  | .scope e => e.frames.map .frame

theorem Function.nodes_eq (f : Function) : f.nodes = f.entries.flatMap Entry.nodes := by
  rw [nodes, entries, List.flatMap_assoc]
  congr 1
  funext o
  cases o.code <;> simp [Code.nodes, Code.scope?, Entry.nodes]

theorem Value.nodes_eq (v : Value) : v.nodes = v.entries.flatMap Entry.nodes := by
  cases v with
  | function f => exact f.nodes_eq
  | object _ | list _ | number _ | string _ | boolean _ | null => rfl

theorem Member.nodes_eq (m : Member) : m.nodes = m.entries.flatMap Entry.nodes := by
  rw [nodes, entries, List.flatMap_append, ← Value.nodes_eq, List.flatMap_assoc]
  cases m.form <;> simp [MemberForm.accessors, Entry.nodes]

theorem Container.nodes_eq (c : Container) : c.nodes = c.entries.flatMap Entry.nodes := by
  have hfunctions : Function.nodes = fun f => f.entries.flatMap Entry.nodes :=
    funext Function.nodes_eq
  have hmembers : Member.nodes = fun m => m.entries.flatMap Entry.nodes := funext Member.nodes_eq
  simp only [nodes, entries, List.flatMap_append, List.flatMap_assoc, hfunctions, hmembers,
    allMembers, operators]
  congr 3
  cases c.kind with
  | classOf parent => cases parent <;> rfl
  | instanceOf cls => rfl

namespace Store

variable {s : Store} {t : Tracer} {marked : List Handle}

/-- Each frame of a scope that was entered is the innermost one of such a scope. -/
theorem Marking.exists_inner (h : s.Marking t marked) {e : Scope} (he : e ∈ t.seenScopes)
    {id : FrameId} (hid : id ∈ e.frames) : ∃ e' ∈ t.seenScopes, e'.inner = id := by
  obtain ⟨inner, outer⟩ := e
  induction outer generalizing inner with
  | nil => exact ⟨_, he, (List.mem_singleton.mp hid).symm⟩
  | cons next outer ih =>
      rcases List.mem_cons.mp hid with rfl | hid
      · exact ⟨_, he, rfl⟩
      · refine ih next (h.inside (.scope ⟨inner, next :: outer⟩) he (.scope ⟨next, outer⟩) ?_) hid
        exact List.mem_append_right _ (List.mem_singleton_self _)

/-- No arrow leads out of the points on record. -/
theorem Marking.arrows (h : s.Marking t marked) (hempty : t.handles = []) {a b : Node}
    (ha : ∃ x, t.Has marked x ∧ a ∈ x.nodes) (hb : b ∈ s.arrows a) :
    ∃ x, t.Has marked x ∧ b ∈ x.nodes := by
  obtain ⟨x, hx, ha⟩ := ha
  cases x with
  | handle handle =>
      cases List.mem_singleton.mp ha
      have hmarked : handle ∈ marked := by simpa [Tracer.Has, hempty] using hx
      simp only [Store.arrows] at hb
      split at hb
      · next c hc =>
          rw [Container.nodes_eq] at hb
          obtain ⟨y, hy, hb⟩ := List.mem_flatMap.mp hb
          exact ⟨y, h.traced handle hmarked c hc y hy, hb⟩
      · exact absurd hb List.not_mem_nil
  | list id =>
      cases List.mem_singleton.mp ha
      obtain ⟨v, hv, hb⟩ := List.mem_flatMap.mp hb
      rw [Value.nodes_eq] at hb
      obtain ⟨y, hy, hb⟩ := List.mem_flatMap.mp hb
      exact ⟨y, h.inside (.list id) hx y (List.mem_flatMap.mpr ⟨v, hv, hy⟩), hb⟩
  | scope e =>
      obtain ⟨id, hid, rfl⟩ := List.mem_map.mp ha
      obtain ⟨e', he', rfl⟩ := h.exists_inner hx hid
      simp only [Store.arrows] at hb
      split at hb
      · next frame hframe =>
          obtain ⟨binding, hbinding, hb⟩ := List.mem_flatMap.mp hb
          rw [Value.nodes_eq] at hb
          obtain ⟨y, hy, hb⟩ := List.mem_flatMap.mp hb
          have hbinding' := mem_bindings.mpr ⟨frame, hframe, hbinding⟩
          refine ⟨y, h.inside (.scope e') he' y (List.mem_append_left _ ?_), hb⟩
          exact List.mem_flatMap.mpr ⟨binding, hbinding', hy⟩
      · exact absurd hb List.not_mem_nil

section Marks

variable (s) (scope : Scope) (handles : List Handle)

theorem sound_start :
    (Tracer.start s scope handles).Sound
      (Reach.Reachable s.arrows (scope.frames.map .frame ++ handles.map .container)) := by
  refine List.foldlRecOn _ _ ?_ fun t ht handle hhandle => ht.push (.base ?_)
  · refine Tracer.Sound.scope (fun a ha b hb => .step ha hb)
      (fun _ hhandle => absurd hhandle List.not_mem_nil) _ fun id hid => .base ?_
    exact List.mem_append_left _ (List.mem_map.mpr ⟨id, hid, rfl⟩)
  · exact List.mem_append_right _ (List.mem_map.mpr ⟨handle, hhandle, rfl⟩)

theorem covers_start :
    Tracer.Covers s [] {} (Tracer.start s scope handles)
      ([.scope scope] ++ handles.flatMap fun handle => [.handle handle]) := by
  refine (Tracer.covers_scope self_mem_surroundings {}).trans (.foldl ?_)
  intro handle _ t _
  exact .push t handle

theorem marking_start : s.Marking (Tracer.start s scope handles) [] := by
  refine ⟨fun x hx => ?_, fun _ hhandle => absurd hhandle List.not_mem_nil⟩
  rcases (s.covers_start scope handles).entered x hx with hx | hin
  · -- before the start there was nothing
    cases x with
    | handle handle => exact absurd hx (by simp [Tracer.Has])
    | list id => exact absurd hx List.not_mem_nil
    | scope e => exact absurd hx List.not_mem_nil
  · exact hin

variable {s scope handles}

theorem mem_marks_of_reachable {handle : Handle}
    (h : Reach.Reachable s.arrows (scope.frames.map .frame ++ handles.map .container)
      (.container handle)) : handle ∈ s.marks scope handles := by
  obtain ⟨t, hempty, hmarking, hkeeps⟩ := marking_mark scope (s.marking_start scope handles)
  have hstart := fun x hx => hkeeps x ((s.covers_start scope handles).found x hx)
  have hrecord : ∀ a ∈ scope.frames.map Node.frame ++ handles.map .container,
      ∃ x, t.Has (s.marks scope handles) x ∧ a ∈ x.nodes := by
    intro a ha
    rcases List.mem_append.mp ha with ha | ha
    · exact ⟨.scope scope, hstart _ List.mem_cons_self, ha⟩
    · obtain ⟨handle, hhandle, rfl⟩ := List.mem_map.mp ha
      refine ⟨.handle handle, hstart _ (List.mem_append_right _ ?_), List.mem_singleton_self _⟩
      exact List.mem_flatMap.mpr ⟨handle, hhandle, List.mem_singleton_self _⟩
  obtain ⟨x, hx, hnode⟩ := h.mem_of_closed hrecord fun a ha b hb => hmarking.arrows hempty ha hb
  cases x with
  | handle other =>
      cases List.mem_singleton.mp hnode
      simpa [Tracer.Has, hempty] using hx
  | list id => cases List.mem_singleton.mp hnode
  | scope e =>
      obtain ⟨_, _, hframe⟩ := List.mem_map.mp hnode
      cases hframe

/-- A collection marks exactly the containers that can be reached. -/
theorem mem_marks_iff {handle : Handle} :
    handle ∈ s.marks scope handles ↔ .container handle ∈ s.live scope handles := by
  rw [mem_live]
  refine ⟨fun h => ?_, mem_marks_of_reachable⟩
  exact sound_mark (fun a ha b hb => .step ha hb) (s.sound_start scope handles)
    (fun _ hhandle => absurd hhandle List.not_mem_nil) handle h

end Marks

end Store

end ClassScript
