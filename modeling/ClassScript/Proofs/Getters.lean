import ClassScript.Proofs.CustodyCode
import ClassScript.Proofs.FailedClasses

/-!
# Reading properties

A getter finds the cached value of its property in the variable `field`, in a frame that is made for
the read. When its body has ended, what is then in the variable is stored in the property. If the
body does not set the variable, that is the value which was cached when the read began. So a read
leaves the property as it found it, and undoes what code that the getter ran wrote to it.
-/

namespace ClassScript

def State.cached (s : State) (slot : MemberSlot) (name : String) : Option Value :=
  ((s.heap.get slot.handle).toOption.bind fun c => (c.table slot.isStatic).get? name).map
    Member.value

section Slots

variable {s t : State} {slot : MemberSlot} {name : String}

theorem State.Holds.cached {m : Member} (h : s.Holds slot name m) :
    s.cached slot name = some m.value := by
  obtain ⟨c, hc, _, hget⟩ := h
  rw [State.cached, hc]
  exact congrArg (Option.map Member.value) hget

/-- A stored value is the one that the member has then, and nothing else changes. -/
theorem Evaluator.store_eq_ok {v : Value} (h : Evaluator.store slot name v s = .ok () t) :
    t = s.apply (.setMember slot name v) ∧ t.cached slot name = some v := by
  obtain ⟨c, u, hask, hwrite⟩ := exists_of_bind_eq_ok h
  obtain ⟨hc, rfl⟩ := Exec.ask_eq_ok hask
  split at hwrite
  · next hcontains =>
      obtain rfl : u.apply (.setMember slot name v) = t := by
        cases hwrite
        rfl
      refine ⟨rfl, ?_⟩
      obtain ⟨m, hm⟩ := Option.isSome_iff_exists.mp hcontains
      have hget : (u.apply (.setMember slot name v)).heap.get slot.handle =
          .ok (c.setValue slot.isStatic name v) := by
        rw [State.apply, Heap.get_modify, if_pos rfl, hc]
        rfl
      have htable : (c.setValue slot.isStatic name v).table slot.isStatic =
          (c.table slot.isStatic).insert name { m with value := v } := by
        rw [Container.setValue, hm]
        exact (Container.table_setTable ..).trans (if_pos rfl)
      rw [State.cached, hget]
      change (Assoc.get? ((c.setValue slot.isStatic name v).table slot.isStatic) name).map
        Member.value = some v
      rw [htable, Assoc.get?_insert_self]
      rfl
  · cases hwrite

end Slots

/-! ## A variable that is left alone -/

/-- Only closures that spare a variable, which keeps its binding. -/
def Custody.sparing (x : Variable) : Custody where
  contents := x.spared
  strict := False
  watches := (· = x)
  formed := False.elim
  spared := by
    rintro _ rfl f hf
    exact hf
  accessor a := by
    constructor
    · rintro ha _ rfl
      exact ha
    · exact fun ha => ha x rfl
  add _ _ _ hf ho hadd := (Function.add_eq_ok_iff.mp hadd).1 ▸ hf.push (ho x rfl)

/-- A host whose functions spare every variable that calls spare. -/
def Host.Sparing (host : Host) : Prop :=
  ∀ x, host.Under (.sparing x)

/-! ## The frame of a getter -/

namespace State

def opened (s : State) (this field : Binding) : State :=
  ((s.apply .frame).apply (.bind s.frames.size "this" this)).apply
    (.bind s.frames.size "field" field)

theorem lt_size_opened (s : State) (this field : Binding) :
    s.frames.size < (s.opened this field).frames.size := by
  simp [opened, apply]

theorem local?_opened (s : State) (this field : Binding) :
    (s.opened this field).frames.local? s.frames.size "field" = some field :=
  Frames.local?_define_self (by simp [apply]) "field" field

/-- No closure that is older than the frame sees its variables. -/
theorem Framed.holds_opened {s : State} (hs : s.Framed) {this field : Binding}
    (hthis : this.value.Only (.closures (Closure.Framed s)))
    (hfield : field.value.Only (.closures (Closure.Framed s))) {name : String} :
    (Custody.sparing ⟨s.frames.size, name⟩).Holds (s.opened this field) := by
  have hunseen : ∀ c : Closure, c.Framed s → Variable.SparedBy ⟨s.frames.size, name⟩ c :=
    fun c hc hsees => absurd (hc _ hsees) (Nat.lt_irrefl _)
  have hopened := (Only.apply hs (c := .frame) trivial).apply
    (c := .bind s.frames.size "this" this) hthis
  have honly := hopened.apply (c := .bind s.frames.size "field" field) hfield
  refine ⟨honly.mono (Contents.closures_mono hunseen), ?_⟩
  rintro _ rfl
  exact s.lt_size_opened this field

end State

/-! ## Reads -/

namespace Evaluator

open Exec

variable {ev : Evaluator} {s t : State}

/-- The steps of a successful read through a getter. -/
theorem memberGet_eq_ok {object v : Value} {name : String} {handle : Handle} {slot : MemberSlot}
    {m : Member} {getter : AccessorCode} {setter : Option AccessorCode}
    (hm : s.accessed object name = .ok (handle, slot, m))
    (hform : m.form = .property (some getter) setter)
    (h : ev.memberGet object name s = .ok v t) :
    ∃ produced field u, ev.runAccessor getter object m.ty m.value none s = .ok (produced, field) u ∧
      store slot name field u = .ok () t ∧ v = produced.getD field := by
  obtain ⟨found, u, hfound, h⟩ := exists_of_bind_eq_ok h
  obtain ⟨hfound, rfl⟩ := ask_eq_ok hfound
  obtain rfl : (handle, slot, m) = found := Except.ok.inj (hm.symm.trans hfound)
  dsimp only at h
  rw [hform] at h
  obtain ⟨⟨produced, field⟩, w, hrun, h⟩ := exists_of_bind_eq_ok h
  obtain ⟨_, t', hstore, h⟩ := exists_of_bind_eq_ok h
  cases h
  exact ⟨produced, field, w, hrun, hstore, rfl⟩

theorem checkDepth_eq_ok (h : ev.checkDepth s = .ok () t) : t = s := by
  obtain ⟨_, _, hget, h⟩ := exists_of_bind_eq_ok h
  cases hget
  split at h
  · cases h
  · cases h
    rfl

theorem runAccessor_eq_ok {code : AccessorCode} {this field : Value} {ty : Ty}
    {r : Option Value × Value} (h : ev.runAccessor code this ty field none s = .ok r t) :
    ∃ thisTy, ev.runAccessorBody code (code.scope.child s.frames.size) field
      (s.opened ⟨thisTy, this, true⟩ ⟨ty, field, false⟩) = .ok r t := by
  unfold runAccessor at h
  obtain ⟨_, u, hdepth, hcall⟩ := exists_of_bind_eq_ok h
  obtain rfl := checkDepth_eq_ok hdepth
  obtain ⟨scope, u₁, hscope, hbind⟩ := exists_of_bind_eq_ok hcall
  cases hscope
  obtain ⟨_, u₂, hbindThis, hnext⟩ := exists_of_bind_eq_ok hbind
  obtain ⟨thisTy, _, hty, hdefineThis⟩ := exists_of_bind_eq_ok hbindThis
  obtain ⟨_, rfl⟩ := ask_eq_ok hty
  cases hdefineThis
  obtain ⟨_, u₃, hdefine, hbody⟩ := exists_of_bind_eq_ok hnext
  cases hdefine
  exact ⟨thisTy, hbody⟩

theorem runAccessorBody_eq_ok {code : AccessorCode} {scope : Scope} {field left : Value}
    {produced : Option Value}
    (h : ev.runAccessorBody code scope field s = .ok (produced, left) t) :
    (∃ flow, deeper (asCodeOf code.owner (ev.exec scope code.body)) s = .ok flow t) ∧
      left = ((t.frames.local? scope.inner "field").map Binding.value).getD field := by
  unfold runAccessorBody at h
  rw [Exec.roomy_eq] at h
  obtain ⟨flow, u, hrun, hend⟩ := exists_of_bind_eq_ok h
  cases flow with
  | normal value | returned value =>
      cases hend
      exact ⟨⟨_, hrun⟩, rfl⟩

/-- A getter that does not set `field` leaves in it what it found there, whatever other accessors
and functions it runs. -/
theorem field_of_runAccessor (hev : ∀ x, ev.Under (.sparing x)) (hs : s.Framed)
    {code : AccessorCode} (hassigns : code.body.assigns "field" = false)
    (hbinds : code.body.binds "field" = false) {this field left : Value}
    (hthis : this.Only (.closures (Closure.Framed s)))
    (hfield : field.Only (.closures (Closure.Framed s))) {ty : Ty} {produced : Option Value}
    (h : ev.runAccessor code this ty field none s = .ok (produced, left) t) : left = field := by
  -- the frame of the variable is the one that the read makes
  let x : Variable := ⟨s.frames.size, "field"⟩
  obtain ⟨thisTy, hrun⟩ := runAccessor_eq_ok h
  obtain ⟨⟨flow, hbody⟩, hleft⟩ := runAccessorBody_eq_ok hrun
  have hadmits : (Custody.sparing x).Admits (code.scope.child s.frames.size) code.body := by
    constructor
    · rintro _ rfl _
      exact hassigns
    · rintro _ rfl _
      exact hbinds
  have hkeeps := (Exec.Under.deeper (.asCodeOf code.owner ((hev x).exec hadmits))).keeps
    (hs.holds_opened hthis hfield) hbody
  have hlocal : t.frames.local? s.frames.size "field" = some ⟨ty, field, false⟩ :=
    (hkeeps.same x rfl).trans (s.local?_opened _ _)
  rw [hleft]
  exact congrArg (fun b => (b.map Binding.value).getD field) hlocal

end Evaluator

/-- A read through a getter that does not set `field` stores in the property the value that was
cached when the read began. So the property has in the end the value that it had when the body of
the getter ended exactly if it then had the one from before the read. -/
theorem cached_of_memberGet {config : Config} (hhost : config.host.Sparing) (fuel : Nat)
    {s t : State} (hs : s.Framed) {object v : Value} {name : String} {handle : Handle}
    {slot : MemberSlot} {m : Member} {getter : AccessorCode} {setter : Option AccessorCode}
    (hm : s.accessed object name = .ok (handle, slot, m))
    (hform : m.form = .property (some getter) setter)
    (hassigns : getter.body.assigns "field" = false) (hbinds : getter.body.binds "field" = false)
    (h : (evaluator config fuel).memberGet object name s = .ok v t) :
    ∃ produced u, (evaluator config fuel).runAccessor getter object m.ty m.value none s =
        .ok (produced, m.value) u ∧
      v = produced.getD m.value ∧ t = u.apply (.setMember slot name m.value) ∧
      t.cached slot name = s.cached slot name ∧
      (t.cached slot name = u.cached slot name ↔ u.cached slot name = s.cached slot name) := by
  have hholds := State.holds_of_accessed hm
  have hvalue : m.value.Only (.closures (Closure.Framed s)) := by
    obtain ⟨c, hc, _, hget⟩ := hholds
    exact ((hs.container _ c hc).member slot.isStatic m (Assoc.mem_values_of_get? hget)).value
  -- what has a member is an object, and so holds no closure itself
  have hobject : object.Only (.closures (Closure.Framed s)) := by
    obtain ⟨_, hhandle, _⟩ := exists_answer_of_bind_eq_ok hm
    cases object with
    | function f =>
        obtain ⟨_, _, hfault⟩ := exists_answer_of_bind_eq_ok hhandle
        cases hfault
    | number _ | string _ | boolean _ | list _ | object _ | null => trivial
  obtain ⟨produced, field, u, hrun, hstore, hv⟩ := Evaluator.memberGet_eq_ok hm hform h
  have hev : ∀ x, (evaluator config fuel).Under (.sparing x) :=
    fun x => under_evaluator (hhost x) fuel
  obtain rfl := Evaluator.field_of_runAccessor hev hs hassigns hbinds hobject hvalue hrun
  obtain ⟨ht, hcached⟩ := Evaluator.store_eq_ok hstore
  have hsame : t.cached slot name = s.cached slot name := hcached.trans hholds.cached.symm
  refine ⟨produced, u, hrun, hv, ht, hsame, ?_⟩
  rw [hsame]
  exact eq_comm

/-! ## A property that its getter can write to -/

theorem Exec.exists_of_not_halts {α : Type} {action : Exec α} {s : State}
    (h : action.halts s = false) : ∃ a, action s = .ok a (action.final s) := by
  unfold halts at h
  cases hrun : action s with
  | ok a t => exact ⟨a, by rw [final, hrun]⟩
  | error why t =>
      rw [hrun] at h
      cases h

/-- From a state that arises a program leads to one that does. -/
theorem State.Arises.program {declared : List (String × String)} {s : State}
    (h : Arises declared [] s) (config : Config) (fuel : Nat) (statements : List Stmt) :
    ∃ declared', Arises declared' [] (((evaluator config fuel).program statements).final s) := by
  obtain ⟨stale, hs⟩ := h.intact
  have hhosts : (Horizon.beyond stale).Hosts config.host config.host :=
    fun _ _ _ _ _ _ _ name hname => absurd rfl (hname name)
  have hmatch := Horizon.matches_evaluator hhosts nofun (Or.inl rfl) fuel
  have hrun : (Horizon.beyond stale).Coupled [] _ s s _ _ :=
    hmatch.program statements (.refl hs.closed)
  unfold Exec.final
  generalize (evaluator config fuel).program statements s = r at hrun
  cases hrun with
  | ok cs hcs _ a ha => exact ⟨_, (h.after hs hcs).idle⟩
  | halt cs hcs why hwhy => exact ⟨_, (h.after hs hcs).idle⟩
  | cut why hwhy => exact hwhy.elim

def switchSetter : Stmt :=
  .block [.expr (.assign "field" (.var "value"))]

/-- A class with a property that is off at first. -/
def switchClass (getter : Stmt) : ClassDecl where
  name := "Switch"
  bases := []
  members := [⟨.everywhere, false, .property "on" (some .boolean) (some ⟨"get", [], none, getter⟩)
    (some ⟨"set", [], none, switchSetter⟩) (some (.boolean false))⟩]

def switch (getter : Stmt) : Member where
  access := .everywhere
  ty := .boolean
  value := .boolean false
  owner := "Switch"
  form := .property (some ⟨getter, State.start.globals, some "Switch"⟩)
    (some ⟨switchSetter, State.start.globals, some "Switch"⟩)

/-- A state with an instance of the class, under the handle 4. -/
def State.switched (getter : Stmt) : State :=
  ((evaluator {} 10).program
    [.classDecl (switchClass getter), .expr (.call (.var "Switch") [])]).final State.start

theorem State.framed_switched (getter : Stmt) : (State.switched getter).Framed := by
  obtain ⟨_, harises⟩ := (Arises.start {}).program {} 10
    [.classDecl (switchClass getter), .expr (.call (.var "Switch") [])]
  exact harises.framed

/-- A getter that writes nothing. -/
theorem cached_of_memberGet_unwritten :
    let ev := evaluator {} 10
    let s := State.switched (.block [.ret (some (.var "field"))])
    s.Framed ∧ ∃ v t produced u, ev.memberGet (.object 4) "on" s = .ok v t ∧
      ev.runAccessor ⟨.block [.ret (some (.var "field"))], State.start.globals, some "Switch"⟩
        (.object 4) .boolean (.boolean false) none s = .ok (produced, .boolean false) u ∧
      t.cached ⟨4, false⟩ "on" = u.cached ⟨4, false⟩ "on" := by
  intro ev s
  have hs : s.Framed := State.framed_switched _
  have hhost : Config.host {} |>.Sparing := fun _ => Host.under_none
  obtain ⟨v, hread⟩ := Exec.exists_of_not_halts
    (show (ev.memberGet (.object 4) "on").halts s = false by decide +kernel)
  have hm : s.accessed (.object 4) "on" =
      .ok (4, ⟨4, false⟩, switch (.block [.ret (some (.var "field"))])) := rfl
  obtain ⟨produced, u, hrun, _, _, _, hiff⟩ :=
    cached_of_memberGet hhost 10 hs hm rfl (by decide) (by decide) hread
  refine ⟨hs, v, _, produced, u, hread, hrun, hiff.mpr ?_⟩
  have hfinal := Exec.final_of_ok hrun
  rw [← hfinal]
  rfl

/-- A getter that writes to its property through the setter: the write is there when the body has
ended, and lost after the read. -/
theorem memberGet_loses_write :
    let ev := evaluator {} 10
    let getter : Stmt := .block
      [.expr (.memberSet (.var "this") "on" (.boolean true)), .ret (some (.var "field"))]
    let s := State.switched getter
    let u := (ev.runAccessor ⟨getter, State.start.globals, some "Switch"⟩ (.object 4) .boolean
      (.boolean false) none).final s
    let t := (ev.memberGet (.object 4) "on").final s
    s.Framed ∧ s.accessed (.object 4) "on" = .ok (4, ⟨4, false⟩, switch getter) ∧
      getter.assigns "field" = false ∧ getter.binds "field" = false ∧
      (ev.memberGet (.object 4) "on").halts s = false ∧
      (u.cached ⟨4, false⟩ "on").map Value.truthy = some true ∧
      (t.cached ⟨4, false⟩ "on").map Value.truthy = some false := by
  intro ev getter s u t
  exact ⟨State.framed_switched getter, rfl, by decide, by decide, by decide +kernel,
    by decide +kernel, by decide +kernel⟩

end ClassScript
