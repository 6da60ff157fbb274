import ClassScript.Proofs.Outcomes
import ClassScript.Run.ClassBody

/-!
# What a class body declares

The body of a class comes to a list of items: fields and properties with their first values, and
overloads of methods and operators. The items alone say what the class has by itself. A field or a
property is what it was declared to be. The overloads of one method make one function together, and
so do those of one operator. If a field of the same name stands before the methods and holds a
function, they join that function.

A class in the making starts with the tables of its parent and changes them item by item. All the
time it has what the items so far say, and the rest from its parent.
-/

namespace ClassScript

theorem Exec.ask_eq_ok {α : Type} {question : State → Except Fault α} {s t : State} {a : α}
    (h : Exec.ask question s = .ok a t) : question s = .ok a ∧ t = s := by
  unfold ask at h
  split at h
  · next hanswer =>
      cases h
      exact ⟨hanswer, rfl⟩
  · cases h

/-! ## Items -/

/-- What a declaration in a class body means for the instances of the class. -/
inductive Item where
  /-- A field or a property. -/
  | member (name : String) (m : Member)
  /-- One overload of a method. -/
  | method (access : Access) (name : String) (o : Overload)
  | binary (op : BinOp) (name : String) (o : Overload)
  | unary (op : UnOp) (name : String) (o : Overload)
  /-- A constructor or something static: nothing. -/
  | apart

namespace Item

def member? (name : String) : Item → Option Member
  | .member other m => if other = name then some m else none
  | _ => none

/-- The overload of a method of a name, and how far it can be seen. -/
def method? (name : String) : Item → Option (Access × Overload)
  | .method access other o => if other = name then some (access, o) else none
  | _ => none

def binary? (op : BinOp) : Item → Option (String × Overload)
  | .binary other name o => if other = op then some (name, o) else none
  | _ => none

def unary? (op : UnOp) : Item → Option (String × Overload)
  | .unary other name o => if other = op then some (name, o) else none
  | _ => none

end Item

structure Own where
  member : String → Option Member
  binary : BinOp → Option Function
  unary : UnOp → Option Function

namespace Own

/-- The function that methods of a name join: the one that a field of that name holds, or a new
one. -/
def joined (name : String) : Option Member → Function
  | some { value := .function f, .. } => f
  | _ => { name }

/-- The member that a field or property of a name and some methods of that name make together. The
last method says how far it can be seen. -/
def merged (cls name : String) (field : Option Member) (methods : List (Access × Overload)) :
    Option Member :=
  match methods.getLast? with
  | none => field
  | some (access, _) =>
      let f := joined name field
      some { access, ty := .function, owner := cls, form := .field true,
             value := .function { f with overloads := f.overloads ++ methods.map Prod.snd } }

/-- The function that some overloads of an operator make together, under the name of the first. -/
def operator (overloads : List (String × Overload)) : Option Function :=
  overloads.head?.map fun first => { name := first.1, overloads := overloads.map Prod.snd }

def ofItems (cls : String) (items : List Item) : Own where
  member name := merged cls name (items.findSome? (Item.member? name))
    (items.filterMap (Item.method? name))
  binary op := operator (items.filterMap (Item.binary? op))
  unary op := operator (items.filterMap (Item.unary? op))

end Own

/-- For its instances a class has what it declares, and the rest exactly as its parent has it. -/
structure Container.Derives (c : Container) (own : Own) (parent : Option Container) : Prop where
  member : ∀ name, c.members.get? name =
    (own.member name).or (parent.bind fun p => p.members.get? name)
  binary : ∀ op, c.binaryOps.get? op =
    (own.binary op).or (parent.bind fun p => p.binaryOps.get? op)
  unary : ∀ op, c.unaryOps.get? op = (own.unary op).or (parent.bind fun p => p.unaryOps.get? op)

/-! ## From declarations to items -/

def Overload.ofDecl (decl : FunctionDecl) (scope : Scope) (cls : String) : Overload where
  params := decl.params
  returnType := decl.returnType
  code := .script decl.body scope
  owner := some cls

def AccessorCode.ofDecl (decl : FunctionDecl) (scope : Scope) (cls : String) : AccessorCode where
  body := decl.body
  scope := scope
  owner := some cls

/-- What a declaration comes to, in a state, and the state after it. The first value of a field or a
property is evaluated when its declaration is reached, also if it is a static one. -/
inductive Declares (ev : Evaluator) (scope : Scope) (cls : String) :
    State → MemberDecl → Item → State → Prop
  | field {m : MemberDecl} {name : String} {readonly : Bool} {ty : Option Ty} {value : Option Expr}
      {r : Ty × Value} {s t : State} (hstatic : m.isStatic = false)
      (hbody : m.body = .field name readonly ty value)
      (hvalue : ev.initialValue scope name ty value s = .ok r t) :
      Declares ev scope cls s m (.member name
        { access := m.access, ty := r.1, value := r.2, owner := cls, form := .field readonly }) t
  | property {m : MemberDecl} {name : String} {ty : Option Ty} {getter setter : Option FunctionDecl}
      {value : Option Expr} {r : Ty × Value} {s t : State} (hstatic : m.isStatic = false)
      (hbody : m.body = .property name ty getter setter value)
      (hvalue : ev.initialValue scope name ty value s = .ok r t) :
      Declares ev scope cls s m (.member name
        { access := m.access, ty := r.1, value := r.2, owner := cls,
          form := .property (getter.map (AccessorCode.ofDecl · scope cls))
            (setter.map (AccessorCode.ofDecl · scope cls)) }) t
  | method {m : MemberDecl} {decl : FunctionDecl} {s : State} (hstatic : m.isStatic = false)
      (hbody : m.body = .method decl) :
      Declares ev scope cls s m (.method m.access decl.name (.ofDecl decl scope cls)) s
  | binary {m : MemberDecl} {op : BinOp} {decl : FunctionDecl} {s : State}
      (hbody : m.body = .binary op decl) :
      Declares ev scope cls s m (.binary op decl.name (.ofDecl decl scope cls)) s
  | unary {m : MemberDecl} {op : UnOp} {decl : FunctionDecl} {s : State}
      (hbody : m.body = .unary op decl) :
      Declares ev scope cls s m (.unary op decl.name (.ofDecl decl scope cls)) s
  | constructor {m : MemberDecl} {decl : FunctionDecl} {s : State}
      (hbody : m.body = .constructor decl) : Declares ev scope cls s m .apart s
  | staticField {m : MemberDecl} {name : String} {readonly : Bool} {ty : Option Ty}
      {value : Option Expr} {r : Ty × Value} {s t : State} (hstatic : m.isStatic = true)
      (hbody : m.body = .field name readonly ty value)
      (hvalue : ev.initialValue scope name ty value s = .ok r t) :
      Declares ev scope cls s m .apart t
  | staticProperty {m : MemberDecl} {name : String} {ty : Option Ty}
      {getter setter : Option FunctionDecl} {value : Option Expr} {r : Ty × Value} {s t : State}
      (hstatic : m.isStatic = true) (hbody : m.body = .property name ty getter setter value)
      (hvalue : ev.initialValue scope name ty value s = .ok r t) :
      Declares ev scope cls s m .apart t
  | staticMethod {m : MemberDecl} {decl : FunctionDecl} {s : State} (hstatic : m.isStatic = true)
      (hbody : m.body = .method decl) : Declares ev scope cls s m .apart s

inductive DeclaresAll (ev : Evaluator) (scope : Scope) (cls : String) :
    State → List MemberDecl → List Item → State → Prop
  | nil {s : State} : DeclaresAll ev scope cls s [] [] s
  | cons {s t u : State} {m : MemberDecl} {ms : List MemberDecl} {item : Item} {items : List Item}
      (hm : Declares ev scope cls s m item t) (hms : DeclaresAll ev scope cls t ms items u) :
      DeclaresAll ev scope cls s (m :: ms) (item :: items) u

def Own.OfBody (own : Own) (cls : String) : Prop :=
  ∃ ev scope items s t, ∃ decl : ClassDecl, decl.name = cls ∧
    DeclaresAll ev scope cls s decl.members items t ∧ own = .ofItems cls items

namespace State

variable {s : State} {cls : String}

theorem overload_eq (h : s.currentClass = some cls) (scope : Scope) (decl : FunctionDecl) :
    s.overload scope decl = .ofDecl decl scope cls := by
  rw [overload, h]
  rfl

theorem accessor_eq (h : s.currentClass = some cls) (scope : Scope) :
    s.accessor scope = (AccessorCode.ofDecl · scope cls) := by
  funext decl
  rw [accessor, h]
  rfl

end State

/-! ## Tables that are overridden -/

/-- A table has what is declared so far, and the rest as it was inherited. -/
structure Overrides {κ α : Type} [DecidableEq κ] (declared : List κ) (table inherited : Assoc κ α)
    (own : κ → Option α) : Prop where
  declared : ∀ k, k ∈ declared ↔ (own k).isSome
  get? : ∀ k, table.get? k = (own k).or (inherited.get? k)

namespace Overrides

variable {κ α : Type} [DecidableEq κ] {declared : List κ} {table inherited : Assoc κ α}
  {own own' : κ → Option α}

theorem start (inherited : Assoc κ α) : Overrides [] inherited inherited fun _ => none where
  declared _ := by simp
  get? _ := rfl

theorem congr (h : Overrides declared table inherited own) (heq : ∀ k, own' k = own k) :
    Overrides declared table inherited own' :=
  funext heq ▸ h

theorem insert (h : Overrides declared table inherited own) {k : κ} {a : α} (hk : own' k = some a)
    (hothers : ∀ other, other ≠ k → own' other = own other) :
    Overrides (k :: declared) (table.insert k a) inherited own' where
  declared other := by
    by_cases hother : other = k
    · rw [hother, hk]
      simp
    · rw [hothers other hother, ← h.declared other, List.mem_cons, or_iff_right hother]
  get? other := by
    by_cases hother : other = k
    · rw [hother, hk, Assoc.get?_insert_self]
      rfl
    · rw [hothers other hother, ← h.get? other, Assoc.get?_insert_of_ne _ (Ne.symm hother)]

/-- What is found under a name that counts as declared was declared. -/
theorem existing (h : Overrides declared table inherited own) (k : κ) :
    (if k ∈ declared then table.get? k else none) = own k := by
  split
  · next hmem =>
      obtain ⟨a, ha⟩ := Option.isSome_iff_exists.mp ((h.declared k).mp hmem)
      rw [h.get? k, ha]
      rfl
  · next hmem =>
      rw [h.declared k, Option.not_isSome_iff_eq_none] at hmem
      exact hmem.symm

end Overrides

/-! ## Own tables, item by item -/

theorem Function.eq_push_of_add {f g : Function} {o : Overload} (h : f.add o = .ok g) :
    g = f.push o := by
  obtain ⟨_, _, h⟩ := exists_answer_of_bind_eq_ok h
  dsimp only at h
  split at h
  · cases h
  · split at h
    · cases h
    · cases h
      rfl

namespace Own

variable {cls : String} {items : List Item}

theorem operator_append (overloads : List (String × Overload)) (name : String) (o : Overload) :
    operator (overloads ++ [(name, o)]) = some (((operator overloads).getD { name }).push o) := by
  cases overloads with
  | nil => rfl
  | cons first rest => simp [operator, Function.push]

theorem merged_nil {name : String} (field : Option Member) : merged cls name field [] = field :=
  rfl

/-- The first method of a name, or one after a field that holds a function or after others. -/
theorem merged_append {name : String} {field : Option Member} {methods : List (Access × Overload)}
    {f : Function} (hf : merged cls name field methods = none ∧ f = { name } ∨
      ∃ m, merged cls name field methods = some m ∧ m.value = .function f)
    (access : Access) (o : Overload) :
    merged cls name field (methods ++ [(access, o)]) =
      some { access, ty := .function, value := .function (f.push o), owner := cls,
             form := .field true } := by
  cases hlast : methods.getLast? with
  | none =>
      obtain rfl := List.getLast?_eq_none_iff.mp hlast
      have hjoined : joined name field = f := by
        rcases hf with ⟨hnone, rfl⟩ | ⟨m, hm, hvalue⟩
        · rw [merged_nil] at hnone
          rw [hnone]
          rfl
        · rw [merged_nil] at hm
          obtain ⟨_, _, value, _, _⟩ := m
          obtain rfl : value = .function f := hvalue
          rw [hm]
          rfl
      simp [merged, hjoined, Function.push]
  | some last =>
      rcases hf with ⟨hnone, _⟩ | ⟨m, hm, hvalue⟩
      · simp [merged, hlast] at hnone
      · simp only [merged, hlast, Option.some.injEq] at hm
        subst hm
        cases hvalue
        simp [merged, Function.push]

theorem member_append_of_none {item : Item} {name : String} (hmember : item.member? name = none)
    (hmethod : item.method? name = none) :
    (ofItems cls (items ++ [item])).member name = (ofItems cls items).member name := by
  simp [ofItems, hmember, hmethod]

theorem member_append_member {name : String} {m : Member}
    (h : (ofItems cls items).member name = none) :
    (ofItems cls (items ++ [.member name m])).member name = some m := by
  have hmerged : merged cls name (items.findSome? (Item.member? name))
      (items.filterMap (Item.method? name)) = none := h
  -- nothing was declared under the name, so no method was
  have hmethods : items.filterMap (Item.method? name) = [] := by
    cases hlast : (items.filterMap (Item.method? name)).getLast? with
    | none => exact List.getLast?_eq_none_iff.mp hlast
    | some last => simp [merged, hlast] at hmerged
  rw [hmethods, merged_nil] at hmerged
  have hnew : [Item.member name m].filterMap (Item.method? name) = [] := rfl
  simp [ofItems, hmerged, hmethods, hnew, Item.member?, merged_nil]

theorem member_append_method {name : String} {f : Function}
    (hf : (ofItems cls items).member name = none ∧ f = { name } ∨
      ∃ m, (ofItems cls items).member name = some m ∧ m.value = .function f)
    (access : Access) (o : Overload) :
    (ofItems cls (items ++ [.method access name o])).member name =
      some { access, ty := .function, value := .function (f.push o), owner := cls,
             form := .field true } := by
  have happend := merged_append hf access o
  simpa [ofItems, Item.member?, Item.method?] using happend

theorem binary_append (op : BinOp) (name : String) (o : Overload) :
    (ofItems cls (items ++ [.binary op name o])).binary op =
      some ((((ofItems cls items).binary op).getD { name }).push o) := by
  simp [ofItems, Item.binary?, ← operator_append]

theorem unary_append (op : UnOp) (name : String) (o : Overload) :
    (ofItems cls (items ++ [.unary op name o])).unary op =
      some ((((ofItems cls items).unary op).getD { name }).push o) := by
  simp [ofItems, Item.unary?, ← operator_append]

theorem binary_append_of_none {item : Item} {op : BinOp} (h : item.binary? op = none) :
    (ofItems cls (items ++ [item])).binary op = (ofItems cls items).binary op := by
  simp [ofItems, h]

theorem unary_append_of_none {item : Item} {op : UnOp} (h : item.unary? op = none) :
    (ofItems cls (items ++ [item])).unary op = (ofItems cls items).unary op := by
  simp [ofItems, h]

end Own

/-! ## What a body declares anything for -/

def MemberDecl.IsMember (m : MemberDecl) (name : String) : Prop :=
  m.isStatic = false ∧
    ((∃ readonly ty value, m.body = .field name readonly ty value) ∨
      (∃ ty getter setter value, m.body = .property name ty getter setter value) ∨
      ∃ decl : FunctionDecl, m.body = .method decl ∧ decl.name = name)

/-- Own tables have something exactly under the names and operators that a body declares. -/
structure Own.Covers (own : Own) (ms : List MemberDecl) : Prop where
  member : ∀ name, (own.member name).isSome ↔ ∃ m ∈ ms, MemberDecl.IsMember m name
  binary : ∀ op, (own.binary op).isSome ↔ ∃ m ∈ ms, ∃ decl, m.body = .binary op decl
  unary : ∀ op, (own.unary op).isSome ↔ ∃ m ∈ ms, ∃ decl, m.body = .unary op decl

section Covers

variable {ev : Evaluator} {scope : Scope} {cls : String} {s t : State} {m : MemberDecl}
  {item : Item}

/-- Declarations and their items, one by one. -/
theorem DeclaresAll.exists_mem_iff {ms : List MemberDecl} {items : List Item}
    (h : DeclaresAll ev scope cls s ms items t) {P : MemberDecl → Prop} {Q : Item → Prop}
    (hPQ : ∀ {s m item t}, Declares ev scope cls s m item t → (Q item ↔ P m)) :
    (∃ item ∈ items, Q item) ↔ ∃ m ∈ ms, P m := by
  induction h with
  | nil => simp
  | cons hm _ ih => simp only [List.mem_cons, exists_eq_or_imp, hPQ hm, ih]

theorem filterMap_ne_nil_iff {α β : Type} {f : α → Option β} {as : List α} :
    as.filterMap f ≠ [] ↔ ∃ a ∈ as, (f a).isSome := by
  simp [List.filterMap_eq_nil_iff, Option.isSome_iff_ne_none]

theorem Own.isSome_merged (name : String) (field : Option Member)
    (methods : List (Access × Overload)) :
    (merged cls name field methods).isSome ↔ field.isSome ∨ methods ≠ [] := by
  cases hlast : methods.getLast? with
  | none => simp [merged, List.getLast?_eq_none_iff.mp hlast]
  | some last =>
      have hne : methods ≠ [] := fun hnil => by simp [hnil] at hlast
      simp [merged, hlast, hne]

theorem Own.isSome_operator (overloads : List (String × Overload)) :
    (operator overloads).isSome ↔ overloads ≠ [] := by
  cases overloads <;> simp [operator]

theorem Declares.isMember_iff (h : Declares ev scope cls s m item t) (name : String) :
    (item.member? name).isSome ∨ (item.method? name).isSome ↔ MemberDecl.IsMember m name := by
  cases h with
  | field hstatic hbody | property hstatic hbody | method hstatic hbody
  | staticField hstatic hbody | staticProperty hstatic hbody | staticMethod hstatic hbody =>
      simp [Item.member?, Item.method?, MemberDecl.IsMember, hstatic, hbody]
  | binary hbody | unary hbody | constructor hbody =>
      simp [Item.member?, Item.method?, MemberDecl.IsMember, hbody]

theorem Declares.isBinary_iff (h : Declares ev scope cls s m item t) (op : BinOp) :
    (item.binary? op).isSome ↔ ∃ decl, m.body = .binary op decl := by
  cases h with
  | field _ hbody | property _ hbody | method _ hbody | staticField _ hbody
  | staticProperty _ hbody | staticMethod _ hbody | binary hbody | unary hbody
  | constructor hbody => simp [Item.binary?, hbody]

theorem Declares.isUnary_iff (h : Declares ev scope cls s m item t) (op : UnOp) :
    (item.unary? op).isSome ↔ ∃ decl, m.body = .unary op decl := by
  cases h with
  | field _ hbody | property _ hbody | method _ hbody | staticField _ hbody
  | staticProperty _ hbody | staticMethod _ hbody | binary hbody | unary hbody
  | constructor hbody => simp [Item.unary?, hbody]

theorem DeclaresAll.covers {ms : List MemberDecl} {items : List Item}
    (h : DeclaresAll ev scope cls s ms items t) : (Own.ofItems cls items).Covers ms where
  member name := by
    rw [← h.exists_mem_iff fun hm => hm.isMember_iff name]
    refine (Own.isSome_merged name _ _).trans ?_
    simp only [List.findSome?_isSome_iff, filterMap_ne_nil_iff, and_or_left, exists_or]
  binary op := by
    rw [← h.exists_mem_iff fun hm => hm.isBinary_iff op]
    exact (Own.isSome_operator _).trans filterMap_ne_nil_iff
  unary op := by
    rw [← h.exists_mem_iff fun hm => hm.isUnary_iff op]
    exact (Own.isSome_operator _).trans filterMap_ne_nil_iff

end Covers

/-! ## Drafts -/

namespace Draft

/-- Nothing has changed that concerns instances. -/
structure SameSide (d d' : Draft) : Prop where
  name : d'.cls.name = d.cls.name
  kind : d'.cls.kind = d.cls.kind
  members : d'.members = d.members ∧ d'.cls.members = d.cls.members
  binaryOps : d'.binaryOps = d.binaryOps ∧ d'.cls.binaryOps = d.cls.binaryOps
  unaryOps : d'.unaryOps = d.unaryOps ∧ d'.cls.unaryOps = d.cls.unaryOps

def Adds (d : Draft) (d' : Draft) : Item → Prop
  | .member name m => d.insert false name m = .ok d'
  | .method access name o => d.addMethod access false name o = .ok d'
  | .binary op name o => d.addBinary op name o = .ok d'
  | .unary op name o => d.addUnary op name o = .ok d'
  | .apart => d.SameSide d'

/-- A class in the making has what the items so far say, and the rest from its parent. -/
structure Reflects (d : Draft) (cls : String) (handle : Handle) (parent : Container)
    (items : List Item) : Prop where
  name : d.cls.name = cls
  kind : d.cls.kind = .classOf (some handle)
  member : Overrides d.members d.cls.members parent.members (Own.ofItems cls items).member
  binary : Overrides d.binaryOps d.cls.binaryOps parent.binaryOps (Own.ofItems cls items).binary
  unary : Overrides d.unaryOps d.cls.unaryOps parent.unaryOps (Own.ofItems cls items).unary

variable {d d' : Draft} {cls : String} {handle : Handle} {parent : Container} {items : List Item}

theorem reflects_inherit (cls : String) (handle : Handle) (parent : Container) :
    (Evaluator.inherit cls handle parent).Reflects cls handle parent [] where
  name := rfl
  kind := rfl
  member := .start parent.members
  binary := .start parent.binaryOps
  unary := .start parent.unaryOps

namespace Reflects

theorem sameSide (h : d.Reflects cls handle parent items) (hsame : d.SameSide d') :
    d'.Reflects cls handle parent items where
  name := hsame.name.trans h.name
  kind := hsame.kind.trans h.kind
  member := by rw [hsame.members.1, hsame.members.2]; exact h.member
  binary := by rw [hsame.binaryOps.1, hsame.binaryOps.2]; exact h.binary
  unary := by rw [hsame.unaryOps.1, hsame.unaryOps.2]; exact h.unary

/-- A member of a name, whether it is a new one or has more overloads than before. -/
theorem put (h : d.Reflects cls handle parent items) {item : Item} {name : String} {m : Member}
    (hmember : (Own.ofItems cls (items ++ [item])).member name = some m)
    (hothers : ∀ other, other ≠ name → item.member? other = none ∧ item.method? other = none)
    (hbinary : ∀ op, item.binary? op = none) (hunary : ∀ op, item.unary? op = none) :
    (d.put false name m).Reflects cls handle parent (items ++ [item]) where
  name := h.name
  kind := h.kind
  member := h.member.insert hmember fun other hother =>
    Own.member_append_of_none (hothers other hother).1 (hothers other hother).2
  binary := h.binary.congr fun op => Own.binary_append_of_none (hbinary op)
  unary := h.unary.congr fun op => Own.unary_append_of_none (hunary op)

theorem insert (h : d.Reflects cls handle parent items) {name : String} {m : Member}
    (hd : d.insert false name m = .ok d') :
    d'.Reflects cls handle parent (items ++ [.member name m]) := by
  unfold Draft.insert at hd
  split at hd
  · cases hd
  · next hmem =>
      cases hd
      -- a name that counts as declared is refused, and an inherited one does not count
      have hnone : (Own.ofItems cls items).member name = none := by
        rw [← h.member.existing name]
        exact if_neg hmem
      refine h.put (Own.member_append_member hnone) (fun other hother => ?_) (fun _ => rfl)
        fun _ => rfl
      exact ⟨if_neg (Ne.symm hother), rfl⟩

/-- A method adds to what the body has declared under its name, never to what is inherited. -/
theorem methodFunction (h : d.Reflects cls handle parent items) {name : String} {f : Function}
    (hf : d.methodFunction false name = .ok f) :
    (Own.ofItems cls items).member name = none ∧ f = { name } ∨
      ∃ m, (Own.ofItems cls items).member name = some m ∧ m.value = .function f := by
  have hexisting : (if name ∈ d.declared false then (d.cls.table false).get? name else none) =
      (Own.ofItems cls items).member name := h.member.existing name
  unfold Draft.methodFunction at hf
  split at hf
  · next hmem =>
      rw [if_pos hmem] at hexisting
      split at hf
      · next hget =>
          cases hf
          exact Or.inr ⟨_, hexisting.symm.trans hget, rfl⟩
      · cases hf
      · next hget =>
          cases hf
          exact Or.inl ⟨hexisting.symm.trans hget, rfl⟩
  · next hmem =>
      cases hf
      rw [if_neg hmem] at hexisting
      exact Or.inl ⟨hexisting.symm, rfl⟩

theorem addMethod (h : d.Reflects cls handle parent items) {access : Access} {name : String}
    {o : Overload} (hd : d.addMethod access false name o = .ok d') :
    d'.Reflects cls handle parent (items ++ [.method access name o]) := by
  obtain ⟨f, hf, hd⟩ := exists_answer_of_bind_eq_ok hd
  obtain ⟨g, hg, hd⟩ := exists_answer_of_bind_eq_ok hd
  cases hd
  obtain rfl := Function.eq_push_of_add hg
  refine h.put ?_ (fun other hother => ⟨rfl, if_neg (Ne.symm hother)⟩) (fun _ => rfl) fun _ => rfl
  rw [h.name]
  exact Own.member_append_method (h.methodFunction hf) access o

theorem addBinary (h : d.Reflects cls handle parent items) {op : BinOp} {name : String}
    {o : Overload} (hd : d.addBinary op name o = .ok d') :
    d'.Reflects cls handle parent (items ++ [.binary op name o]) := by
  obtain ⟨f, hf, hd⟩ := exists_answer_of_bind_eq_ok hd
  cases hd
  rw [h.binary.existing op] at hf
  obtain rfl := Function.eq_push_of_add hf
  exact {
    name := h.name
    kind := h.kind
    member := h.member.congr fun _ => Own.member_append_of_none rfl rfl
    binary := h.binary.insert (Own.binary_append op name o) fun _ hother =>
      Own.binary_append_of_none (if_neg (Ne.symm hother))
    unary := h.unary.congr fun _ => Own.unary_append_of_none rfl }

theorem addUnary (h : d.Reflects cls handle parent items) {op : UnOp} {name : String}
    {o : Overload} (hd : d.addUnary op name o = .ok d') :
    d'.Reflects cls handle parent (items ++ [.unary op name o]) := by
  obtain ⟨f, hf, hd⟩ := exists_answer_of_bind_eq_ok hd
  cases hd
  rw [h.unary.existing op] at hf
  obtain rfl := Function.eq_push_of_add hf
  exact {
    name := h.name
    kind := h.kind
    member := h.member.congr fun _ => Own.member_append_of_none rfl rfl
    binary := h.binary.congr fun _ => Own.binary_append_of_none rfl
    unary := h.unary.insert (Own.unary_append op name o) fun _ hother =>
      Own.unary_append_of_none (if_neg (Ne.symm hother)) }

theorem adds (h : d.Reflects cls handle parent items) {item : Item} (hadds : d.Adds d' item) :
    d'.Reflects cls handle parent (items ++ [item]) := by
  cases item with
  | member name m => exact h.insert hadds
  | method access name o => exact h.addMethod hadds
  | binary op name o => exact h.addBinary hadds
  | unary op name o => exact h.addUnary hadds
  | apart =>
      have hsame := h.sameSide hadds
      exact {
        name := hsame.name
        kind := hsame.kind
        member := hsame.member.congr fun _ => Own.member_append_of_none rfl rfl
        binary := hsame.binary.congr fun _ => Own.binary_append_of_none rfl
        unary := hsame.unary.congr fun _ => Own.unary_append_of_none rfl }

/-- The class that is made in the end. -/
theorem finished (h : d.Reflects cls handle parent items) :
    d.finished.name = cls ∧ d.finished.kind = .classOf (some handle) ∧
      d.finished.Derives (.ofItems cls items) (some parent) := by
  have hderives : d.cls.Derives (.ofItems cls items) (some parent) :=
    ⟨h.member.get?, h.binary.get?, h.unary.get?⟩
  unfold Draft.finished
  split
  · exact ⟨h.name, h.kind, hderives.member, hderives.binary, hderives.unary⟩
  · exact ⟨h.name, h.kind, hderives⟩

end Reflects

/-! ## Static members and constructors -/

theorem sameSide_put (d : Draft) (name : String) (m : Member) : d.SameSide (d.put true name m) :=
  ⟨rfl, rfl, ⟨rfl, rfl⟩, ⟨rfl, rfl⟩, ⟨rfl, rfl⟩⟩

theorem sameSide_insert {name : String} {m : Member} (hd : d.insert true name m = .ok d') :
    d.SameSide d' := by
  unfold insert at hd
  split at hd
  · cases hd
  · cases hd
    exact d.sameSide_put name m

theorem sameSide_addMethod {access : Access} {name : String} {o : Overload}
    (hd : d.addMethod access true name o = .ok d') : d.SameSide d' := by
  obtain ⟨f, _, hd⟩ := exists_answer_of_bind_eq_ok hd
  obtain ⟨g, _, hd⟩ := exists_answer_of_bind_eq_ok hd
  cases hd
  exact d.sameSide_put name _

theorem sameSide_addConstructor {o : Overload} (hd : d.addConstructor o = .ok d') :
    d.SameSide d' := by
  obtain ⟨f, _, hd⟩ := exists_answer_of_bind_eq_ok hd
  cases hd
  exact ⟨rfl, rfl, ⟨rfl, rfl⟩, ⟨rfl, rfl⟩, ⟨rfl, rfl⟩⟩

end Draft

end ClassScript
