import ClassScript.Assoc
import ClassScript.Text.Quoted
import ClassScript.Value.Basic

/-!
# Lists

The cells of all lists. Lists can hold each other and themselves, so printing keeps track of the
lists around the one that it prints, and copying of the cells that it has made.
-/

namespace ClassScript

/-- The elements of all lists; a new list gets the next number. -/
abbrev Lists := Array (Array Value)

namespace Lists

def elements (ls : Lists) (id : ListId) : Array Value :=
  ls.getD id #[]

/-! ## Printing -/

/-- The text of a value, where `leaf` prints what is no list and `wrap` the elements of one. A list
inside itself is cut short. Of `depth` lists that are not yet being printed, each can be entered
once. -/
def render {ε : Type} (ls : Lists) (leaf : Value → Except ε String)
    (wrap : List String → String) :
    (depth : Nat) → (around : List ListId) → Value → Except ε String
  | 0, _, .list _ => .ok "[...]"
  | depth + 1, around, .list id =>
    if id ∈ around then .ok "[...]"
    else wrap <$> (ls.elements id).toList.mapM (render ls leaf wrap depth (id :: around))
  | _, _, value => leaf value

/-- A value as a reader who wants to see its make-up gets it. -/
def showLeaf : Value → Except Empty String
  | .number n => .ok (Number.shown.text n)
  | .string s => .ok (Text.quote s)
  | .boolean b => .ok (if b then "true" else "false")
  | .function f => .ok s!"fn({f.name}/{f.overloads.length})"
  | .object handle => .ok s!"#{handle}"
  | .null => .ok "null"
  | .list _ => .ok "[...]"

def shown (ls : Lists) (value : Value) : String :=
  match ls.render showLeaf (fun items => "[" ++ " ".intercalate items ++ "]") ls.size [] value with
  | .ok text => text

/-! ## Copying -/

structure Copying where
  /-- The cells of the copy by the lists that they stand for. -/
  copies : Assoc ListId ListId := {}
  lists : Lists

/-- A new cell for a list. It is empty until the elements of the list are copied. -/
def Copying.enter (c : Copying) (id : ListId) : Copying :=
  ⟨c.copies.insert id c.lists.size, c.lists.push #[]⟩

def Copying.fill (c : Copying) (cell : ListId) (items : List Value) : Copying :=
  { c with lists := c.lists.setIfInBounds cell items.toArray }

/-- A value with new cells in the place of its lists; a list that has a cell already gets no other
one. Of fewer than `depth` lists without a cell, each can be entered once. -/
def copyWith : (depth : Nat) → Value → StateM Copying Value
  | depth + 1, .list id => do
    match (← get).copies.get? id with
    | some cell => return .list cell
    | none =>
      let cell ← modifyGet fun c => (c.lists.size, c.enter id)
      let items ← ((← get).lists.elements id).toList.mapM (copyWith depth)
      modify fun c => c.fill cell items
      return .list cell
  | _, value => return value

/-- A copy of a value with new lists in the place of all its lists. Sharing and cycles among them
stay as they are; objects are not copied. -/
def copy (ls : Lists) (value : Value) : Value × Lists :=
  let (value, c) := (copyWith (ls.size + 1) value).run { lists := ls }
  (value, c.lists)

end Lists

end ClassScript
