/-!
# Edit distance

The least number of insertions, deletions and substitutions of single characters that turn one text
into another, computed row by row, and the choice of a name that was probably meant.
-/

namespace ClassScript.Text

/-- The row of distances below `diagonal :: up :: …`, to the right of the entry `left`. The entry
for a column is the cheapest of a deletion (from above), an insertion (from the left) and a match or
substitution (from the diagonal). -/
def rowTail (c : Char) : (columns : List Char) → (above : List Nat) → (left : Nat) → List Nat
  | b :: columns, diagonal :: up :: above, left =>
    let entry := min (min (up + 1) (left + 1)) (diagonal + if c = b then 0 else 1)
    entry :: rowTail c columns (up :: above) entry
  | _, _, _ => []

def nextRow (columns : List Char) (above : List Nat) (c : Char) : List Nat :=
  let first := above.headD 0 + 1
  first :: rowTail c columns above first

/-- The edit distance of two character lists: the last entry of the last row. -/
def charDistance (a b : List Char) : Nat :=
  (a.foldl (nextRow b) (List.range (b.length + 1))).getLastD 0

def editDistance (a b : String) : Nat :=
  charDistance a.toList b.toList

/-- The candidate with the least distance to `name`, if that is at most `threshold`; the earliest of
equally near ones. -/
def nearestName (name : String) (threshold : Nat) : List String → Option String
  | [] => none
  | candidate :: rest =>
    let later := nearestName name threshold rest
    let d := editDistance name candidate
    if d ≤ threshold then
      match later with
      | some other => if d ≤ editDistance name other then some candidate else later
      | none => some candidate
    else later

end ClassScript.Text
