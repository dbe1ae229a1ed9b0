/-! The number of edits between two texts. -/
namespace TextSearch

/-- The entries of a row of the edit table behind its first one. `left` is the entry before them, and
`above` holds the row above from the entry diagonally before them on. -/
def editRowFrom (c : Char) (left : Nat) : List Char → List Nat → List Nat
  | d :: ds, diagonal :: up :: above =>
    let entry := min (min (up + 1) (left + 1)) (diagonal + if c = d then 0 else 1)
    entry :: editRowFrom c entry ds (up :: above)
  | _, _ => []

def editRow (s : List Char) (above : List Nat) (c : Char) : List Nat :=
  let left := above.headD 0 + 1
  left :: editRowFrom c left s above

/-- The least number of insertions, deletions and replacements of single characters that turn one text
into the other. The rows of the table run along the shorter text. -/
def editDistance (s t : String) : Nat :=
  let (short, long) :=
    if s.length ≤ t.length then (s.toList, t.toList) else (t.toList, s.toList)
  (long.foldl (editRow short) (List.range (short.length + 1))).getLast?.getD 0

end TextSearch
