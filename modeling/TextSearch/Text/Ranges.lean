/-! Sets of characters as ranges of code points. -/
namespace TextSearch

/-- First and last code points of ranges, in ascending order. -/
abbrev CharRanges := Array (Nat × Nat)

def CharRanges.contains (ranges : CharRanges) (c : Char) : Bool :=
  ranges.any fun (first, last) => first ≤ c.toNat && c.toNat ≤ last

end TextSearch
