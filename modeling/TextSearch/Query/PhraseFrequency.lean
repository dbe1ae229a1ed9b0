import TextSearch.Query.Basic

/-! How often a phrase occurs in a document, given the positions of its terms there. -/
namespace TextSearch.PhraseFrequency

abbrev Placement := UInt32 × List Nat

/-- The number of the first placement with the fewest positions. -/
def rarest : List Placement → Nat
  | [] => 0
  | [_] => 0
  | p :: rest =>
    let other := rarest rest
    match rest[other]? with
    | some q => if p.2.length ≤ q.2.length then 0 else other + 1
    | none => 0

/-- Whether a term stands where it must if another one with offset `from` stands at `position`. Positions
are words of 32 bits. -/
def standsRight (start : UInt32) (position : Nat) (p : Placement) : Bool :=
  let expected : Int := position + p.1.toNat - start.toNat
  expected ≥ 0 && p.2.contains (expected.toNat % UInt32.size)

/-- Occurrences with every term in its place, found from the positions of the rarest term. -/
def exactCount (placements : List Placement) : Nat :=
  let anchor := rarest placements
  match placements[anchor]? with
  | none => 0
  | some (offset, positions) =>
    (positions.filter fun position =>
      (placements.eraseIdx anchor).all (standsRight offset position)).length

def arrangements : List (List Nat) → List (List Nat)
  | [] => [[]]
  | positions :: rest => positions.flatMap fun p => (arrangements rest).map (p :: ·)

/-- How far the terms are out of place, in all, if the phrase starts at `start`. -/
def displacement (offsets : List UInt32) (arrangement : List Nat) (start : Int) : Nat :=
  ((arrangement.zip offsets).map fun (p, o) => ((p : Int) - o.toNat - start).natAbs).foldr (· + ·) 0

/-- The least displacement over the starts that differ by at most the slop from where the first term puts
the start. -/
def leastDisplacement (offsets : List UInt32) (slop : Nat) (arrangement : List Nat) : Nat :=
  let first : Int := (arrangement.headD 0 : Int) - (offsets.headD 0).toNat - slop
  (List.range (2 * slop)).foldl
    (fun best (shift : Nat) => min best (displacement offsets arrangement (first + (shift : Int) + 1)))
    (displacement offsets arrangement first)

/-- Occurrences whose displacement is within the slop, each counted by how small it is. -/
def looseCount (offsets : List UInt32) (slop : Nat) (positions : List (List Nat)) : Float32 :=
  ((arrangements positions).map (leastDisplacement offsets slop)).foldl
    (fun sum distance => if distance ≤ slop then sum + Scoring.looseFrequency distance else sum) 0

end TextSearch.PhraseFrequency

namespace TextSearch.PhraseQuery

def frequency (n : PhraseQuery) (positions : List (List Nat)) : Float32 :=
  let offsets := n.terms.map (·.2)
  if n.slop = 0 then (PhraseFrequency.exactCount (offsets.zip positions)).toFloat32
  else if n.terms.isEmpty then 0
  else PhraseFrequency.looseCount offsets n.slop.toNat positions

end TextSearch.PhraseQuery
