/-! The factors of a score, in single precision. -/
namespace TextSearch.Scoring

/-- Makes scores of different queries comparable. -/
def queryNorm (sumOfSquares : Float32) : Float32 :=
  if sumOfSquares ≤ 0 then 1 else 1 / sumOfSquares.sqrt

def termFactor (frequency : Float32) : Float32 := frequency.sqrt

def rarity (docFrequency docCount : Nat) : Float32 :=
  1 + (docCount.toFloat32 / (docFrequency.toFloat32 + 1)).log

def overlapFactor (overlap most : Nat) : Float32 :=
  if most = 0 then 0 else overlap.toFloat32 / most.toFloat32

/-- What an occurrence of a phrase counts whose words are out of place by a distance. -/
def looseFrequency (distance : Nat) : Float32 := 1 / (distance.toFloat32 + 1)

def lengthNorm (length : Nat) : Float32 :=
  if length = 0 then 1 else 1 / length.toFloat32.sqrt

end TextSearch.Scoring
