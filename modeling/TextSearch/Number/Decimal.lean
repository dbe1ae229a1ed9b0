import TextSearch.Number.Binary

/-! Decimal texts of numbers. -/
namespace TextSearch.Decimal

/-- The text of `digits` times ten to the `exponent`, without an exponent of its own. -/
def positional (digits : Nat) (exponent : Int) : String :=
  if exponent ≥ 0 then toString (digits * Nat.pow 10 exponent.toNat)
  else
    let places := (-exponent).toNat
    let text := (toString digits).toList
    let text := List.replicate (places + 1 - text.length) '0' ++ text
    String.ofList (text.take (text.length - places)) ++ "." ++
      String.ofList (text.drop (text.length - places))

def withoutZeros : Nat → Nat → Int → Nat × Int
  | 0, digits, exponent => (digits, exponent)
  | fuel + 1, digits, exponent =>
    if digits != 0 && digits % 10 == 0 then withoutZeros fuel (digits / 10) (exponent + 1)
    else (digits, exponent)

/-- How many powers of ten a fraction of at least one has below it; negative for one below one. -/
def magnitude (f : Fraction) : Int :=
  let whole := f.numerator / f.denominator
  if whole > 0 then ((toString whole).length : Int) - 1
  else
    let inverse := (f.denominator + f.numerator - 1) / f.numerator
    (-((toString (inverse - 1)).length : Int))

private def neighbours (f : Fraction) (exponent : Int) : Nat × Nat :=
  let low :=
    if exponent ≥ 0 then f.numerator / (f.denominator * Nat.pow 10 exponent.toNat)
    else f.numerator * Nat.pow 10 (-exponent).toNat / f.denominator
  (low, low + 1)

private def order (digits : Nat) (exponent : Int) (f : Fraction) : Ordering :=
  if exponent ≥ 0 then compare (digits * Nat.pow 10 exponent.toNat * f.denominator) f.numerator
  else compare (digits * f.denominator) (f.numerator * Nat.pow 10 (-exponent).toNat)

/-- The numbers that are read as `mantissa` times two to the `exponent` with 53 binary digits: their
bounds, which belong to them iff the mantissa is even. -/
private def bounds (mantissa : Nat) (exponent : Int) : Fraction × Fraction :=
  let low := if mantissa == 0x10000000000000 then 4 * mantissa - 1 else 4 * mantissa - 2
  (Fraction.scaled low (exponent - 2), Fraction.scaled (4 * mantissa + 2) (exponent - 2))

private def within (mantissa : Nat) (exponent : Int) (digits : Nat) (power : Int) : Bool :=
  let (low, high) := bounds mantissa exponent
  let even := mantissa % 2 == 0
  let above := order digits power low
  let below := order digits power high
  (above == .gt || (even && above == .eq)) && (below == .lt || (even && below == .eq))

/-- The multiple of a power of ten that is read as the number, the nearer one of two. -/
private def onGrid? (mantissa : Nat) (exponent power : Int) : Option Nat :=
  let f := Fraction.scaled mantissa exponent
  let (low, high) := neighbours f power
  match within mantissa exponent low power, within mantissa exponent high power with
  | false, false => none
  | true, false => some low
  | false, true => some high
  | true, true =>
    -- the middle of the two neighbours lies above the number iff the lower one is nearer
    if order (2 * low + 1) power (f.times 2) == .lt then some high else some low

/-- The fewest digits that are read as `mantissa` times two to the `exponent`, which has 53 binary
digits, and the power of ten they are scaled by. Seventeen always suffice. -/
def shortest (mantissa : Nat) (exponent : Int) : Nat × Int :=
  let top := magnitude (Fraction.scaled mantissa exponent)
  let grids := (List.range 17).map fun (k : Nat) => top - (k : Int)
  match grids.findSome? fun power => (onGrid? mantissa exponent power).map fun d => (d, power) with
  | some (digits, power) => withoutZeros 17 digits power
  | none => (mantissa, 0)

/-- Four decimal places, computed with 53 binary digits at every step, in the fewest digits that are read
as the outcome. A half goes away from zero. -/
def fourPlaces (x : Float32) : String :=
  match Binary.ofFloat32 x with
  | .nan => "NaN"
  | .infinite negative => if negative then "-inf" else "inf"
  | .finite negative mantissa exponent =>
    let sign := if negative then "-" else ""
    let (m, e) := ((Fraction.scaled mantissa exponent).times 10000).rounded 53
    let tenThousandths := (Fraction.scaled m e).nearest
    let (m, e) := (Fraction.mk tenThousandths 10000).rounded 53
    if m == 0 then sign ++ "0"
    else
      let (digits, power) := shortest m e
      sign ++ positional digits power

private def digitsValue (digits : List Char) : Nat :=
  digits.foldl (fun n c => n * 10 + (c.toNat - '0'.toNat)) 0

/-- Reads digits with at most one point among them, correctly rounded. -/
def read? (s : List Char) : Option Float32 :=
  let whole := s.takeWhile Char.isDigit
  let rest := s.dropWhile Char.isDigit
  let decimals := rest.drop 1
  let wellFormed := (rest.isEmpty || rest.head? == some '.') && decimals.all Char.isDigit &&
    !(whole.isEmpty && decimals.isEmpty)
  if wellFormed then some (Float32.ofScientific (digitsValue (whole ++ decimals)) true decimals.length)
  else none

end TextSearch.Decimal
