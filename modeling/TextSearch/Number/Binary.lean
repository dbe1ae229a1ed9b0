/-! Floating-point numbers as exact fractions. -/
namespace TextSearch

/-- A number of single precision, taken apart. The magnitude of a finite one is its mantissa times two to the exponent. -/
inductive Binary where
  | nan
  | infinite (negative : Bool)
  | finite (negative : Bool) (mantissa : Nat) (exponent : Int)
  deriving DecidableEq, Repr

namespace Binary

def ofFloat32 (x : Float32) : Binary :=
  let bits := x.toBits.toNat
  let negative := bits / 0x80000000 == 1
  let exponent : Nat := bits / 0x800000 % 0x100
  let fraction := bits % 0x800000
  if exponent == 255 then
    if fraction == 0 then infinite negative else nan
  else if exponent == 0 then finite negative fraction (-149)
  else finite negative (0x800000 + fraction) ((exponent : Int) - 150)

end Binary

structure Fraction where
  numerator : Nat
  denominator : Nat
  deriving DecidableEq, Repr

namespace Fraction

/-- `n` times two to the `exponent`. -/
def scaled (n : Nat) (exponent : Int) : Fraction :=
  if exponent ≥ 0 then ⟨n * Nat.pow 2 exponent.toNat, 1⟩ else ⟨n, Nat.pow 2 (-exponent).toNat⟩

def times (f : Fraction) (n : Nat) : Fraction := ⟨f.numerator * n, f.denominator⟩

def dividedBy (f : Fraction) (n : Nat) : Fraction := ⟨f.numerator, f.denominator * n⟩

def nearest (f : Fraction) : Nat :=
  (2 * f.numerator + f.denominator) / (2 * f.denominator)

/-- The nearest integer; a half goes to the even neighbour. -/
def nearestEven (f : Fraction) : Nat :=
  let q := f.numerator / f.denominator
  let twice := 2 * (f.numerator % f.denominator)
  if twice > f.denominator || (twice == f.denominator && q % 2 == 1) then q + 1 else q

/-- The nearest number of `width` binary digits as an integer and a power of two; a half goes to the even
neighbour. Zero has no digits. -/
def rounded (width : Nat) (f : Fraction) : Nat × Int :=
  if f.numerator == 0 then (0, 0)
  else
    -- within one of the exponent at which the integer has `width` digits
    let guess : Int := (f.numerator.log2 : Int) - f.denominator.log2 - (width - 1 : Nat)
    let shifted (e : Int) : Fraction :=
      if e ≥ 0 then ⟨f.numerator, f.denominator * Nat.pow 2 e.toNat⟩
      else ⟨f.numerator * Nat.pow 2 (-e).toNat, f.denominator⟩
    let fits (e : Int) : Bool :=
      let g := shifted e
      g.denominator * Nat.pow 2 (width - 1) ≤ g.numerator
    let e := if fits guess then guess else guess - 1
    let m := (shifted e).nearestEven
    if m == Nat.pow 2 width then (Nat.pow 2 (width - 1), e + 1) else (m, e)

end Fraction

end TextSearch
