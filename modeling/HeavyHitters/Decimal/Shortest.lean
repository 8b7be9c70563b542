import HeavyHitters.Decimal.Fixed

/-!
# The shortest decimal of a double

Of all decimals that read back as the double, those with the fewest digits, and of these the one
nearest to the double.  The decimals that read back lie in the interval halfway to the next
doubles on both sides, its ends included if the significand is even.  On the grid of the multiples
of a power of ten only the two neighbours of the value need a test, and the first grid with a hit,
from the coarsest on, has the fewest digits.

The result is written in positional notation, without an exponent.
-/

namespace HeavyHitters.Decimal

/-- Whether `candidate * 10 ^ grid` lies between the midpoints to the neighbouring doubles of
`significand * 2 ^ exponent`. -/
def readsBack (significand : Nat) (exponent : Int) (grid : Int) (candidate : Nat) : Bool :=
  let below := 4 * significand - (if Binary.isBinade significand exponent then 1 else 2)
  let above := 4 * significand + 2
  -- both sides in units of a quarter of the last binary place
  let value := (Ratio.ofNat candidate).scale 10 grid
  let unit := (Ratio.ofNat 1).scale 2 (exponent - 2)
  let point := value.numerator * unit.denominator
  let step := unit.numerator * value.denominator
  if significand % 2 = 0 then decide (below * step ≤ point) && decide (point ≤ above * step)
  else decide (below * step < point) && decide (point < above * step)

/-- The multiple of `10 ^ grid` that reads back and is nearest to the value, if there is one; of
two that are equally near, the greater. -/
def hit (significand : Nat) (exponent : Int) (grid : Int) : Option Nat :=
  let value := ((Ratio.ofNat significand).scale 2 exponent).scale 10 (-grid)
  let low := readsBack significand exponent grid value.floor
  let high := readsBack significand exponent grid (value.floor + 1)
  if low && (!high || decide (2 * value.rest < value.denominator)) then some value.floor
  else if high then some (value.floor + 1)
  else none

/-- The digits and the grid of the shortest decimal of a positive double.  The grids run from the
greatest power of ten a double can reach down to one that is finer than any two doubles. -/
def shortestDigits (significand : Nat) (exponent : Int) : Nat × Int :=
  let grids := (List.range 634).map fun i => 309 - Int.ofNat i
  match grids.findSome? fun grid => (hit significand exponent grid).map (·, grid) with
  | some found => found
  | none => (0, 0)

/-- A natural number times a power of ten, in positional notation. -/
def positional (digits : Nat) (grid : Int) : List Char :=
  if 0 ≤ grid then Nat.toDigits 10 (digits * Nat.pow 10 grid.toNat)
  else withPoint (-grid).toNat digits

/-- The shortest decimal of a double. -/
def shortest (x : Float) : String :=
  match Binary.ofFloat x with
  | .notANumber => "NaN"
  | .infinite negative => signed negative "inf".toList
  | .finite negative 0 _ => signed negative ['0']
  | .finite negative significand exponent =>
    let (digits, grid) := shortestDigits significand exponent
    signed negative (positional digits grid)

end HeavyHitters.Decimal
