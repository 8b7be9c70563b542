/-!
# The exact value of a double

A double is not a number, an infinity, or plus or minus a natural number times a power of two.
Decimal output works on this form alone, in exact arithmetic.
-/

namespace HeavyHitters.Decimal

/-- What a double stands for. -/
inductive Binary where
  | notANumber
  | infinite (negative : Bool)
  /-- The magnitude is `significand * 2 ^ exponent`. -/
  | finite (negative : Bool) (significand : Nat) (exponent : Int)
  deriving DecidableEq

namespace Binary

/-- The value of a double given by its bits: one for the sign, eleven for the exponent and 52 for
the fraction.  The exponent zero marks the doubles without a leading one. -/
def ofBits (bits : UInt64) : Binary :=
  let negative := bits >>> 63 == 1
  let exponent := ((bits >>> 52) &&& 0x7ff).toNat
  let fraction := (bits &&& 0xfffffffffffff).toNat
  if exponent = 2047 then if fraction = 0 then infinite negative else notANumber
  else if exponent = 0 then finite negative fraction (-1074)
  else finite negative (fraction + 1 <<< 52) (exponent - 1075)

/-- The value of a double. -/
def ofFloat (x : Float) : Binary := ofBits x.toBits

/-- Whether the doubles next to a value are closer below it than above it, which is so where the
exponent changes. -/
def isBinade (significand : Nat) (exponent : Int) : Bool :=
  significand == 1 <<< 52 && decide (-1074 < exponent)

end Binary

end HeavyHitters.Decimal
