import HeavyHitters.Decimal.Binary
import HeavyHitters.Ratio

/-!
# Decimals with a fixed number of places

The exact value of a double rounded to a given number of places, a tie going to the even
neighbour.  The sign of the double is kept, so a small negative value is written as a negative
zero.
-/

namespace HeavyHitters.Decimal

/-- The decimal digits of a number, with zeros in front up to a least length. -/
def padded (length : Nat) (n : Nat) : List Char :=
  let digits := Nat.toDigits 10 n
  List.replicate (length - digits.length) '0' ++ digits

/-- The digits of `n / 10 ^ places`, at least one of them before the point. -/
def withPoint (places : Nat) (n : Nat) : List Char :=
  let digits := padded (places + 1) n
  let whole := digits.length - places
  if places = 0 then digits else digits.take whole ++ '.' :: digits.drop whole

/-- Puts the sign in front. -/
def signed (negative : Bool) (digits : List Char) : String :=
  String.ofList (if negative then '-' :: digits else digits)

/-- A double with a fixed number of places. -/
def fixed (places : Nat) (x : Float) : String :=
  match Binary.ofFloat x with
  | .notANumber => "NaN"
  | .infinite negative => signed negative "inf".toList
  | .finite negative significand exponent =>
    let units := ((Ratio.ofNat significand).scale 2 exponent).scale 10 places
    signed negative (withPoint places units.roundEven)

end HeavyHitters.Decimal
