/-!
# Reading a decimal as a double

A decimal is an optional sign, digits with at most one point among or around them, and an optional
exponent of ten; or a sign and one of the words for infinity and for not a number, in letters of
either case.  It is read as the nearest double.
-/

namespace HeavyHitters.Decimal

/-- The value of a run of decimal digits. -/
def digitsValue (digits : List Char) : Nat :=
  digits.foldl (fun value digit => 10 * value + (digit.toNat - '0'.toNat)) 0

/-- Takes an optional sign off a text. -/
def splitSign : List Char → Bool × List Char
  | '-' :: rest => (true, rest)
  | '+' :: rest => (false, rest)
  | text => (false, text)

/-- The exponent that a text in front of the end stands for: nothing, or the letter `e` followed by
a signed run of digits. -/
def readExponent : List Char → Option Int
  | [] => some 0
  | mark :: rest =>
    if mark = 'e' || mark = 'E' then
      let (negative, digits) := splitSign rest
      if digits.isEmpty || !digits.all Char.isDigit then none
      else some (if negative then -(digitsValue digits : Int) else digitsValue digits)
    else none

/-- The double nearest to `significand * 10 ^ exponent`, infinite or zero far outside the range of
doubles. -/
def nearest (significand : Nat) (exponent : Int) : Float :=
  let magnitude := (Nat.toDigits 10 significand).length + exponent
  if significand = 0 || magnitude < -330 then 0.0
  else if 310 < magnitude then 1.0 / 0.0
  else Float.ofScientific significand (decide (exponent < 0)) exponent.natAbs

/-- Reads a decimal without its sign. -/
def readMagnitude (text : List Char) : Option Float :=
  let word := String.ofList (text.map Char.toLower)
  if word = "inf" || word = "infinity" then some (1.0 / 0.0)
  else if word = "nan" then some (0.0 / 0.0)
  else
    let (whole, rest) := text.span Char.isDigit
    let (fraction, rest) :=
      match rest with
      | '.' :: rest => rest.span Char.isDigit
      | rest => ([], rest)
    if whole.isEmpty && fraction.isEmpty then none
    else (readExponent rest).map fun exponent =>
      nearest (digitsValue (whole ++ fraction)) (exponent - fraction.length)

/-- Reads a decimal. -/
def read? (text : String) : Option Float :=
  let (negative, rest) := splitSign text.toList
  (readMagnitude rest).map fun x => if negative then -x else x

end HeavyHitters.Decimal
