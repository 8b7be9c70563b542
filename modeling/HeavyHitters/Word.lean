/-!
# 64-bit words

The two word operations that hashing and drawing share: rotation, and the multiplication that
keeps both halves of the product.
-/

namespace HeavyHitters

/-- Rotates a word to the left, by the amount modulo 64. -/
def rotateLeft (x amount : UInt64) : UInt64 :=
  if amount % 64 = 0 then x else (x <<< (amount % 64)) ||| (x >>> (64 - amount % 64))

/-- The two halves of the 128-bit product of two words, combined by exclusive or. -/
def foldedMul (x y : UInt64) : UInt64 :=
  let product := x.toNat * y.toNat
  product.toUInt64 ^^^ (product >>> 64).toUInt64

end HeavyHitters
