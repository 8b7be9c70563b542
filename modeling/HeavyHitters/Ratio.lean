/-!
# Ratios

Exact fractions of natural numbers and the whole numbers near them.  Whatever is written or compared
in decimal, and whatever has to come out as a division of doubles does, is computed on ratios and
rounded once at the end.
-/

namespace HeavyHitters

/-- A fraction of two natural numbers. -/
structure Ratio where
  numerator : Nat
  denominator : Nat
  deriving DecidableEq

namespace Ratio

/-- A natural number as a ratio. -/
def ofNat (n : Nat) : Ratio := ⟨n, 1⟩

/-- Multiplies a ratio by a power, which a negative exponent turns into a division. -/
def scale (r : Ratio) (base : Nat) (exponent : Int) : Ratio :=
  ⟨r.numerator * base.pow exponent.toNat, r.denominator * base.pow (-exponent).toNat⟩

/-- The whole part of a ratio. -/
def floor (r : Ratio) : Nat := r.numerator / r.denominator

/-- What is left of the numerator beside the whole part. -/
def rest (r : Ratio) : Nat := r.numerator % r.denominator

/-- The nearest whole number, of two equally near ones the even one. -/
def roundEven (r : Ratio) : Nat :=
  if 2 * r.rest < r.denominator then r.floor
  else if r.denominator < 2 * r.rest then r.floor + 1
  else if r.floor % 2 = 0 then r.floor else r.floor + 1

/-- The whole part of the double nearest to a ratio: the ratio is rounded to 53 binary digits
counted from its first one, and what is behind the point is then cut off. -/
def doubleFloor (r : Ratio) : Nat :=
  let places : Int := 53 - (2 * r.numerator / r.denominator).log2
  ((ofNat (r.scale 2 places).roundEven).scale 2 (-places)).floor

/-- Rounding leaves a whole number as it is. -/
theorem roundEven_of_whole (n : Nat) {d : Nat} (h : 0 < d) : roundEven ⟨n * d, d⟩ = n := by
  simp [roundEven, rest, floor, Nat.mul_div_cancel n h, h]

/-- A whole number of at most 53 binary digits is a double. -/
theorem doubleFloor_of_whole {n d : Nat} (h : 0 < d) (hn : n < 1 <<< 53) :
    doubleFloor ⟨n * d, d⟩ = n := by
  have hlog : (2 * n).log2 ≤ 53 := by
    rcases Nat.eq_zero_or_pos n with rfl | hp
    · decide
    · exact Nat.le_of_lt_succ (Nat.log2_lt (by omega) |>.2 (by omega))
  obtain ⟨places, hplaces⟩ : ∃ places : Nat, (53 : Int) - (2 * n).log2 = places :=
    ⟨53 - (2 * n).log2, by omega⟩
  have hdiv : 2 * (n * d) / d = 2 * n := by rw [← Nat.mul_assoc, Nat.mul_div_cancel _ h]
  have hnum : n * d * Nat.pow 2 places = n * Nat.pow 2 places * d := Nat.mul_right_comm ..
  have hone : Nat.pow 2 0 = 1 := rfl
  have hpos : 0 < Nat.pow 2 places := Nat.two_pow_pos places
  simp only [doubleFloor, hdiv, hplaces, scale, ofNat, floor, Int.toNat_natCast,
    Int.toNat_neg_natCast, Int.neg_neg, hone, Nat.mul_one, Nat.one_mul, hnum,
    roundEven_of_whole _ h, Nat.mul_div_cancel _ hpos]

/-- Half of a whole number of at most 53 binary digits is a double, too. -/
theorem doubleFloor_of_half {n d : Nat} (h : 0 < d) (hn : n < 1 <<< 53) :
    doubleFloor ⟨n * d, 2 * d⟩ = n / 2 := by
  have hlog : n.log2 ≤ 52 := by
    rcases Nat.eq_zero_or_pos n with rfl | hp
    · decide
    · exact Nat.le_of_lt_succ ((Nat.log2_lt (by omega)).2 (by omega))
  -- the number has a binary digit to spare, which takes in the half
  obtain ⟨places, hplaces⟩ : ∃ places : Nat, (53 : Int) - n.log2 = (places + 1 : Nat) :=
    ⟨52 - n.log2, by omega⟩
  have hdiv : 2 * (n * d) / (2 * d) = n := by
    rw [Nat.mul_left_comm, Nat.mul_div_cancel _ (by omega)]
  have hsucc : Nat.pow 2 (places + 1) = 2 * Nat.pow 2 places := Nat.pow_succ'
  have hnum : n * d * Nat.pow 2 (places + 1) = n * Nat.pow 2 places * (2 * d) := by
    rw [hsucc]
    ac_rfl
  have hone : Nat.pow 2 0 = 1 := rfl
  have hpos : 0 < Nat.pow 2 places := Nat.two_pow_pos places
  have hhalf : n * Nat.pow 2 places / Nat.pow 2 (places + 1) = n / 2 := by
    rw [hsucc, Nat.mul_div_mul_right _ _ hpos]
  simp only [doubleFloor, hdiv, hplaces, scale, ofNat, floor, Int.toNat_natCast,
    Int.toNat_neg_natCast, Int.neg_neg, hone, Nat.mul_one, Nat.one_mul, hnum,
    roundEven_of_whole _ (Nat.mul_pos (Nat.succ_pos 1) h), hhalf]

end Ratio

end HeavyHitters
