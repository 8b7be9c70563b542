import HeavyHitters.Decimal.Binary
import HeavyHitters.Ratio

/-!
# Sampling rates

The probability with which a sampled structure takes part in an update: above 0 and at most 1.  A
rate is kept as the exact ratio that the double given for it stands for, so comparing a draw with it
rounds nothing, and a rate of 1 selects every draw.
-/

namespace HeavyHitters

/-- A ratio above 0 and at most 1. -/
structure SamplingRate where
  ratio : Ratio
  positive : 0 < ratio.numerator
  le_one : ratio.numerator ≤ ratio.denominator

namespace SamplingRate

/-- The rate that a double stands for, if it is one. -/
def ofFloat? (x : Float) : Option SamplingRate :=
  match Decimal.Binary.ofFloat x with
  | .finite false significand exponent =>
    let ratio := (Ratio.ofNat significand).scale 2 exponent
    if h : 0 < ratio.numerator ∧ ratio.numerator ≤ ratio.denominator then some ⟨ratio, h.1, h.2⟩
    else none
  | _ => none

/-- Whether a draw, a number of 53 binary digits behind the point, is below the rate. -/
def selects (rate : SamplingRate) (draw : Nat) : Bool :=
  decide (draw * rate.ratio.denominator < rate.ratio.numerator <<< 53)

/-- What a sum of `parts` sampled counts stands for on average: the double nearest to the sum over
the parts and the rate, without what is behind the point. -/
def scaleUp (rate : SamplingRate) (sum : Int) (parts : Nat) : Int :=
  let magnitude := Ratio.doubleFloor
    ⟨sum.natAbs * rate.ratio.denominator, parts * rate.ratio.numerator⟩
  if sum < 0 then -magnitude else magnitude

/-- A rate of 1 selects every draw. -/
theorem selects_of_one {rate : SamplingRate} (h : rate.ratio.numerator = rate.ratio.denominator)
    {draw : Nat} (hd : draw < 1 <<< 53) : rate.selects draw = true := by
  have hpos : 0 < rate.ratio.denominator := h ▸ rate.positive
  rw [Nat.one_shiftLeft] at hd
  rw [selects, decide_eq_true_eq, h, Nat.shiftLeft_eq, Nat.mul_comm draw]
  exact Nat.mul_lt_mul_of_pos_left hd hpos

/-- At a rate of 1 a sum stands for itself. -/
theorem scaleUp_one_of_one {rate : SamplingRate} (h : rate.ratio.numerator = rate.ratio.denominator)
    {sum : Int} (hs : sum.natAbs < 1 <<< 53) : rate.scaleUp sum 1 = sum := by
  have hpos : 0 < rate.ratio.denominator := h ▸ rate.positive
  rw [scaleUp, h, Nat.one_mul, Ratio.doubleFloor_of_whole hpos hs]
  split <;> omega

/-- At a rate of 1 half a sum is rounded toward zero. -/
theorem scaleUp_two_of_one {rate : SamplingRate} (h : rate.ratio.numerator = rate.ratio.denominator)
    {sum : Int} (hs : sum.natAbs < 1 <<< 53) : rate.scaleUp sum 2 = sum.tdiv 2 := by
  have hpos : 0 < rate.ratio.denominator := h ▸ rate.positive
  rw [scaleUp, h, Ratio.doubleFloor_of_half hpos hs]
  split
  · next hneg =>
    obtain ⟨n, rfl⟩ : ∃ n : Nat, sum = -n := ⟨sum.natAbs, by omega⟩
    rw [Int.neg_tdiv, Int.natAbs_neg, Int.natAbs_natCast]
    rfl
  · next hnonneg =>
    obtain ⟨n, rfl⟩ : ∃ n : Nat, sum = n := ⟨sum.natAbs, by omega⟩
    rw [Int.natAbs_natCast]
    rfl

end SamplingRate

end HeavyHitters
