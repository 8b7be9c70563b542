import HeavyHitters.Proofs.Checked
import HeavyHitters.Proofs.Counts
import HeavyHitters.Proofs.Geometry
import HeavyHitters.SignedRow
import Mathlib.Algebra.Ring.Int.Defs

/-!
# Bounds on counters

A counter that takes in weights is never further from zero than all weight together,
whatever signs the weights get.  So as long as all weight fits a counter, so do all
sums, and the signed estimates too.

* `Row.Between` says that the counters of a row lie between two bounds.
* `Row.Between.exists_update` and `SignedRow.exists_add` are the two inserts: they have a value, and
  move the bounds by the weight.
* `SignedRow.exists_estimate` says that a signed row has an estimate for
  every key, within the same bounds.
-/

namespace HeavyHitters

namespace Row

variable {row row' : Row Int} {low high low' high' bound count weight : Int} {key : Key}

/-- All counters of a row lie between two bounds. -/
def Between (low high : Int) (row : Row Int) : Prop :=
  ∀ (bucket : Nat) (count : Int), row.cells[bucket]? = some count → low ≤ count ∧ count ≤ high

theorem between_fill (length : Nat) (hash : KeyHash) : (fill length 0 hash).Between 0 0 := by
  intro bucket count hcount
  rw [fill, Array.getElem?_replicate] at hcount
  split at hcount
  · cases hcount
    exact ⟨Int.le_refl 0, Int.le_refl 0⟩
  · cases hcount

theorem Between.mono (h : row.Between low high) (hlow : low' ≤ low) (hhigh : high ≤ high') :
    row.Between low' high' := by
  intro bucket count hcount
  obtain ⟨hl, hh⟩ := h bucket count hcount
  exact ⟨Int.le_trans hlow hl, Int.le_trans hh hhigh⟩

theorem Between.exists_get (h : row.Between low high) (hlength : 0 < row.length) (key : Key) :
    ∃ count, row.get key = .ok count ∧ low ≤ count ∧ count ≤ high := by
  obtain ⟨count, hget⟩ := row.exists_get_eq_ok key hlength
  exact ⟨count, hget, h _ _ (get_eq_ok_iff.mp hget)⟩

theorem Between.set (h : row.Between low high) (hlow : low ≤ count) (hhigh : count ≤ high) :
    (row.set key count).Between low high := by
  intro bucket other hother
  rw [Row.set, Array.getElem?_setIfInBounds] at hother
  split at hother
  · split at hother
    · obtain rfl := Option.some.inj hother
      exact ⟨hlow, hhigh⟩
    · cases hother
  · exact h bucket other hother

/-- A change with results between the bounds keeps a row there. -/
theorem Between.of_update {change : Int → Checked Int} (h : row.Between low high)
    (hchange : ∀ old new, change old = .ok new → low ≤ new ∧ new ≤ high)
    (hu : row.update key change = .ok row') : row'.Between low high := by
  obtain ⟨old, new, -, hnew, rfl⟩ := update_eq_ok_iff.mp hu
  obtain ⟨hlow, hhigh⟩ := hchange old new hnew
  exact h.set hlow hhigh

/-- **Weight is added to a counter without a fault** if it fits on top of the greatest one. -/
theorem Between.exists_update (h : row.Between 0 bound) (hlength : 0 < row.length)
    (hweight : 0 ≤ weight) (hfits : bound + weight ≤ Count.greatest) (key : Key) : ∃ row',
      row.update key (Count.plus · weight) = .ok row' ∧ row'.length = row.length ∧
        row'.Between 0 (bound + weight) := by
  obtain ⟨count, hget, hlow, hhigh⟩ := h.exists_get hlength key
  have hsum : Count.Fits (count + weight) :=
    Count.fits_of_bounds (by omega) (by omega)
  refine ⟨row.set key (count + weight), ?_, length_set row key _, ?_⟩
  · exact update_eq_ok_iff.mpr ⟨count, _, hget, Count.plus_eq_ok_iff.mpr ⟨hsum, rfl⟩, rfl⟩
  · exact (h.mono (Int.le_refl 0) (by omega)).set (by omega) (by omega)

end Row

namespace SignedRow

variable {r : SignedRow} {bound weight : Int}

/-- A sign leaves a number as far from zero as it was. -/
theorem mul_sign_bounds (r : SignedRow) (key : Key) {n : Int} (hlow : -bound ≤ n)
    (hhigh : n ≤ bound) : -bound ≤ n * r.signs.sign key ∧ n * r.signs.sign key ≤ bound := by
  rcases r.signs.sign_eq key with hsign | hsign
  · rw [hsign]
    omega
  · rw [hsign]
    omega

/-- **Signed weight is added without a fault** if it fits on top of the
counter furthest from zero. -/
theorem exists_add (h : r.row.Between (-bound) bound) (hlength : 0 < r.row.length)
    (hweight : 0 ≤ weight) (hfits : bound + weight ≤ Count.greatest) (key : Key) : ∃ r',
      r.add key weight = .ok r' ∧ r'.row.length = r.row.length ∧
        r'.row.Between (-(bound + weight)) (bound + weight) := by
  obtain ⟨count, hget, hlow, hhigh⟩ := h.exists_get hlength key
  have hsigned := @mul_sign_bounds weight r key weight (by omega) (Int.le_refl weight)
  have hproduct : Count.Fits (weight * r.signs.sign key) :=
    Count.fits_of_bounds (by omega) (by omega)
  have hsum : Count.Fits (count + weight * r.signs.sign key) :=
    Count.fits_of_bounds (by omega) (by omega)
  refine ⟨⟨r.row.set key (count + weight * r.signs.sign key), r.signs⟩, ?_,
    Row.length_set r.row key _, ?_⟩
  · refine Checked.bind_eq_ok.mpr ⟨_, Row.update_eq_ok_iff.mpr ⟨count, _, hget, ?_, rfl⟩, rfl⟩
    exact Checked.bind_eq_ok.mpr ⟨_, Count.times_eq_ok_iff.mpr ⟨hproduct, rfl⟩,
      Count.plus_eq_ok_iff.mpr ⟨hsum, rfl⟩⟩
  · exact (h.mono (by omega) (by omega)).set (by omega) (by omega)

/-- **There is an estimate for every key**, no further from zero than the counters are. -/
theorem exists_estimate (h : r.row.Between (-bound) bound) (hlength : 0 < r.row.length)
    (hfits : bound ≤ Count.greatest) (key : Key) : ∃ estimate,
      r.estimate key = .ok estimate ∧ -bound ≤ estimate ∧ estimate ≤ bound := by
  obtain ⟨count, hget, hlow, hhigh⟩ := h.exists_get hlength key
  have hbounds := r.mul_sign_bounds key hlow hhigh
  have hproduct : Count.Fits (count * r.signs.sign key) :=
    Count.fits_of_bounds (by omega) (by omega)
  exact ⟨_, Checked.bind_eq_ok.mpr ⟨count, hget, Count.times_eq_ok_iff.mpr ⟨hproduct, rfl⟩⟩,
    hbounds⟩

end SignedRow

end HeavyHitters
