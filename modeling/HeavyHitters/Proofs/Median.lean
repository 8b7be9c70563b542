import HeavyHitters.Count
import Mathlib.Algebra.Order.Ring.Int

/-!
# Median of counts

The median is one of the counts or lies between two of them, so it has every bound that
they have.  Counts stand in order below and above it, so where more than half of them are
equal, the middle is taken by them.

* `Count.le_median` and `Count.median_le` are the two bounds.
* `Count.lt_countP_of_sorted` and `Count.le_countP_of_sorted` count what stands below and above a
  place in the order, and `Count.median_eq_of_majority` follows.
-/

namespace HeavyHitters.Count

variable {counts : List Int} {bound : Int}

theorem getD_sorted_mem {i : Nat} (hi : i < counts.length) : (sorted counts).getD i 0 ∈ counts := by
  have hi' : i < (sorted counts).length := by rwa [length_sorted]
  rw [List.getD_eq_getElem?_getD, List.getElem?_eq_getElem hi', Option.getD_some]
  exact (sorted_perm counts).mem_iff.mp (List.getElem_mem hi')

/-- An odd number of counts has one in the middle. -/
theorem median_of_odd (h : counts.length % 2 = 1) :
    median counts = (sorted counts).getD (counts.length / 2) 0 := by
  unfold median
  simp only [length_sorted]
  rw [if_pos h]

/-- An even number of counts has two in the middle. -/
theorem median_of_even (h : counts.length % 2 = 0) (hne : counts ≠ []) : median counts
    = ((sorted counts).getD (counts.length / 2 - 1) 0 +
      (sorted counts).getD (counts.length / 2) 0).tdiv 2 := by
  have hlength : counts.length ≠ 0 := fun hzero => hne (List.length_eq_zero_iff.mp hzero)
  unfold median
  simp only [length_sorted]
  rw [if_neg (by omega), if_neg hlength]

/-- The median of an odd number of counts is one of them. -/
theorem median_mem_of_odd (h : counts.length % 2 = 1) : median counts ∈ counts := by
  rw [median_of_odd h]
  exact getD_sorted_mem (by omega)

/-- The median is a count, or half of the sum of two. -/
theorem median_cases (h : counts ≠ []) :
    median counts ∈ counts ∨ ∃ c ∈ counts, ∃ d ∈ counts, median counts = (c + d).tdiv 2 := by
  have hpos : 0 < counts.length := List.length_pos_iff.mpr h
  rcases Nat.mod_two_eq_zero_or_one counts.length with heven | hodd
  · rw [median_of_even heven h]
    exact .inr ⟨_, getD_sorted_mem (by omega), _, getD_sorted_mem (by omega), rfl⟩
  · exact .inl (median_mem_of_odd hodd)

/-- Rounding toward zero does not pass a bound of both counts. -/
theorem le_tdiv_two {c d : Int} (hc : bound ≤ c) (hd : bound ≤ d) : bound ≤ (c + d).tdiv 2 := by
  have hsign : Int.sign 2 = 1 := rfl
  rw [Int.tdiv_eq_ediv, hsign]
  split <;> omega

theorem tdiv_two_le {c d : Int} (hc : c ≤ bound) (hd : d ≤ bound) : (c + d).tdiv 2 ≤ bound := by
  have hsign : Int.sign 2 = 1 := rfl
  rw [Int.tdiv_eq_ediv, hsign]
  split <;> omega

theorem le_median (hne : counts ≠ []) (h : ∀ c ∈ counts, bound ≤ c) : bound ≤ median counts := by
  rcases median_cases hne with hmem | ⟨c, hc, d, hd, hmid⟩
  · exact h _ hmem
  · exact hmid ▸ le_tdiv_two (h c hc) (h d hd)

theorem median_le (hne : counts ≠ []) (h : ∀ c ∈ counts, c ≤ bound) : median counts ≤ bound := by
  rcases median_cases hne with hmem | ⟨c, hc, d, hd, hmid⟩
  · exact h _ hmem
  · exact hmid ▸ tdiv_two_le (h c hc) (h d hd)

theorem median_nonneg (h : ∀ c ∈ counts, 0 ≤ c) : 0 ≤ median counts := by
  by_cases hne : counts = []
  · rw [hne]
    decide
  · exact le_median hne h

/-- The median of counts that fit fits as well. -/
theorem fits_median (h : ∀ c ∈ counts, Fits c) : Fits (median counts) := by
  by_cases hne : counts = []
  · rw [hne]
    decide
  · exact ⟨le_median hne fun c hc => (h c hc).1, median_le hne fun c hc => (h c hc).2⟩

/-- Counts that are all zero have the median zero, as no counts have. -/
theorem median_eq_zero (h : ∀ c ∈ counts, c = 0) : median counts = 0 := by
  by_cases hne : counts = []
  · rw [hne]
    rfl
  · have hlow := le_median hne fun c hc => Int.le_of_eq (h c hc).symm
    have hhigh := median_le hne fun c hc => Int.le_of_eq (h c hc)
    omega

/-! ## Places in the order -/

variable {i : Nat} {p : Int → Bool}

theorem countP_sorted (counts : List Int) (p : Int → Bool) :
    (sorted counts).countP p = counts.countP p :=
  (sorted_perm counts).countP_eq p

/-- If a place and all that is no greater have a property, more counts have it
than there are places before. -/
theorem lt_countP_of_sorted (hi : i < counts.length)
    (h : ∀ c ≤ (sorted counts).getD i 0, p c = true) : i < counts.countP p := by
  have hi' : i < (sorted counts).length := by rwa [length_sorted]
  have hfirst : ∀ c ∈ (sorted counts).take (i + 1), p c = true := by
    intro c hc
    obtain ⟨j, hj, rfl⟩ := List.mem_iff_getElem.mp hc
    rw [List.length_take] at hj
    refine h _ ?_
    rw [List.getElem_take, List.getD_eq_getElem?_getD,
      List.getElem?_eq_getElem hi', Option.getD_some]
    rcases Nat.lt_or_eq_of_le (show j ≤ i by omega) with hlt | rfl
    · exact List.pairwise_iff_getElem.mp (pairwise_sorted counts) j i _ hi' hlt
    · exact Int.le_refl _
  have hcount : ((sorted counts).take (i + 1)).countP p = i + 1 := by
    rw [List.countP_eq_length.mpr hfirst, List.length_take]
    omega
  have hle := (List.take_sublist (i + 1) (sorted counts)).countP_le (p := p)
  rw [countP_sorted] at hle
  omega

/-- If a place and all that is no less have a property, as many counts have it as
there are places from there on. -/
theorem le_countP_of_sorted (hi : i < counts.length)
    (h : ∀ c, (sorted counts).getD i 0 ≤ c → p c = true) : counts.length ≤ i + counts.countP p := by
  have hi' : i < (sorted counts).length := by rwa [length_sorted]
  have hlast : ∀ c ∈ (sorted counts).drop i, p c = true := by
    intro c hc
    obtain ⟨j, hj, rfl⟩ := List.mem_iff_getElem.mp hc
    rw [List.length_drop] at hj
    refine h _ ?_
    rw [List.getElem_drop, List.getD_eq_getElem?_getD,
      List.getElem?_eq_getElem hi', Option.getD_some]
    rcases Nat.eq_zero_or_pos j with rfl | hpos
    · exact Int.le_refl _
    · exact List.pairwise_iff_getElem.mp (pairwise_sorted counts) i (i + j) hi' _ (by omega)
  have hcount : ((sorted counts).drop i).countP p = counts.length - i := by
    rw [List.countP_eq_length.mpr hlast, List.length_drop, length_sorted]
  have hle := (List.drop_sublist i (sorted counts)).countP_le (p := p)
  rw [countP_sorted] at hle
  omega

theorem count_add_countP_le {value : Int} (h : p value = false) :
    counts.count value + counts.countP p ≤ counts.length := by
  have hother : counts.countP p ≤ counts.countP fun c => decide ¬(c == value) = true := by
    refine List.countP_mono_left fun c _ hc => decide_eq_true fun heq => ?_
    rw [eq_of_beq heq, h] at hc
    cases hc
  have hlength := List.length_eq_countP_add_countP (· == value) (l := counts)
  rw [List.count]
  omega

/-- A value that more than half of the counts have stands in the middle of the order. -/
theorem getD_sorted_of_majority {value : Int} (h : counts.length < 2 * counts.count value)
    (hlow : counts.length ≤ 2 * i + 2) (hhigh : 2 * i ≤ counts.length) :
    (sorted counts).getD i 0 = value := by
  have hcount : counts.count value ≤ counts.length := List.count_le_length
  have hi : i < counts.length := by omega
  rcases Int.lt_trichotomy ((sorted counts).getD i 0) value with hlt | heq | hgt
  · have hbelow := @lt_countP_of_sorted counts i (fun c => decide (c < value)) hi fun c hc =>
      decide_eq_true (by omega)
    have := @count_add_countP_le counts (fun c => decide (c < value)) value (by simp)
    omega
  · exact heq
  · have habove := @le_countP_of_sorted counts i (fun c => decide (value < c)) hi fun c hc =>
      decide_eq_true (by omega)
    have := @count_add_countP_le counts (fun c => decide (value < c)) value (by simp)
    omega

/-- **The median is the value of a majority.** -/
theorem median_eq_of_majority {value : Int} (h : counts.length < 2 * counts.count value) :
    median counts = value := by
  have hcount : counts.count value ≤ counts.length := List.count_le_length
  rcases Nat.mod_two_eq_zero_or_one counts.length with heven | hodd
  · have hne : counts ≠ [] := List.length_pos_iff.mp (by omega)
    rw [median_of_even heven hne, getD_sorted_of_majority h (by omega) (by omega),
      getD_sorted_of_majority h (by omega) (by omega)]
    have hle := tdiv_two_le (Int.le_refl value) (Int.le_refl value)
    have hge := le_tdiv_two (Int.le_refl value) (Int.le_refl value)
    omega
  · rw [median_of_odd hodd]
    exact getD_sorted_of_majority h (by omega) (by omega)

end HeavyHitters.Count
