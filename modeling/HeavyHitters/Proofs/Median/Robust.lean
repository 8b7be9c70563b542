import HeavyHitters.Proofs.Median
import Mathlib.Data.List.Forall2

/-!
# The median as a statistic

The sorted form of a list does not know the order of the list, and its places go up when
counts go up and change sides when counts change signs.  The median takes all of this over
from the one or two places in the middle; rounding toward zero does no harm, because it goes
the same way on both sides of zero.

A machine takes the median of words of 32 bits.  It adds the two middle words in 64 bits, where the
sum of any two has room, and half of it lies between them, so it is a word of 32 bits again.

* `Count.median_eq_of_perm`, `Count.median_mono` and
  `Count.median_map_neg` are the laws of the median.
* `Count.medianOfWords` is the median in fixed width, and
  `Count.toInt_medianOfWords` says that it is exact.
* `Count.Robust` has the laws together, and `Count.robust_median` says that they hold of all lists.
-/

namespace HeavyHitters.Count

variable {counts others raised : List Int} {i : Nat}

/-! ## Order -/

/-- Two lists in ascending order with the same counts are the same list. -/
theorem sorted_eq_of_pairwise (hperm : others.Perm counts) (h : others.Pairwise (· ≤ ·)) :
    sorted counts = others :=
  List.Perm.eq_of_pairwise (fun _ _ _ _ => Int.le_antisymm) (pairwise_sorted counts) h
    ((sorted_perm counts).trans hperm.symm)

/-- **The median does not depend on the order of the counts.** -/
theorem median_eq_of_perm (h : others.Perm counts) : median others = median counts := by
  have hsorted : sorted others = sorted counts :=
    sorted_eq_of_pairwise ((sorted_perm counts).trans h.symm) (pairwise_sorted counts)
  unfold median
  rw [hsorted]

/-! ## Raised counts -/

/-- No more counts keep below a bound when they are raised. -/
theorem countP_le_of_raised (bound : Int) (h : List.Forall₂ (· ≤ ·) counts raised) :
    (raised.countP fun c => decide (c ≤ bound)) ≤ counts.countP fun c => decide (c ≤ bound) := by
  induction h with
  | nil => exact Nat.le_refl _
  | @cons c d counts raised hle _ ih =>
    rw [List.countP_cons, List.countP_cons]
    by_cases hd : d ≤ bound
    · have hc : c ≤ bound := Int.le_trans hle hd
      simpa [hc, hd] using ih
    · simp only [hd, decide_false, Bool.false_eq_true, if_false]
      omega

/-- What stands at a place does not go down when counts go up.  If it did, more raised counts would
keep below it than there are places before, and so many counts would have been below it already. -/
theorem getD_sorted_mono (h : List.Forall₂ (· ≤ ·) counts raised) (hi : i < counts.length) :
    (sorted counts).getD i 0 ≤ (sorted raised).getD i 0 := by
  by_contra hlt
  obtain ⟨bound, hbound⟩ : ∃ bound, bound = (sorted raised).getD i 0 := ⟨_, rfl⟩
  rw [← hbound] at hlt
  have hraised : i < raised.countP fun c => decide (c ≤ bound) :=
    lt_countP_of_sorted (h.length_eq ▸ hi) fun c hc => decide_eq_true (hbound ▸ hc)
  have hbefore := countP_le_of_raised bound h
  have habove : counts.length ≤ i + counts.countP fun c => decide ¬decide (c ≤ bound) = true :=
    le_countP_of_sorted hi fun c hc => by simp only [decide_eq_true_eq]; omega
  have hlength := List.length_eq_countP_add_countP (fun c => decide (c ≤ bound)) (l := counts)
  omega

/-- **The median goes up with the counts.** -/
theorem median_mono (h : List.Forall₂ (· ≤ ·) counts raised) : median counts ≤ median raised := by
  have hlength := h.length_eq
  rcases Nat.mod_two_eq_zero_or_one counts.length with heven | hodd
  · by_cases hne : counts = []
    · subst hne
      cases h
      exact Int.le_refl _
    · have hpos : 0 < counts.length := List.length_pos_iff.mpr hne
      have hne' : raised ≠ [] := List.length_pos_iff.mp (hlength ▸ hpos)
      have hbelow := getD_sorted_mono h (i := counts.length / 2 - 1) (by omega)
      have habove := getD_sorted_mono h (i := counts.length / 2) (by omega)
      rw [median_of_even heven hne, median_of_even (hlength ▸ heven) hne', ← hlength]
      exact Int.tdiv_le_tdiv (by decide) (Int.add_le_add hbelow habove)
  · rw [median_of_odd hodd, median_of_odd (hlength ▸ hodd), ← hlength]
    exact getD_sorted_mono h (by omega)

/-! ## Negated counts -/

theorem sorted_map_neg (counts : List Int) :
    sorted (counts.map (- ·)) = (sorted counts).reverse.map (- ·) := by
  refine sorted_eq_of_pairwise (((List.reverse_perm _).trans (sorted_perm counts)).map _) ?_
  rw [List.pairwise_map, List.pairwise_reverse]
  exact (pairwise_sorted counts).imp Int.neg_le_neg

/-- The places of negated counts are counted from the other end. -/
theorem getD_sorted_map_neg (hi : i < counts.length) :
    (sorted (counts.map (- ·))).getD i 0 = -(sorted counts).getD (counts.length - 1 - i) 0 := by
  have hi' : i < (sorted counts).length := by rwa [length_sorted]
  have hmirror : counts.length - 1 - i < (sorted counts).length := by
    rw [length_sorted]
    omega
  rw [sorted_map_neg, List.getD_eq_getElem?_getD, List.getD_eq_getElem?_getD, List.getElem?_map,
    List.getElem?_reverse hi', length_sorted, List.getElem?_eq_getElem hmirror]
  rfl

/-- **The median of negated counts is the negated median.** -/
theorem median_map_neg (counts : List Int) : median (counts.map (- ·)) = -median counts := by
  have hlength : (counts.map (- ·)).length = counts.length := List.length_map _
  rcases Nat.mod_two_eq_zero_or_one counts.length with heven | hodd
  · by_cases hne : counts = []
    · subst hne
      rfl
    · have hpos : 0 < counts.length := List.length_pos_iff.mpr hne
      have hne' : counts.map (- ·) ≠ [] := fun hnil => hne (List.map_eq_nil_iff.mp hnil)
      -- the two middle places change sides
      have hbelow : counts.length - 1 - (counts.length / 2 - 1) = counts.length / 2 := by omega
      have habove : counts.length - 1 - counts.length / 2 = counts.length / 2 - 1 := by omega
      rw [median_of_even heven hne, median_of_even (hlength.symm ▸ heven) hne', hlength,
        getD_sorted_map_neg (by omega), getD_sorted_map_neg (by omega), hbelow, habove,
        ← Int.neg_add, Int.neg_tdiv, Int.add_comm]
  · have hmiddle : counts.length - 1 - counts.length / 2 = counts.length / 2 := by omega
    rw [median_of_odd hodd, median_of_odd (hlength.symm ▸ hodd), hlength,
      getD_sorted_map_neg (by omega), hmiddle]

/-! ## Fixed width -/

/-- Half of the sum of two words, which is taken in 64 bits. -/
def midpoint (c d : Int32) : Int32 := ((c.toInt64 + d.toInt64) / 2).toInt32

/-- The words in ascending order. -/
def sortedWords (words : List Int32) : List Int32 := Sorting.sort (fun c d => decide (c ≤ d)) words

/-- The median as a machine takes it, all in fixed width. -/
def medianOfWords (words : List Int32) : Int32 :=
  let ordered := sortedWords words
  let half := ordered.length / 2
  if ordered.length % 2 = 1 then ordered.getD half 0
  else if ordered.length = 0 then 0
  else midpoint (ordered.getD (half - 1) 0) (ordered.getD half 0)

/-- In 64 bits the sum of two words of 32 bits does not overflow. -/
theorem toInt_add_toInt64 (c d : Int32) : (c.toInt64 + d.toInt64).toInt = c.toInt + d.toInt := by
  have hc := c.le_toInt
  have hc' := c.toInt_lt
  have hd := d.le_toInt
  have hd' := d.toInt_lt
  rw [Int64.toInt_add, Int32.toInt_toInt64, Int32.toInt_toInt64]
  exact Int.bmod_eq_of_le (by omega) (by omega)

/-- Nor does half of the sum, when it is cut to 32 bits. -/
theorem toInt_midpoint (c d : Int32) : (midpoint c d).toInt = (c.toInt + d.toInt).tdiv 2 := by
  have hlow : -2 ^ 31 ≤ (c.toInt + d.toInt).tdiv 2 := le_tdiv_two c.le_toInt d.le_toInt
  have hhigh : (c.toInt + d.toInt).tdiv 2 ≤ 2 ^ 31 - 1 :=
    tdiv_two_le (Int.le_sub_one_of_lt c.toInt_lt) (Int.le_sub_one_of_lt d.toInt_lt)
  have htwo : (2 : Int64).toInt = 2 := rfl
  rw [midpoint, Int64.toInt_toInt32, Int64.toInt_div, toInt_add_toInt64, htwo]
  rw [Int.bmod_eq_of_le (m := 2 ^ 64) (by omega) (by omega),
    Int.bmod_eq_of_le (by omega) (by omega)]

theorem sorted_map_toInt (words : List Int32) :
    sorted (words.map Int32.toInt) = (sortedWords words).map Int32.toInt := by
  refine sorted_eq_of_pairwise ((Sorting.sort_perm _ words).map _) ?_
  rw [List.pairwise_map, sortedWords, Sorting.sort_eq]
  refine (List.pairwise_mergeSort (fun a b c => ?_) (fun a b => ?_) words).imp fun h => ?_
  · simpa using Int32.le_trans
  · simpa using Int32.le_total a b
  · exact Int32.le_iff_toInt_le.mp (of_decide_eq_true h)

/-- **The median in fixed width is exact.** -/
theorem toInt_medianOfWords (words : List Int32) :
    (medianOfWords words).toInt = median (words.map Int32.toInt) := by
  have hget : ∀ i, ((sortedWords words).getD i 0).toInt
      = ((sortedWords words).map Int32.toInt).getD i 0 := by
    intro i
    rw [List.getD_eq_getElem?_getD, List.getD_eq_getElem?_getD, List.getElem?_map]
    cases (sortedWords words)[i]? <;> rfl
  unfold medianOfWords median
  simp only [sorted_map_toInt, List.length_map]
  split
  · exact hget _
  · split
    · rfl
    · rw [toInt_midpoint, hget, hget]

theorem ne_minValue_iff {word : Int32} : word ≠ Int32.minValue ↔ -2 ^ 31 + 1 ≤ word.toInt := by
  have hleast : Int32.minValue.toInt = -2 ^ 31 := rfl
  have hle := word.le_toInt
  rw [Ne, ← Int32.toInt_inj, hleast]
  omega

theorem toInt_neg_of_ne {word : Int32} (h : word ≠ Int32.minValue) :
    (-word).toInt = -word.toInt := by
  have hlow := ne_minValue_iff.mp h
  have hhigh := word.toInt_lt
  rw [Int32.toInt_neg]
  exact Int.bmod_eq_of_le (by omega) (by omega)

/-- Words that can all be negated have a median that can be negated, and then it is the
median of the negated words. -/
theorem medianOfWords_map_neg {words : List Int32} (h : ∀ word ∈ words, word ≠ Int32.minValue) :
    medianOfWords (words.map (- ·)) = -medianOfWords words := by
  have hmedian : medianOfWords words ≠ Int32.minValue := by
    by_cases hne : words = []
    · subst hne
      decide
    · rw [ne_minValue_iff, toInt_medianOfWords]
      refine le_median (mt List.map_eq_nil_iff.mp hne) fun c hc => ?_
      obtain ⟨word, hw, rfl⟩ := List.mem_map.mp hc
      exact ne_minValue_iff.mp (h word hw)
  have hwords : (words.map (- ·)).map Int32.toInt = (words.map Int32.toInt).map (- ·) := by
    rw [List.map_map, List.map_map]
    exact List.map_congr_left fun word hw => toInt_neg_of_ne (h word hw)
  rw [← Int32.toInt_inj, toInt_neg_of_ne hmedian, toInt_medianOfWords, toInt_medianOfWords,
    hwords, median_map_neg]

/-! ## All laws -/

/-- The laws of the median of a list of counts. -/
structure Robust (counts : List Int) : Prop where
  /-- Nothing overflows where the counts are words of 32 bits: neither does the sum of two of them
  in 64 bits, nor what is made of it. -/
  exact : ∀ words : List Int32, words.map Int32.toInt = counts →
    (∀ c ∈ words, ∀ d ∈ words, (c.toInt64 + d.toInt64).toInt = c.toInt + d.toInt) ∧
      (medianOfWords words).toInt = median counts
  fits : (∀ c ∈ counts, Fits c) → Fits (median counts)
  eq_of_perm : ∀ others, others.Perm counts → median others = median counts
  bounds : counts ≠ [] → ∃ low high, counts.min? = some low ∧ counts.max? = some high ∧
    low ≤ median counts ∧ median counts ≤ high
  /-- Whichever counts are raised, the median does not go down. -/
  mono : ∀ raised, List.Forall₂ (· ≤ ·) counts raised → median counts ≤ median raised
  /-- A value that more than half of the counts have is the median. -/
  eq_of_majority : ∀ value, counts.length < 2 * counts.count value → median counts = value
  map_neg : median (counts.map (- ·)) = -median counts
  /-- The same in fixed width, unless a word has no negation. -/
  map_neg_words : ∀ words : List Int32, words.map Int32.toInt = counts →
    (∀ word ∈ words, word ≠ Int32.minValue) →
    medianOfWords (words.map (- ·)) = -medianOfWords words

theorem exists_bounds (h : counts ≠ []) :
    ∃ low high, counts.min? = some low ∧ counts.max? = some high ∧
    low ≤ median counts ∧ median counts ≤ high := by
  obtain ⟨low, hlow⟩ := Option.isSome_iff_exists.mp (List.isSome_min?_of_ne_nil h)
  obtain ⟨high, hhigh⟩ := Option.isSome_iff_exists.mp (List.isSome_max?_of_ne_nil h)
  obtain ⟨-, hleast⟩ := List.min?_eq_some_iff.mp hlow
  obtain ⟨-, hgreatest⟩ := List.max?_eq_some_iff.mp hhigh
  exact ⟨low, high, hlow, hhigh, le_median h hleast, median_le h hgreatest⟩

/-- **The median does not overflow, and is robust**: it does not depend on the order of the
counts, lies between the least and the greatest of them, goes up with them, changes sign with
them, and is what most of them are. -/
theorem robust_median (counts : List Int) : Robust counts where
  exact := by
    rintro words rfl
    exact ⟨fun c _ d _ => toInt_add_toInt64 c d, toInt_medianOfWords words⟩
  fits := fits_median
  eq_of_perm _ := median_eq_of_perm
  bounds := exists_bounds
  mono _ := median_mono
  eq_of_majority _ := median_eq_of_majority
  map_neg := median_map_neg counts
  map_neg_words _ _ := medianOfWords_map_neg

example : median [-3, 4, -4, 4] = 0 ∧ median [3, -4, 4, -4] = 0 := by decide +kernel

end HeavyHitters.Count
