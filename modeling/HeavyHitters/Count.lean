import HeavyHitters.Fault
import HeavyHitters.Sorting

/-!
# Counts

A count is an integer that has to fit a signed 32-bit counter.  Every sum, difference and product
of counts is checked: it is the exact result, or a fault when that does not fit, so no count is ever
a wrong one.

The median at the end never faults, because the middle of two counts lies between them.
-/

namespace HeavyHitters.Count

/-- The least number a counter can hold. -/
def least : Int := -2147483648

/-- The greatest number a counter can hold. -/
def greatest : Int := 2147483647

/-- The bytes that a counter takes, whatever the width that a budget charges for it. -/
def width : Nat := 4

/-- Whether a number fits a counter. -/
def Fits (n : Int) : Prop := least ≤ n ∧ n ≤ greatest

instance (n : Int) : Decidable (Fits n) := inferInstanceAs (Decidable (_ ∧ _))

/-- The nearest number that fits a counter. -/
def clamp (n : Int) : Int := max least (min n greatest)

/-- The number if it fits a counter, else the overflow of the operation that made it. -/
def narrow (operation : Operation) (n : Int) : Checked Int :=
  if Fits n then .ok n else .error (.overflow operation)

/-- The checked sum of two counts. -/
def plus (a b : Int) : Checked Int := narrow .add (a + b)

/-- The checked difference of two counts. -/
def minus (a b : Int) : Checked Int := narrow .subtract (a - b)

/-- The checked product of two counts. -/
def times (a b : Int) : Checked Int := narrow .multiply (a * b)

theorem fits_iff {n : Int} : Fits n ↔ -2147483648 ≤ n ∧ n ≤ 2147483647 := Iff.rfl

theorem clamp_of_fits {n : Int} (h : Fits n) : clamp n = n := by
  rw [clamp, Int.min_eq_left h.2, Int.max_eq_right h.1]

theorem narrow_eq_ok_iff {operation : Operation} {n c : Int} :
    narrow operation n = .ok c ↔ Fits n ∧ c = n := by
  unfold narrow
  split <;> simp_all [eq_comm]

theorem narrow_of_fits {operation : Operation} {n : Int} (h : Fits n) :
    narrow operation n = .ok n :=
  if_pos h

theorem plus_eq_ok_iff {a b c : Int} : plus a b = .ok c ↔ Fits (a + b) ∧ c = a + b :=
  narrow_eq_ok_iff

theorem minus_eq_ok_iff {a b c : Int} : minus a b = .ok c ↔ Fits (a - b) ∧ c = a - b :=
  narrow_eq_ok_iff

theorem times_eq_ok_iff {a b c : Int} : times a b = .ok c ↔ Fits (a * b) ∧ c = a * b :=
  narrow_eq_ok_iff

/-- The checked sum of counts, taken from left to right starting at `start`. -/
def sumFrom (start : Int) : List Int → Checked Int
  | [] => .ok start
  | c :: rest => do sumFrom (← plus start c) rest

/-- The checked sum of counts, taken from left to right. -/
def sum (counts : List Int) : Checked Int := sumFrom 0 counts

/-- The least of the counts, 0 if there is none. -/
def leastOf : List Int → Int
  | [] => 0
  | c :: rest => rest.foldl min c

/-! ## Median -/

/-- The counts in ascending order. -/
def sorted (counts : List Int) : List Int := Sorting.sort (fun c d => decide (c ≤ d)) counts

/-- The middle count, or the mean of the two middle counts rounded toward zero; 0 of no counts. -/
def median (counts : List Int) : Int :=
  let ordered := sorted counts
  let half := ordered.length / 2
  if ordered.length % 2 = 1 then ordered.getD half 0
  else if ordered.length = 0 then 0
  else (ordered.getD (half - 1) 0 + ordered.getD half 0).tdiv 2

theorem sorted_perm (counts : List Int) : (sorted counts).Perm counts := Sorting.sort_perm _ _

theorem pairwise_sorted (counts : List Int) : (sorted counts).Pairwise (· ≤ ·) := by
  rw [sorted, Sorting.sort_eq]
  refine (List.pairwise_mergeSort (fun a b c => ?_) (fun a b => ?_) counts).imp of_decide_eq_true
  · simpa using Int.le_trans
  · simpa using Int.le_total a b

theorem length_sorted (counts : List Int) : (sorted counts).length = counts.length :=
  (sorted_perm counts).length_eq

end HeavyHitters.Count
