/-!
# Sorting

Stable merge sort by halves.  It is the library's `List.mergeSort`, with recursion on numbers only,
so that the sorted form of a closed list can be computed inside a proof.  Main statement: `sort`
and `List.mergeSort` agree, so all that is known of the latter holds here.
-/

namespace HeavyHitters.Sorting

variable {α : Type}

/-- Merges two sorted lists; of equally ranked elements that of the first list comes first. -/
def merge (before : α → α → Bool) (as bs : List α) : List α :=
  match as, bs with
  | [], bs => bs
  | as, [] => as
  | a :: as, b :: bs =>
    if before a b then a :: merge before as (b :: bs) else b :: merge before (a :: as) bs
termination_by as.length + bs.length
decreasing_by all_goals simp_wf

/-- Sorts a list whose length is at most `fuel`. -/
def sortWithin (before : α → α → Bool) : (fuel : Nat) → List α → List α
  | 0, as => as
  | _ + 1, [] => []
  | _ + 1, [a] => [a]
  | fuel + 1, a :: b :: rest =>
    let as := a :: b :: rest
    let half := (as.length + 1) / 2
    merge before (sortWithin before fuel (as.take half)) (sortWithin before fuel (as.drop half))

/-- Sorts a list. -/
def sort (before : α → α → Bool) (as : List α) : List α := sortWithin before as.length as

theorem merge_eq (before : α → α → Bool) (as bs : List α) :
    merge before as bs = as.merge bs before := by
  induction as generalizing bs with
  | nil => simp [merge]
  | cons a as ih =>
    induction bs with
    | nil => simp [merge]
    | cons b bs ihb =>
      rw [merge, List.cons_merge_cons]
      split <;> simp_all

theorem sortWithin_eq (before : α → α → Bool) {fuel : Nat} {as : List α} (h : as.length ≤ fuel) :
    sortWithin before fuel as = as.mergeSort before := by
  induction fuel generalizing as with
  | zero => simp [List.eq_nil_of_length_eq_zero (Nat.le_zero.1 h), sortWithin]
  | succ fuel ih =>
    match as with
    | [] => simp [sortWithin]
    | [a] => simp [sortWithin]
    | a :: b :: rest =>
      rw [sortWithin, List.mergeSort, ih, ih, merge_eq]
      · simp [List.MergeSort.Internal.splitInTwo_fst, List.MergeSort.Internal.splitInTwo_snd]
      · simp only [List.length_drop, List.length_cons] at *
        omega
      · simp only [List.length_take, List.length_cons] at *
        omega

theorem sort_eq (before : α → α → Bool) (as : List α) : sort before as = as.mergeSort before :=
  sortWithin_eq before (Nat.le_refl _)

theorem sort_perm (before : α → α → Bool) (as : List α) : (sort before as).Perm as :=
  sort_eq before as ▸ List.mergeSort_perm as before

end HeavyHitters.Sorting
