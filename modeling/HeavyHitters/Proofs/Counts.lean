import HeavyHitters.Count
import Mathlib.Algebra.Order.BigOperators.Group.List
import Mathlib.Algebra.Ring.Int.Defs
import Mathlib.Data.List.Forall2

/-!
# Sums and least elements of counts

* `Count.sum_eq_narrow` says that a checked sum of counts that are not negative has only its total
  to check.
* `Count.leastOf_mem` and `Count.le_leastOf_iff` say what the least of some counts is, and
  `Count.leastOf_le_add` compares it with that of others.
-/

namespace HeavyHitters

/-! ## Checked sums -/

namespace Count

/-- A number no further from zero than the greatest that fits does fit. -/
theorem fits_of_bounds {n : Int} (hlow : -greatest ≤ n) (hhigh : n ≤ greatest) : Fits n := by
  unfold greatest at hlow
  exact ⟨by unfold least; omega, hhigh⟩

theorem narrow_of_greatest_lt {operation : Operation} {n : Int} (h : greatest < n) :
    narrow operation n = .error (.overflow operation) :=
  if_neg fun hf => by have := hf.2; omega

theorem sumFrom_eq_narrow {start : Int} {counts : List Int} (hs : Fits start)
    (h : ∀ c ∈ counts, 0 ≤ c) : sumFrom start counts = narrow .add (start + counts.sum) := by
  induction counts generalizing start with
  | nil => rw [sumFrom, List.sum_nil, Int.add_zero, narrow_of_fits hs]
  | cons c rest ih =>
    have hc : 0 ≤ c := h c List.mem_cons_self
    have hrest : ∀ d ∈ rest, 0 ≤ d := fun d hd => h d (List.mem_cons_of_mem c hd)
    rw [sumFrom, List.sum_cons, ← Int.add_assoc]
    by_cases hf : Fits (start + c)
    · rw [show plus start c = .ok (start + c) from narrow_of_fits hf]
      exact ih hf hrest
    · -- a partial sum that does not fit stays out of range, as nothing negative follows
      have hlt : greatest < start + c := by
        have := hs.1
        unfold Fits at hf
        omega
      have hsum : 0 ≤ rest.sum := List.sum_nonneg hrest
      rw [show plus start c = _ from narrow_of_greatest_lt hlt,
        narrow_of_greatest_lt (by omega)]
      rfl

/-- A checked sum of counts that are not negative fails only if the total does not fit. -/
theorem sum_eq_narrow {counts : List Int} (h : ∀ c ∈ counts, 0 ≤ c) :
    sum counts = narrow .add counts.sum := by
  rw [sum, sumFrom_eq_narrow (by decide) h, Int.zero_add]

/-! ## Least count -/

theorem min?_eq_leastOf {counts : List Int} (h : counts ≠ []) :
    counts.min? = some (leastOf counts) := by
  cases counts with
  | nil => exact absurd rfl h
  | cons c rest => rfl

theorem leastOf_mem {counts : List Int} (h : counts ≠ []) : leastOf counts ∈ counts :=
  List.min?_mem (min?_eq_leastOf h)

/-- A bound below all counts, of which there is one, is a bound below the least of them. -/
theorem le_leastOf_iff {counts : List Int} (h : counts ≠ []) {bound : Int} :
    bound ≤ leastOf counts ↔ ∀ c ∈ counts, bound ≤ c :=
  List.le_min?_iff (min?_eq_leastOf h)

/-- Counts that exceed others by at most a weight have a least one that
exceeds theirs by at most that. -/
theorem leastOf_le_add {counts others : List Int} {weight : Int} (hw : 0 ≤ weight)
    (h : List.Forall₂ (fun c d => c ≤ d + weight) counts others) :
    leastOf counts ≤ leastOf others + weight := by
  have hfold : ∀ {counts others : List Int},
      List.Forall₂ (fun c d => c ≤ d + weight) counts others → ∀ {a b : Int}, a ≤ b + weight →
        counts.foldl min a ≤ others.foldl min b + weight := by
    intro counts others h
    induction h with
    | nil => exact fun hab => hab
    | cons hcd hrest ih => exact fun hab => ih (by omega)
  cases h with
  | nil => simpa [leastOf] using hw
  | cons hcd hrest => exact hfold hrest hcd

theorem leastOf_le_leastOf {counts others : List Int}
    (h : List.Forall₂ (fun c d => c ≤ d) counts others) : leastOf counts ≤ leastOf others := by
  have := leastOf_le_add (Int.le_refl 0) (h.imp fun c d hcd => by omega)
  omega

end Count

end HeavyHitters
