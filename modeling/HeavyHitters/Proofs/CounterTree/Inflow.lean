import HeavyHitters.Proofs.CounterTree
import Mathlib.Algebra.BigOperators.Group.Finset.Basic
import Mathlib.Algebra.BigOperators.Group.List.Basic

/-!
# Levels as a function of an inflow

The inflow of a level follows from that of the level below, each counter shows its inflow up to the
mark, and two runs of levels of one shape that show the same inflow are the same.

Weight is accounted for level by level: what the counters below a level stand for, together with the
inflow of that level, is the inflow of the leaves.  Read along a path, this bounds an estimate from
above by what came in under the common ancestor at the top.

* `CounterLevel.Holds.counter_eq` gives every counter by the inflow of its level.
* `CounterLevel.Holds.eq_of_shape_eq` says that the inflow determines the levels.
* `CounterLevel.Holds.weight_add_inflow` is the account of weight.
* `CounterLevel.Holds.weightAbove_le` is the upper bound on an estimate.
-/

namespace HeavyHitters

open Finset

namespace CounterLevel

/-! ## The inflow of each level -/

/-- The inflow of each level, from that of the leaves: what the level below carries on. -/
def inflowAt (marks : List Nat) (inflow : Nat → Nat) : (level : Nat) → Nat → Nat
  | 0 => inflow
  | level + 1 => carried (marks.getD level 0) (inflowAt marks inflow level)

/-- Counting the levels from the second one takes what the first one carries on for the inflow. -/
theorem inflowAt_cons (mark : Nat) (marks : List Nat) (inflow : Nat → Nat) (level : Nat) :
    inflowAt (mark :: marks) inflow (level + 1) = inflowAt marks (carried mark inflow) level := by
  induction level with
  | zero => rfl
  | succ level ih =>
    rw [inflowAt, ih]
    rfl

variable {levels levels' above : List CounterLevel} {first level : CounterLevel}
  {inflow : Nat → Nat} {index position : Nat}

/-- **A counter shows the inflow of its level up to the mark.** -/
theorem Holds.counter_eq (h : Holds levels inflow) (hl : levels[index]? = some level)
    (position : Nat) : level.counter position
      = min (inflowAt (levels.map (·.mark)) inflow index position) level.mark := by
  induction levels generalizing inflow index with
  | nil => simp at hl
  | cons first above ih =>
    obtain ⟨hmark, hcounter, habove⟩ := h
    cases index with
    | zero =>
      obtain rfl : first = level := by simpa using hl
      exact hcounter position
    | succ index =>
      rw [List.map_cons, inflowAt_cons]
      exact ih habove (by simpa using hl)

/-! ## Levels of one shape -/

/-- The marks and the sizes of levels. -/
def shape (levels : List CounterLevel) : List (Nat × Nat) :=
  levels.map fun level => (level.mark, level.counters.size)

theorem shape_carryUp (levels : List CounterLevel) (position weight : Nat) :
    shape (carryUp levels position weight) = shape levels := by
  induction levels generalizing position weight with
  | nil => rfl
  | cons level above ih =>
    simp only [shape] at ih
    simp only [shape, carryUp]
    split
    · split
      · simp [set]
      · simp [ih, set]
    · simp [ih]

theorem eq_of_counter_eq {a b : CounterLevel} (hmark : a.mark = b.mark)
    (hsize : a.counters.size = b.counters.size)
    (h : ∀ position, a.counter position = b.counter position) : a = b := by
  obtain ⟨mark, counters⟩ := a
  obtain ⟨mark', counters'⟩ := b
  obtain rfl : mark = mark' := hmark
  congr 1
  refine Array.ext hsize fun position hi hi' => ?_
  have := h position
  simpa [counter, hi, hi'] using this

/-- **The inflow determines levels of a given shape.** -/
theorem Holds.eq_of_shape_eq (h : Holds levels inflow) (h' : Holds levels' inflow)
    (hshape : shape levels = shape levels') : levels = levels' := by
  induction levels generalizing levels' inflow with
  | nil => exact (List.map_eq_nil_iff.mp hshape.symm).symm
  | cons level above ih =>
    cases levels' with
    | nil => simp [shape] at hshape
    | cons level' above' =>
      obtain ⟨-, hcounter, habove⟩ := h
      obtain ⟨-, hcounter', habove'⟩ := h'
      simp only [shape, List.map_cons, List.cons.injEq, Prod.mk.injEq] at hshape
      obtain ⟨⟨hmark, hsize⟩, hrest⟩ := hshape
      have hlevel : level = level' := eq_of_counter_eq hmark hsize fun position => by
        rw [hcounter position, hcounter' position, hmark]
      rw [hmark] at habove
      rw [hlevel, ih habove habove' hrest]

/-! ## The account of weight -/

/-- The weight that the counters of a level stand for. -/
def weight (level : CounterLevel) : Nat :=
  ∑ position ∈ range level.counters.size,
    if level.counter position = level.mark then level.mark - 1 else level.counter position

/-- The positions of a level in pairs of neighbours. -/
theorem sum_range_pairs (f : Nat → Nat) (n : Nat) :
    ∑ position ∈ range (2 * n), f position
      = ∑ parent ∈ range n, (f (2 * parent) + f (2 * parent + 1)) := by
  induction n with
  | zero => rfl
  | succ n ih =>
    rw [show 2 * (n + 1) = 2 * n + 1 + 1 by omega, sum_range_succ, sum_range_succ, ih,
      sum_range_succ, Nat.add_assoc]

/-- What positions keep and what they carry on is their inflow. -/
theorem sum_min_add_sum_carried (mark n : Nat) (inflow : Nat → Nat) :
    ∑ position ∈ range (2 * n), min (inflow position) (mark - 1)
      + ∑ parent ∈ range n, carried mark inflow parent
      = ∑ position ∈ range (2 * n), inflow position := by
  rw [sum_range_pairs, sum_range_pairs, ← sum_add_distrib]
  refine sum_congr rfl fun parent _ => ?_
  unfold carried
  omega

theorem weight_eq (hmark : 0 < level.mark)
    (h : ∀ position, level.counter position = min (inflow position) level.mark) :
    level.weight = ∑ position ∈ range level.counters.size,
    min (inflow position) (level.mark - 1) := by
  refine sum_congr rfl fun position _ => ?_
  rw [h position]
  split <;> omega

/-- Each level has twice as many counters as the one above. -/
abbrev Halving (levels : List CounterLevel) : Prop :=
  levels.IsChain fun level parent => level.counters.size = 2 * parent.counters.size

/-- **No weight is lost or made on the way to a level**: what the counters below it stand for and
the inflow of the level itself are the inflow of the leaves. -/
theorem Holds.weight_add_inflow (h : Holds (first :: above) inflow) (hh : Halving (first :: above))
    (hl : (first :: above)[index]? = some level) :
    (((first :: above).take index).map weight).sum
      + ∑ position ∈ range level.counters.size,
          inflowAt ((first :: above).map (·.mark)) inflow index position
        = ∑ position ∈ range first.counters.size, inflow position := by
  induction above generalizing first inflow index with
  | nil =>
    cases index with
    | zero =>
      obtain rfl : first = level := by simpa using hl
      simp [inflowAt]
    | succ index => simp at hl
  | cons parent above ih =>
    cases index with
    | zero =>
      obtain rfl : first = level := by simpa using hl
      simp [inflowAt]
    | succ index =>
      obtain ⟨hmark, hcounter, habove⟩ := h
      obtain ⟨hsize, hh⟩ := List.isChain_cons_cons.mp hh
      have hrest := ih habove hh (by simpa using hl)
      have hfirst := weight_eq hmark hcounter
      have hkeep := sum_min_add_sum_carried first.mark parent.counters.size inflow
      rw [List.map_cons, inflowAt_cons, List.take_succ_cons, List.map_cons, List.sum_cons,
        Nat.add_assoc, hrest, hfirst, hsize, hkeep]

/-! ## The weight under a common ancestor -/

/-- An inflow gathered at the ancestors a number of levels up. -/
def gathered : (depth : Nat) → (Nat → Nat) → Nat → Nat
  | 0, inflow => inflow
  | depth + 1, inflow => gathered depth fun parent => inflow (2 * parent) + inflow (2 * parent + 1)

/-- What is more at one position is more at its ancestor. -/
theorem gathered_add_le {less more : Nat → Nat} (hle : ∀ other, less other ≤ more other)
    {extra : Nat} (hextra : less position + extra ≤ more position) (depth : Nat) :
    gathered depth less (position / 2 ^ depth) + extra
      ≤ gathered depth more (position / 2 ^ depth) := by
  induction depth generalizing less more position with
  | zero => simpa [gathered] using hextra
  | succ depth ih =>
    rw [gathered, gathered, Nat.pow_succ', ← Nat.div_div_eq_div_mul]
    refine ih (fun parent => ?_) ?_
    · have := hle (2 * parent)
      have := hle (2 * parent + 1)
      omega
    · have := hle (2 * (position / 2))
      have := hle (2 * (position / 2) + 1)
      rcases Nat.mod_two_eq_zero_or_one position with hp | hp
      · rw [show 2 * (position / 2) = position by omega] at *
        omega
      · rw [show 2 * (position / 2) + 1 = position by omega] at *
        omega

theorem le_gathered (inflow : Nat → Nat) (position depth : Nat) :
    inflow position ≤ gathered depth inflow (position / 2 ^ depth) := by
  have hnone : (fun _ => 0 : Nat → Nat) position + inflow position ≤ inflow position := by simp
  have := gathered_add_le (fun other => Nat.zero_le (inflow other)) hnone depth
  omega

/-- **An estimate is no more than what was poured in under the ancestor at the top.** -/
theorem Holds.weightAbove_le (h : Holds levels inflow) (position : Nat) :
    weightAbove levels position
      ≤ gathered (levels.length - 1) inflow (position / 2 ^ (levels.length - 1)) := by
  induction levels generalizing inflow position with
  | nil => exact Nat.zero_le _
  | cons level above ih =>
    obtain ⟨hmark, hcounter, habove⟩ := h
    have hvalue := hcounter position
    have hself := le_gathered inflow position above.length
    rw [List.length_cons, Nat.add_sub_cancel]
    simp only [weightAbove]
    split
    · cases above with
      | nil =>
        simp only [weightAbove, List.length_nil] at hself ⊢
        omega
      | cons parent above =>
        -- a saturated counter keeps one less than its mark of what would reach the ancestor
        have hup := ih habove (position / 2)
        rw [List.length_cons, Nat.add_sub_cancel] at hup
        have hkeep : carried level.mark inflow (position / 2) + (level.mark - 1)
            ≤ inflow (2 * (position / 2)) + inflow (2 * (position / 2) + 1) := by
          unfold carried
          rcases Nat.mod_two_eq_zero_or_one position with hp | hp
          · rw [show 2 * (position / 2) = position by omega]
            omega
          · rw [show 2 * (position / 2) + 1 = position by omega]
            omega
        have hcarried : ∀ other, carried level.mark inflow other
            ≤ (fun parent => inflow (2 * parent) + inflow (2 * parent + 1)) other := by
          intro other
          dsimp only [carried]
          omega
        have hle := gathered_add_le hcarried hkeep above.length
        rw [List.length_cons, gathered, Nat.pow_succ', ← Nat.div_div_eq_div_mul]
        omega
    · omega

/-- A leaf whose inflow is below the mark is not saturated, so the estimate stops there. -/
theorem Holds.weightAbove_eq_of_lt (h : Holds (first :: above) inflow)
    (hlt : inflow position < first.mark) :
    weightAbove (first :: above) position = inflow position := by
  have hvalue := h.2.1 position
  simp only [weightAbove]
  rw [if_neg (by omega)]
  omega

end CounterLevel

end HeavyHitters
