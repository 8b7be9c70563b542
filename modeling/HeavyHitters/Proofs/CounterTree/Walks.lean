import HeavyHitters.Proofs.Checked
import HeavyHitters.Proofs.CounterTree.Totals

/-!
# Walks with every step checked

An insert walks up from a leaf and halves the position on each level; a query does the same.  The
trees of this library read a counter that is not there as zero and compute with numbers of any
size.  Here the two walks look up only what is there and compute in words of 64 bits, and fault
where that is not possible.  In a tree that has grown from an empty one they never do: every leaf
has an ancestor on each level, a counter stays at or below its mark, and the marks of a path
together are far from the end of a word.

* `CounterLevel.carryUpChecked` and `CounterLevel.weightAboveChecked` are the walks.
* `CounterLevel.carryUpChecked_eq` and `CounterLevel.weightAboveChecked_eq` say that they are the
  walks of the library where all positions are there.
* `CounterTree.Walkable` says so of all keys of a tree, and `CounterTree.Absorbed.walkable` of every
  tree that has grown from an empty one.
-/

namespace HeavyHitters

/-! ## Words -/

/-- The sum of two words, which has to be less than the number of words. -/
def wordPlus (a b : Nat) : Checked Nat :=
  if a + b < 1 <<< 64 then .ok (a + b) else .error (.overflow .add)

/-- The difference of two words, of which the second must not be the greater. -/
def wordMinus (a b : Nat) : Checked Nat :=
  if b ≤ a then .ok (a - b) else .error (.overflow .subtract)

theorem wordPlus_of_lt {a b : Nat} (h : a + b < 1 <<< 64) : wordPlus a b = .ok (a + b) := if_pos h

theorem wordMinus_of_le {a b : Nat} (h : b ≤ a) : wordMinus a b = .ok (a - b) := if_pos h

namespace CounterLevel

/-! ## The two walks -/

/-- The counter at a position, which has to be one of the level. -/
def read (level : CounterLevel) (position : Nat) : Checked Nat :=
  match level.counters[position]? with
  | some value => .ok value
  | none => .error (.outOfBounds level.counters.size position)

/-- Carries weight into the counter at a position and on to its ancestors, step by step. -/
def carryUpChecked : List CounterLevel → (position weight : Nat) → Checked (List CounterLevel)
  | [], _, _ => .ok []
  | level :: above, position, weight => do
    let value ← level.read position
    if value < level.mark then
      let sum ← wordPlus value weight
      if sum < level.mark then return level.set position sum :: above
      else
        let room ← wordMinus (← wordMinus level.mark 1) value
        let rest ← wordMinus weight room
        return level.set position level.mark :: (← carryUpChecked above (position / 2) rest)
    else return level :: (← carryUpChecked above (position / 2) weight)

/-- Adds what the counters from a position upward stand for to a total, step by step. -/
def weightAboveChecked : List CounterLevel → (position total : Nat) → Checked Nat
  | [], _, total => .ok total
  | level :: above, position, total => do
    let value ← level.read position
    if value = level.mark then
      weightAboveChecked above (position / 2) (← wordPlus total (← wordMinus level.mark 1))
    else wordPlus total value

variable {levels : List CounterLevel} {level : CounterLevel} {position weight total : Nat}

theorem read_of_lt (h : position < level.counters.size) :
    level.read position = .ok (level.counter position) := by
  unfold read counter
  rw [Array.getElem?_eq_getElem h, Array.getD_eq_getD_getElem?, Array.getElem?_eq_getElem h]
  rfl

/-- **Weight is carried up without a fault**: a counter that is not saturated leaves room for the
carried weight in a word, and what it takes in is no more than the weight. -/
theorem carryUpChecked_eq (path : HasPath levels position)
    (hmarks : ∀ level ∈ levels, 0 < level.mark ∧ level.mark ≤ 1 <<< 32)
    (hweight : weight < 1 <<< 32) :
    carryUpChecked levels position weight = .ok (carryUp levels position weight) := by
  induction levels generalizing position weight with
  | nil => rfl
  | cons level above ih =>
    obtain ⟨hsize, hpath⟩ := path
    obtain ⟨hmark, habove⟩ := List.forall_mem_cons.mp hmarks
    have hstep := fun rest (hrest : rest < 1 <<< 32) => @ih (position / 2) rest hpath habove hrest
    simp only [Nat.one_shiftLeft] at hmark hweight hstep
    rw [carryUpChecked, carryUp, read_of_lt hsize]
    show (if level.counter position < level.mark then _ else _) = _
    by_cases hlt : level.counter position < level.mark
    · rw [if_pos hlt, if_pos hlt, wordPlus_of_lt (by rw [Nat.one_shiftLeft]; omega)]
      show (if level.counter position + weight < level.mark then _ else _) = _
      by_cases hfit : level.counter position + weight < level.mark
      · rw [if_pos hfit, if_pos hfit]
        rfl
      · -- the counter is filled up to its mark, which takes no more than the weight
        rw [if_neg hfit, if_neg hfit, wordMinus_of_le (show 1 ≤ level.mark by omega)]
        show wordMinus (level.mark - 1) (level.counter position) >>= _ = _
        rw [wordMinus_of_le (by omega)]
        show wordMinus weight (level.mark - 1 - level.counter position) >>= _ = _
        rw [wordMinus_of_le (by omega)]
        show carryUpChecked above _ _ >>= _ = _
        rw [hstep _ (by omega)]
        rfl
    · rw [if_neg hlt, if_neg hlt, hstep weight hweight]
      rfl

/-- **Counters are summed up without a fault** if the marks of the path and
the total so far fit a word. -/
theorem weightAboveChecked_eq (path : HasPath levels position)
    (hmarks : ∀ level ∈ levels, 0 < level.mark ∧ ∀ position, level.counter position ≤ level.mark)
    (htotal : total + (levels.map (·.mark)).sum < 1 <<< 64) :
    weightAboveChecked levels position total = .ok (total + weightAbove levels position) := by
  induction levels generalizing position total with
  | nil => rfl
  | cons level above ih =>
    obtain ⟨hsize, hpath⟩ := path
    obtain ⟨⟨hmark, hcounter⟩, habove⟩ := List.forall_mem_cons.mp hmarks
    have hvalue := hcounter position
    rw [List.map_cons, List.sum_cons] at htotal
    rw [weightAboveChecked, weightAbove, read_of_lt hsize]
    show (if level.counter position = level.mark then _ else _) = _
    by_cases hsat : level.counter position = level.mark
    · rw [if_pos hsat, if_pos hsat, wordMinus_of_le (show 1 ≤ level.mark from hmark)]
      show wordPlus total (level.mark - 1) >>= _ = _
      rw [wordPlus_of_lt (by omega)]
      show weightAboveChecked above (position / 2) (total + (level.mark - 1)) = _
      rw [ih hpath habove (by omega), Nat.add_assoc]
    · rw [if_neg hsat, if_neg hsat, wordPlus_of_lt (by omega)]

/-- A counter of levels that show an inflow is no more than its mark. -/
theorem Holds.counter_le_mark {inflow : Nat → Nat} (h : Holds levels inflow) :
    ∀ level ∈ levels, 0 < level.mark ∧ ∀ position, level.counter position ≤ level.mark := by
  induction levels generalizing inflow with
  | nil => exact List.forall_mem_nil _
  | cons level above ih =>
    obtain ⟨hmark, hcounter, habove⟩ := h
    refine List.forall_mem_cons.mpr ⟨⟨hmark, fun position => ?_⟩, ih habove⟩
    rw [hcounter position]
    exact Nat.min_le_right _ _

end CounterLevel

namespace CounterTree

open CounterLevel

/-- What is looked up and computed in a tree for any key is there, and fits. -/
structure Walkable (t : CounterTree) : Prop where
  /-- The remainder that gives a leaf has a divisor. -/
  leaves_pos : 0 < t.leaves
  /-- A weight that fits a count is added without a fault. -/
  add_checked : ∀ (key : Key) (weight : Nat), (weight : Int) ≤ Count.greatest →
    carryUpChecked t.levels (t.leaf key) weight = .ok (t.add key weight).levels
  /-- So is the weight of a key estimated. -/
  estimate_checked : ∀ key, weightAboveChecked t.levels (t.leaf key) 0 = .ok (t.estimate key)

/-- **A tree that has grown from an empty one is walked without a fault.** -/
theorem Absorbed.walkable {t : CounterTree} {units : List Entry} {height : Nat}
    (h : t.Absorbed units) (hr : t.Regular height) : t.Walkable where
  leaves_pos := Nat.zero_lt_of_lt (h.leaf_lt hr 0)
  add_checked key weight hweight := by
    refine carryUpChecked_eq (h.hasPath key)
      (fun level hl => ⟨(h.holds.counter_le_mark level hl).1, ?_⟩) ?_
    · have hmem : level.mark ∈ marks.take height := hr.map_mark_eq ▸ List.mem_map_of_mem hl
      have hmarks : ∀ mark ∈ marks, mark ≤ 1 <<< 32 := by decide
      exact hmarks _ (List.mem_of_mem_take hmem)
    · unfold Count.greatest at hweight
      simp only [Nat.one_shiftLeft]
      omega
  estimate_checked key := by
    have hsum : (t.levels.map (·.mark)).sum < 1 <<< 64 := by
      have hall : marks.sum < 1 <<< 64 := by decide
      have hsplit := List.sum_take_add_sum_drop marks height
      rw [hr.map_mark_eq]
      omega
    have hwalk : weightAboveChecked t.levels (t.leaf key) 0 = .ok (0 + t.estimate key) :=
      weightAboveChecked_eq (h.hasPath key) h.holds.counter_le_mark (by omega)
    rwa [Nat.zero_add] at hwalk

end CounterTree

end HeavyHitters
