import HeavyHitters.Hash.KeyHash

/-!
# Trees of saturating counters

A tree has many narrow counters at its leaves and half as many, wider ones on each level above: two
neighbouring counters share a parent.  A key's weight goes to its leaf.  A counter that would reach
its level's mark is set to the mark, which says that it is saturated and stands for one less; the
weight that did not fit is carried to the parent.  What the top level cannot take in is lost.
-/

namespace HeavyHitters

/-- The counters of one level and the mark of a saturated one. -/
structure CounterLevel where
  mark : Nat
  counters : Array Nat
  deriving DecidableEq

namespace CounterLevel

/-- The counter at a position, 0 outside the level. -/
def counter (level : CounterLevel) (position : Nat) : Nat := level.counters.getD position 0

/-- Changes the counter at a position. -/
def set (level : CounterLevel) (position value : Nat) : CounterLevel :=
  { level with counters := level.counters.setIfInBounds position value }

theorem counter_set (level : CounterLevel) (position other value : Nat) :
    (level.set position value).counter other =
      if position = other ∧ position < level.counters.size then value else level.counter other := by
  unfold set counter
  rw [Array.getD_eq_getD_getElem?, Array.getD_eq_getD_getElem?, Array.getElem?_setIfInBounds]
  by_cases h : position = other
  · subst h
    by_cases hs : position < level.counters.size
    · simp [hs]
    · simp [hs]
  · simp [h]

/-- Carries weight into the counter at a position of the lowest level and on to its ancestors. -/
def carryUp : List CounterLevel → (position weight : Nat) → List CounterLevel
  | [], _, _ => []
  | level :: above, position, weight =>
    let value := level.counter position
    if value < level.mark then
      if value + weight < level.mark then level.set position (value + weight) :: above
      else level.set position level.mark
        :: carryUp above (position / 2) (weight - (level.mark - 1 - value))
    else level :: carryUp above (position / 2) weight

/-- The weight that the counters from a position upward stand for, up to the first one that is not
saturated. -/
def weightAbove : List CounterLevel → (position : Nat) → Nat
  | [], _ => 0
  | level :: above, position =>
    let value := level.counter position
    if value = level.mark then level.mark - 1 + weightAbove above (position / 2) else value

end CounterLevel

/-- A tree of counters behind a hash function, its levels from the leaves up. -/
structure CounterTree where
  hash : Key → UInt64
  levels : List CounterLevel

namespace CounterTree

/-- The marks of saturated counters of 8, 16 and 32 bits. -/
def marks : List Nat := [255, 65535, 4294967295]

/-- The bytes that a counter of any level takes. -/
def counterWidth : Nat := 8

/-- An empty tree whose top level has `width` counters. -/
def empty (height width : Nat) (hash : KeyHash) : CounterTree :=
  ⟨hash.hash, (marks.take height).mapIdx fun level mark =>
    ⟨mark, Array.replicate (width <<< (height - 1 - level)) 0⟩⟩

/-- The number of leaves. -/
def leaves (t : CounterTree) : Nat := (t.levels.head?.map (·.counters.size)).getD 0

/-- The leaf of a key. -/
def leaf (t : CounterTree) (key : Key) : Nat := (t.hash key).toNat % t.leaves

/-- Adds weight to a key. -/
def add (t : CounterTree) (key : Key) (weight : Nat) : CounterTree :=
  { t with levels := CounterLevel.carryUp t.levels (t.leaf key) weight }

/-- The weight that the key's counters stand for. -/
def estimate (t : CounterTree) (key : Key) : Nat := CounterLevel.weightAbove t.levels (t.leaf key)

end CounterTree

end HeavyHitters
