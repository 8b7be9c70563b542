import HeavyHitters.Estimator.Basic
import HeavyHitters.Row

/-!
# Count-min sketch

Rows of counters, each key having one counter in every row.  An insert adds its weight to the
key's counter of each row; the estimate is the least of them.  A counter holds the weight of all
keys that share it, so with weights that are not negative the estimate is never too low.
-/

namespace HeavyHitters

/-- A count-min sketch. -/
structure CountMin where
  rows : List (Row Int)

namespace CountMin

/-- The name in reports and refusals. -/
def title : String := "CM"

/-- A sketch of `rows` rows of `width`-byte counters in a budget of bytes. -/
def ofBudget (memory rows width : Nat) (seed : UInt64) : Outcome CountMin := do
  let length ← rowLength title memory rows width
  reserveRows rows length Count.width
  return ⟨table (SeedStream.hashes ⟨seed⟩ rows).1 length 0⟩

/-- The number of rows. -/
def height (s : CountMin) : Nat := s.rows.length

/-- The number of counters in each row. -/
def width (s : CountMin) : Nat := (s.rows.head?.map Row.length).getD 0

/-- Adds the weight to the key's counter of each row. -/
def insert (s : CountMin) (key : Key) (weight : Int) : Checked CountMin := do
  return ⟨← s.rows.mapM fun row => row.update key (Count.plus · weight)⟩

/-- The least of the key's counters. -/
def query (s : CountMin) (key : Key) : Checked Int := do
  return Count.leastOf (← s.rows.mapM (·.get key))

instance : Estimator CountMin where
  name _ := title
  insert := insert
  query s key := s.query key

end CountMin

end HeavyHitters
