import HeavyHitters.Estimator.Basic
import HeavyHitters.Row

/-!
# Count-min with conservative update in one pass

The rows are visited in order, keeping the least raised value seen so far as a limit.  A counter
that the weight would take past the limit is only raised to the limit, and one that has reached it
is left alone.  So no counter grows by more than the weight, and every counter stays at or below
that of a count-min sketch.
-/

namespace HeavyHitters

/-- A count-min sketch with conservative update. -/
structure Conservative where
  rows : List (Row Int)

namespace Conservative

/-- The name in reports and refusals. -/
def title : String := "HalfCU"

/-- A sketch of `rows` rows of `width`-byte counters in a budget of bytes. -/
def ofBudget (memory rows width : Nat) (seed : UInt64) : Outcome Conservative := do
  let length ← rowLength title memory rows width
  reserveRows rows length Count.width
  return ⟨table (SeedStream.hashes ⟨seed⟩ rows).1 length 0⟩

/-- The number of rows. -/
def height (s : Conservative) : Nat := s.rows.length

/-- Raises the key's counter of each row by at most the weight and no further than the limit. -/
def raise (key : Key) (weight : Int) : List (Row Int) → Int → Checked (List (Row Int))
  | [], _ => .ok []
  | row :: rows, limit => do
    let current ← row.get key
    let raised ← Count.plus current weight
    if raised < limit then return row.set key raised :: (← raise key weight rows raised)
    else if current < limit then return row.set key limit :: (← raise key weight rows limit)
    else return row :: (← raise key weight rows limit)

/-- Raises the key's counters, at first without a limit. -/
def insert (s : Conservative) (key : Key) (weight : Int) : Checked Conservative := do
  return ⟨← raise key weight s.rows Count.greatest⟩

/-- The least of the key's counters. -/
def query (s : Conservative) (key : Key) : Checked Int := do
  return Count.leastOf (← s.rows.mapM (·.get key))

instance : Estimator Conservative where
  name _ := title
  insert := insert
  query s key := s.query key

end Conservative

end HeavyHitters
