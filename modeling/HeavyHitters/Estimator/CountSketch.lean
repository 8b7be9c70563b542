import HeavyHitters.Estimator.Basic
import HeavyHitters.SignedRow

/-!
# Count sketch

Rows of signed counters; the estimate of a key is the least of its estimates in the rows.  Keys
that share a counter may cancel, so the estimate can be too low as well as too high.
-/

namespace HeavyHitters

/-- A count sketch. -/
structure CountSketch where
  rows : List SignedRow

namespace CountSketch

/-- The name in reports and refusals. -/
def title : String := "Count"

/-- A sketch of `rows` rows of `width`-byte counters in a budget of bytes. -/
def ofBudget (memory rows width : Nat) (seed : UInt64) : Outcome CountSketch := do
  let length ← rowLength title memory rows width
  reserveRows rows length Count.width
  return ⟨(SignedRow.table rows length ⟨seed⟩).1⟩

/-- The number of rows. -/
def height (s : CountSketch) : Nat := s.rows.length

/-- Adds the signed weight to the key's counter of each row. -/
def insert (s : CountSketch) (key : Key) (weight : Int) : Checked CountSketch := do
  return ⟨← s.rows.mapM (·.add key weight)⟩

/-- The least of the key's estimates. -/
def query (s : CountSketch) (key : Key) : Checked Int := do
  return Count.leastOf (← s.rows.mapM (·.estimate key))

instance : Estimator CountSketch where
  name _ := title
  insert := insert
  query s key := s.query key

end CountSketch

end HeavyHitters
