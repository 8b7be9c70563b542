import HeavyHitters.BoundedHeap
import HeavyHitters.Estimator.Basic
import HeavyHitters.SignedRow

/-!
# Count sketch with a heap of heavy keys

Half of the budget goes to rows of signed counters, half to a heap of the keys with the greatest
counts.  A key in the heap grows by what is inserted for it; any other key competes for a place
with the median of its estimates in the rows.  Queries are answered from the heap alone.
-/

namespace HeavyHitters

/-- Rows of signed counters and the heap of heavy keys. -/
structure HeapSketch where
  rows : List SignedRow
  heap : BoundedHeap

namespace HeapSketch

/-- The name in reports and refusals. -/
def title : String := "CountHeap"

/-- A sketch of `rows` rows of `width`-byte counters, and a heap, in half of a budget of bytes
each. -/
def ofBudget (memory rows width : Nat) (seed : UInt64) : Outcome HeapSketch := do
  let length ← rowLength title (memory / 2) rows width
  let heap ← BoundedHeap.ofBudget title (memory / 2)
  reserveRows rows length Count.width
  return ⟨(SignedRow.table rows length ⟨seed⟩).1, heap⟩

/-- The number of rows. -/
def height (s : HeapSketch) : Nat := s.rows.length

/-- The number of keys in the heap. -/
def tracked (s : HeapSketch) : Nat := s.heap.size

/-- Adds signed weight to the key's counter of a row and reads the key's estimate off it. -/
def addAndEstimate (key : Key) (weight : Int) (row : SignedRow) : Checked (SignedRow × Int) := do
  let row ← row.add key weight
  return (row, ← row.estimate key)

/-- Adds the weight to the rows; then bumps the key in the heap by the weight, or lets it compete
with the median of its estimates. -/
def insert (s : HeapSketch) (key : Key) (weight : Int) : Checked HeapSketch := do
  let added ← s.rows.mapM (addAndEstimate key weight)
  let estimate := Count.median (added.map Prod.snd)
  let heap ← s.heap.insertOrBump key (if s.heap.contains key then weight else estimate)
  return ⟨added.map Prod.fst, heap⟩

/-- The count of a key in the heap, 0 of other keys. -/
def query (s : HeapSketch) (key : Key) : Int := s.heap.query key

/-- The keys in the heap, by rank. -/
def topK (s : HeapSketch) : List (Record Key) := s.heap.records

instance : Estimator HeapSketch where
  name _ := title
  insert := insert
  query s key := .ok (s.query key)
  topK s := .ok s.topK

end HeapSketch

end HeavyHitters
