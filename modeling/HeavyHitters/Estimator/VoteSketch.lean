import HeavyHitters.Estimator.Basic
import HeavyHitters.VoteBucket

/-!
# Elastic sketch

Rows of vote buckets used as an estimator: a key's estimate is the sum of the votes that it holds
as a resident, and whatever the last row gives on is dropped.
-/

namespace HeavyHitters

/-- An elastic sketch. -/
structure VoteSketch where
  rows : List (Row VoteBucket)

namespace VoteSketch

/-- The name in reports and refusals. -/
def title : String := "Elastic"

/-- A sketch in a budget of bytes; each bucket takes three `width`-byte words. -/
def ofBudget (memory width : Nat) (seed : UInt64) : Outcome VoteSketch := do
  let length ← rowLength title memory VoteBucket.rowCount (← sizeTimes 3 width)
  reserveRows VoteBucket.rowCount length 12
  return ⟨table (SeedStream.hashes ⟨seed⟩ VoteBucket.rowCount).1 length VoteBucket.empty⟩

/-- Offers a unit to the rows in turn until one of them takes it in. -/
def carry : List (Row VoteBucket) → Entry → Checked (List (Row VoteBucket))
  | [], _ => .ok []
  | row :: rows, unit => do
    let (row, next) ← row.modify unit.key (·.offer unit)
    match next with
    | none => return row :: rows
    | some passed => return row :: (← carry rows passed)

/-- Offers the weight to the rows. -/
def insert (s : VoteSketch) (key : Key) (weight : Int) : Checked VoteSketch := do
  return ⟨← carry s.rows ⟨key, weight⟩⟩

/-- The votes that the key holds as a resident. -/
def query (s : VoteSketch) (key : Key) : Checked Int := tableWeight s.rows key

/-- The resident keys with their votes added up, by rank. -/
def topK (s : VoteSketch) : Checked (List (Record Key)) := mergeRanked (tableResidents s.rows)

instance : Estimator VoteSketch where
  name _ := title
  insert := insert
  query s key := s.query key
  topK s := s.topK

end VoteSketch

end HeavyHitters
