import HeavyHitters.Tracker.Basic
import HeavyHitters.VoteBucket

/-!
# Vote tracker

The heavy part of an elastic sketch used as a tracker: a resident weighs its own votes, and a
displaced key leaves with weight one.  The newcomer inherits the votes of the bucket it takes over,
so each takeover adds one unit of weight; the takeovers are counted, so that the weight that is
resident or was carried out equals the weight inserted plus the takeovers.
-/

namespace HeavyHitters

/-- The rows of vote buckets and the takeovers so far. -/
structure VoteTracker where
  rows : List (Row VoteBucket)
  takeovers : Nat

namespace VoteTracker

/-- The name in reports. -/
def title : String := "Elastic"

/-- The name in refusals and warnings. -/
def owner : String := "ElasticTracker"

/-- A tracker of rows of twelve-byte buckets in a budget of bytes. -/
def ofBudget (memory : Nat) (seed : UInt64) : Outcome VoteTracker := do
  let length ← rowLength owner memory VoteBucket.rowCount 12
  reserveRows VoteBucket.rowCount length 12
  return ⟨table (SeedStream.hashes ⟨seed⟩ VoteBucket.rowCount).1 length VoteBucket.empty, 0⟩

/-- Inserts one unit of a key. -/
def insert : VoteTracker → Key → Checked (VoteTracker × Option Entry)
  | ⟨rows, takeovers⟩, key => do
    let (rows, out, more) ← VoteBucket.offerAll rows ⟨key, 1⟩
    return (⟨rows, takeovers + more⟩, out)

instance : Tracker VoteTracker where
  name _ := title
  owner _ := some owner
  insert := insert
  query t key := tableWeight t.rows key
  residents t := tableResidents t.rows
  diagnostics t := [("swaps", t.takeovers)]

end VoteTracker

end HeavyHitters
