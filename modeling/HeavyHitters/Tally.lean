import Std.Data.TreeMap
import HeavyHitters.Count
import HeavyHitters.Flow

/-!
# Tallies

A tally adds up records key by key and lists the sums by ascending key.  It is what a ranking is
made from: the records of a tally have pairwise distinct keys, so ranking them gives each key one
place.
-/

namespace HeavyHitters

/-- Sums of counts by key, in ascending order of the keys. -/
abbrev Tally (κ : Type) [Ord κ] := Std.TreeMap κ Int

namespace Tally

variable {κ : Type} [Ord κ]

/-- The sum of a key, 0 for a key that no record had. -/
def count (t : Tally κ) (key : κ) : Int := t.getD key 0

/-- Adds a record to the sum of its key. -/
def add (t : Tally κ) (r : Record κ) : Checked (Tally κ) := do
  return t.insert r.key (← Count.plus (t.count r.key) r.count)

/-- The tally of records, added from left to right. -/
def ofRecords (records : List (Record κ)) : Checked (Tally κ) := records.foldlM add ∅

/-- One record for each key of the tally, by ascending key. -/
def records (t : Tally κ) : List (Record κ) := t.toList.map fun (key, count) => ⟨key, count⟩

/-- One record for each key of the tally, by rank. -/
def ranking (t : Tally κ) : List (Record κ) := rank t.records

end Tally

/-- The records of the same key added up, by rank. -/
def mergeRanked {κ : Type} [Ord κ] (records : List (Record κ)) : Checked (List (Record κ)) :=
  Tally.ranking <$> Tally.ofRecords records

/-- The sums of flow records by network. -/
def networkTally (records : List (Record Key)) : Checked (Tally Network) :=
  Tally.ofRecords (records.map fun r => ⟨networkOf r.key, r.count⟩)

end HeavyHitters
