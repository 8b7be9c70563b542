import Std.Data.TreeMap
import Std.Data.TreeSet
import HeavyHitters.Memory
import HeavyHitters.Tracker.Basic

/-!
# Space-Saving

A table of counters, at most one for each key, together with the counters in ascending order.  A key
without a counter gets a free one; if there is none, it takes over the least counter and adds one
to it, so a tracked count is never too low.
-/

namespace HeavyHitters

/-- The order of counters: the lesser count first, then the smaller key. -/
def Entry.sizeCompare : Entry → Entry → Ordering :=
  compareLex (compareOn Record.count) (compareOn Record.key)

/-- The counters by key, and the same counters in ascending order. -/
structure SpaceSaving where
  capacity : Nat
  counts : Std.TreeMap Key Int
  order : Std.TreeSet Entry Entry.sizeCompare

namespace SpaceSaving

/-- The name in reports, refusals and warnings. -/
def title : String := "SpaceSaving"

/-- A tracker without keys. -/
def empty (capacity : Nat) : SpaceSaving := ⟨capacity, ∅, ∅⟩

/-- A tracker with one counter for each eight bytes of a budget. -/
def ofBudget (memory : Nat) : Outcome SpaceSaving := do
  if memory / 8 = 0 then
    refuse (.config title s!"{memory} bytes cannot hold a single counter")
  reserveHashTable (memory / 8) 8
  return empty (memory / 8)

/-- The number of keys tracked. -/
def size (t : SpaceSaving) : Nat := t.counts.size

/-- Moves the counter of a key from one value to another. -/
def move : SpaceSaving → Key → (old new : Int) → SpaceSaving
  | ⟨capacity, counts, order⟩, key, old, new =>
    ⟨capacity, counts.insert key new, (order.erase ⟨key, old⟩).insert ⟨key, new⟩⟩

/-- Drops a counter. -/
def drop : SpaceSaving → Entry → SpaceSaving
  | ⟨capacity, counts, order⟩, victim => ⟨capacity, counts.erase victim.key, order.erase victim⟩

/-- Inserts one unit of a key; the counter that the key took over, as it was, if it took one. -/
def insert (t : SpaceSaving) (key : Key) : Checked (SpaceSaving × Option Entry) :=
  match t.counts[key]? with
  | some count => do return (t.move key count (← Count.plus count 1), none)
  | none =>
    if t.counts.size < t.capacity then .ok (t.move key 0 1, none)
    else
      match t.order.min? with
      | none => .ok (t, none)
      | some victim => do
        let count ← Count.plus victim.count 1
        return ((t.drop victim).move key victim.count count, some victim)

/-- The count of a key, 0 if it is not tracked. -/
def query (t : SpaceSaving) (key : Key) : Int := t.counts.getD key 0

/-- The counters in ascending order. -/
def residents (t : SpaceSaving) : List Entry := t.order.toList

instance : Tracker SpaceSaving where
  name _ := title
  insert := insert
  query t key := .ok (t.query key)
  residents := residents

end SpaceSaving

end HeavyHitters
