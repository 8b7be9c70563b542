import HeavyHitters.Cell
import HeavyHitters.Tracker.Basic

/-!
# HashPipe

Six rows of residents.  The first row always takes the new key in and gives on the resident it
displaces; in the other rows the heavier of resident and carried unit stays.
-/

namespace HeavyHitters

/-- The rows of a HashPipe. -/
structure HashPipe where
  rows : List (Row Entry)

namespace HashPipe

/-- The name in reports, refusals and warnings. -/
def title : String := "HashPipe"

/-- The number of rows. -/
def rowCount : Nat := 6

/-- A tracker of rows of eight-byte cells in a budget of bytes. -/
def ofBudget (memory : Nat) (seed : UInt64) : Outcome HashPipe := do
  let length ← rowLength title memory rowCount 8
  reserveRows rowCount length 8
  return ⟨table (SeedStream.hashes ⟨seed⟩ rowCount).1 length Entry.empty⟩

/-- The rule of the first row: a unit of the resident's key is added to it, any other resident makes
room and goes on with its weight. -/
def takeIn (key : Key) (resident : Entry) : Checked (Entry × Option Entry) :=
  if !resident.isEmpty && resident.key == key then do
    return (⟨key, ← Count.plus resident.count 1⟩, none)
  else .ok (⟨key, 1⟩, resident.carried)

/-- Takes a key into the first row and carries on what it displaces. -/
def insertRows (rows : List (Row Entry)) (key : Key) : Checked (List (Row Entry) × Option Entry) :=
  match rows with
  | [] => .ok ([], some ⟨key, 1⟩)
  | first :: rest => do
    let (first, displaced) ← first.modify key (takeIn key)
    match displaced with
    | none => return (first :: rest, none)
    | some unit =>
      let (rest, out) ← cascade (fun row unit => row.modify unit.key (·.keepHeavier unit)) rest unit
      return (first :: rest, out)

/-- Inserts one unit of a key. -/
def insert (t : HashPipe) (key : Key) : Checked (HashPipe × Option Entry) := do
  let (rows, out) ← insertRows t.rows key
  return (⟨rows⟩, out)

instance : Tracker HashPipe where
  name _ := title
  insert := insert
  query t key := tableWeight t.rows key
  residents t := tableResidents t.rows

end HashPipe

end HeavyHitters
