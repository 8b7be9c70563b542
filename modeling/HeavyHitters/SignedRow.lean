import HeavyHitters.Row

/-!
# Signed rows

A row of counters in which every key counts with a sign of its own.  Keys that share a counter
cancel out on average; multiplying the counter by the key's sign again gives the key's estimate in
this row.
-/

namespace HeavyHitters

/-- A row of counters and the function that gives each key its sign. -/
structure SignedRow where
  row : Row Int
  signs : KeyHash

namespace SignedRow

/-- Adds signed weight to the key's counter. -/
def add (r : SignedRow) (key : Key) (weight : Int) : Checked SignedRow := do
  let row ← r.row.update key fun counter => do
    Count.plus counter (← Count.times weight (r.signs.sign key))
  return { r with row }

/-- The key's counter with the sign taken off. -/
def estimate (r : SignedRow) (key : Key) : Checked Int := do
  Count.times (← r.row.get key) (r.signs.sign key)

/-- A table of signed rows: the seed stream gives the hash functions of all rows and then the sign
functions. -/
def table (rows length : Nat) (seeds : SeedStream) : List SignedRow × SeedStream :=
  let (hashes, seeds) := seeds.hashes rows
  let (signs, seeds) := seeds.hashes rows
  ((hashes.zip signs).map fun (hash, signs) => ⟨Row.fill length 0 hash, signs⟩, seeds)

theorem length_table (rows length : Nat) (seeds : SeedStream) :
    (table rows length seeds).1.length = rows := by
  simp [table, SeedStream.length_hashes]

end SignedRow

end HeavyHitters
