import HeavyHitters.Cell
import HeavyHitters.Estimator.Basic
import HeavyHitters.Random

/-!
# Coco sketch

Each bucket of each row keeps one key and the weight of everything that was inserted there.  An
insert adds its weight and takes the bucket over with probability weight over new count, so the
key of a bucket is a fair sample of the bucket's traffic.  A key, or a network, is estimated by the
median over the rows of the counts that its residents hold there.
-/

namespace HeavyHitters

/-- A Coco sketch with the source of its coins. -/
structure CocoSketch (ρ : Type) where
  rows : List (Row Entry)
  source : ρ

namespace CocoSketch

variable {ρ : Type}

/-- The name in reports, refusals and warnings. -/
def title : String := "Coco"

/-- A sketch of `rows` rows of eight-byte buckets in a budget of bytes.  The seed that follows those
of the rows makes the source. -/
def ofBudget (source : UInt64 → ρ) (memory rows : Nat) (seed : UInt64) :
    Outcome (CocoSketch ρ) := do
  let length ← rowLength title memory rows 8
  reserveRows rows length 8
  let (hashes, seeds) := SeedStream.hashes ⟨seed⟩ rows
  return ⟨table hashes length Entry.empty, source seeds.next.1⟩

/-- The number of rows. -/
def height (s : CocoSketch ρ) : Nat := s.rows.length

/-- Whether a draw lets a key take over a bucket that its weight brings to a count.  The share of
the key in the count decides; a key that all of the count is due to takes over whatever the draw,
unless it has no weight at all. -/
def takesOver (weight count : Int) (draw : Float) : Bool :=
  if weight = count then weight ≠ 0 else draw < Float.ofInt weight / Float.ofInt count

/-- Adds weight to a bucket, which the key may take over. -/
def absorb (key : Key) (weight : Int) (draw : Float) (bucket : Entry) : Checked Entry := do
  let count ← Count.plus bucket.count weight
  return ⟨if takesOver weight count draw then key else bucket.key, count⟩

/-- Adds weight to the key's bucket of each row, drawing once for each. -/
def absorbAll [RandomSource ρ] (key : Key) (weight : Int) :
    List (Row Entry) → ρ → Checked (List (Row Entry) × ρ)
  | [], source => .ok ([], source)
  | row :: rows, source => do
    let (draw, source) := RandomSource.fraction source
    let row ← row.update key (absorb key weight draw)
    let (rows, source) ← absorbAll key weight rows source
    return (row :: rows, source)

/-- Adds weight to the key's buckets. -/
def insert [RandomSource ρ] : CocoSketch ρ → Key → Int → Checked (CocoSketch ρ)
  | ⟨rows, source⟩, key, weight => do
    let (rows, source) ← absorbAll key weight rows source
    return ⟨rows, source⟩

/-- The median of the key's counts in the rows. -/
def query (s : CocoSketch ρ) (key : Key) : Checked Int := do
  return Count.median (← s.rows.mapM (·.weight key))

/-- The median of the sums that each key has in the tallies, for every key that is in one. -/
def medians {κ : Type} [Ord κ] (tallies : List (Tally κ)) : Tally κ :=
  (tallies.flatMap (·.keys)).foldl
    (fun merged key =>
      if merged.contains key then merged
      else merged.insert key (Count.median (tallies.map (·.count key)))) ∅

/-- The estimates of all groups of keys that have a resident, under a grouping of the keys. -/
def estimates {κ : Type} [Ord κ] (s : CocoSketch ρ) (group : Key → κ) :
    Checked (Tally κ) := do
  let tallies ← s.rows.mapM fun row =>
    Tally.ofRecords (row.residents.map fun r => ⟨group r.key, r.count⟩)
  return medians tallies

/-- The estimates of all resident keys, by rank. -/
def topK (s : CocoSketch ρ) : Checked (List (Record Key)) := Tally.ranking <$> s.estimates id

/-- The estimates of all networks with a resident, by rank. -/
def networkTopK (s : CocoSketch ρ) : Checked (List (Record Network)) :=
  Tally.ranking <$> s.estimates networkOf

instance [RandomSource ρ] : Estimator (CocoSketch ρ) where
  name _ := title
  owner _ := some title
  insert := insert
  query s key := s.query key
  topK s := s.topK
  networkTopK s := s.networkTopK

end CocoSketch

end HeavyHitters
