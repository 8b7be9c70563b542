import HeavyHitters.Estimator.HeapSketch

/-!
# Universal monitoring

A ladder of count sketches with heaps.  Every key enters the first level, and each further level
for as long as the low bits of its sampling hash are ones, so each level sees about half the keys
of the one before.  An estimate is combined from the deepest level of the key upward; a key that
several levels report is listed with the count of the deepest.
-/

namespace HeavyHitters

/-- The levels of the ladder, the one that sees all keys first, and the hash that samples. -/
structure UnivMon where
  levels : List HeapSketch
  sampler : KeyHash

namespace UnivMon

/-- The name in reports. -/
def title : String := "Univmon"

/-- The number of levels. -/
def levelCount : Nat := 6

/-- The rows of each level. -/
def rowsPerLevel : Nat := 3

/-- The levels numbered from `level` on, of which `count` are to come.  Each gets half the budget of
the one before and a seed of its own. -/
def buildLevels (memory width : Nat) : (level count : Nat) → SeedStream →
    Outcome (List HeapSketch × SeedStream)
  | _, 0, seeds => .ok ([], seeds)
  | level, count + 1, seeds => do
    let (seed, seeds) := seeds.next
    let first ← HeapSketch.ofBudget (memory >>> (level + 1)) rowsPerLevel width seed
    let (rest, seeds) ← buildLevels memory width (level + 1) count seeds
    return (first :: rest, seeds)

/-- A ladder in a budget of bytes, with `width`-byte counters. -/
def ofBudget (memory width : Nat) (seed : UInt64) : Outcome UnivMon := do
  let (levels, seeds) ← buildLevels memory width 0 levelCount ⟨seed⟩
  return ⟨levels, KeyHash.ofSeed seeds.next.1⟩

/-- The number of low bits of a word that are ones, counted up to a limit. -/
def trailingOnes (word : UInt64) : (limit : Nat) → Nat
  | 0 => 0
  | limit + 1 => if word &&& 1 = 1 then trailingOnes (word >>> 1) limit + 1 else 0

/-- The number of levels that a key enters, at least one. -/
def depth (s : UnivMon) (key : Key) : Nat :=
  1 + trailingOnes (s.sampler.hash key) (levelCount - 1)

/-- Inserts into the levels down to a depth. -/
def insertTo (key : Key) (weight : Int) :
    (depth : Nat) → List HeapSketch → Checked (List HeapSketch)
  | 0, levels => .ok levels
  | _, [] => .ok []
  | depth + 1, level :: levels => do
    return (← level.insert key weight) :: (← insertTo key weight depth levels)

/-- Inserts into the levels that the key enters. -/
def insert (s : UnivMon) (key : Key) (weight : Int) : Checked UnivMon := do
  return { s with levels := ← insertTo key weight (s.depth key) s.levels }

/-- Combines the counts of the levels, the deepest last: twice the estimate from below less the
count of the level itself. -/
def combine : List Int → Checked Int
  | [] => .ok 0
  | [deepest] => .ok deepest
  | count :: deeper => do Count.minus (← Count.times 2 (← combine deeper)) count

/-- The combined estimate of the levels that the key enters. -/
def query (s : UnivMon) (key : Key) : Checked Int :=
  combine ((s.levels.take (s.depth key)).map (·.query key))

/-- Every key that a level reports, with the count of the deepest such level, by rank. -/
def topK (s : UnivMon) : List (Record Key) :=
  Tally.ranking ((s.levels.flatMap (·.topK)).foldl
    (fun merged (record : Record Key) => merged.insert record.key record.count)
    (∅ : Tally Key))

theorem one_le_depth (s : UnivMon) (key : Key) : 1 ≤ s.depth key := Nat.le_add_right _ _

theorem trailingOnes_le (word : UInt64) (limit : Nat) : trailingOnes word limit ≤ limit := by
  induction limit generalizing word with
  | zero => exact Nat.le_refl _
  | succ limit ih =>
    unfold trailingOnes
    split
    · exact Nat.succ_le_succ (ih _)
    · exact Nat.zero_le _

theorem depth_le (s : UnivMon) (key : Key) : s.depth key ≤ levelCount := by
  have := trailingOnes_le (s.sampler.hash key) (levelCount - 1)
  unfold depth levelCount at *
  omega

instance : Estimator UnivMon where
  name _ := title
  insert := insert
  query s key := s.query key
  topK s := .ok s.topK

end UnivMon

end HeavyHitters
