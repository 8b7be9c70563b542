import HeavyHitters.Decimal.Shortest
import HeavyHitters.Estimator.Basic
import HeavyHitters.Random
import HeavyHitters.Row
import HeavyHitters.SamplingRate

/-!
# Count-min on samples

Rows of counters of which an insert updates each with a fixed probability, by a coin of its own.
The median of the key's counters divided by that probability is the estimate.  At a rate of 1 the
rows are those of a count-min sketch.
-/

namespace HeavyHitters

/-- A sampled count-min sketch with the source of its coins. -/
structure Sampled (ρ : Type) where
  rate : SamplingRate
  rows : List (Row Int)
  source : ρ

namespace Sampled

variable {ρ : Type}

/-- The name in reports and refusals. -/
def title : String := "NitroCM"

/-- A sketch of `rows` rows of `width`-byte counters in a budget of bytes, sampling at a rate.  The
seed that follows those of the rows makes the source. -/
def ofBudget (source : UInt64 → ρ) (memory : Nat) (rate : Float) (rows width : Nat)
    (seed : UInt64) : Outcome (Sampled ρ) :=
  match SamplingRate.ofFloat? rate with
  | none => refuse (.config title ("sample rate " ++ Decimal.shortest rate ++ " is outside (0, 1]"))
  | some rate => do
    let length ← rowLength title memory rows width
    reserveRows rows length Count.width
    let (hashes, seeds) := SeedStream.hashes ⟨seed⟩ rows
    return ⟨rate, table hashes length 0, source seeds.next.1⟩

/-- The number of rows. -/
def height (s : Sampled ρ) : Nat := s.rows.length

/-- Draws once for each row and adds the weight to the key's counter where the rate selects the
draw. -/
def addSampled [RandomSource ρ] (rate : SamplingRate) (key : Key) (weight : Int) :
    List (Row Int) → ρ → Checked (List (Row Int) × ρ)
  | [], source => .ok ([], source)
  | row :: rows, source => do
    let (draw, source) := RandomSource.significand source
    let row ← if rate.selects draw then row.update key (Count.plus · weight) else .ok row
    let (rows, source) ← addSampled rate key weight rows source
    return (row :: rows, source)

/-- Adds the weight to the key's counter of each row that is selected. -/
def insert [RandomSource ρ] : Sampled ρ → Key → Int → Checked (Sampled ρ)
  | ⟨rate, rows, source⟩, key, weight => do
    let (rows, source) ← addSampled rate key weight rows source
    return ⟨rate, rows, source⟩

/-- The median of sampled counts scaled up, as far as it fits a counter.  The sum of two middle
counts is divided by two and by the rate at once, so it keeps its half until then. -/
def scaledMedian (rate : SamplingRate) (counts : List Int) : Int :=
  let ordered := Count.sorted counts
  let half := ordered.length / 2
  let upper := ordered.getD half 0
  Count.clamp <|
    if ordered.length % 2 = 1 then rate.scaleUp upper 1
    else rate.scaleUp (ordered.getD (half - 1) 0 + upper) 2

/-- The median of the key's counters scaled up. -/
def query (s : Sampled ρ) (key : Key) : Checked Int := do
  return scaledMedian s.rate (← s.rows.mapM (·.get key))

instance [RandomSource ρ] : Estimator (Sampled ρ) where
  name _ := title
  insert := insert
  query s key := s.query key

end Sampled

end HeavyHitters
