import HeavyHitters.Estimator.Basic
import HeavyHitters.Random
import HeavyHitters.Tracker.Basic

/-!
# Hierarchical heavy hitters

Four levels of growing precision, from the first byte of a key to the whole key, with a tracker at
each.  Every unit of weight goes to just one level, under the part of its key that the level keeps,
so a level sees about a quarter of the stream.  The level is drawn at random or taken in turn.
Units that leave a level's tracker are dropped.

A full key means nothing without a level, so a plain query is refused.
-/

namespace HeavyHitters

/-- How the level of the next unit is chosen. -/
inductive Routing (ρ : Type) where
  /-- Each level with the same probability. -/
  | random (source : ρ)
  /-- One after the other; the next one is given. -/
  | roundRobin (next : Nat)

/-- The trackers of the levels, the coarsest first, and the choice of levels. -/
structure Hierarchy (τ ρ : Type) where
  levels : List τ
  routing : Routing ρ

namespace Hierarchy

variable {τ ρ : Type}

/-- The name in reports and refusals. -/
def title : String := "RHHH"

/-- The part of a key that each level keeps. -/
def masks : List Key := [0xff000000, 0xffff0000, 0xffffff00, 0xffffffff]

/-- The number of levels. -/
def levelCount : Nat := masks.length

/-- Builds `count` trackers, each drawing what seeds it needs. -/
def buildLevels (build : SeedStream → Outcome (τ × SeedStream)) :
    (count : Nat) → SeedStream → Outcome (List τ × SeedStream)
  | 0, seeds => .ok ([], seeds)
  | count + 1, seeds => do
    let (level, seeds) ← build seeds
    let (levels, seeds) ← buildLevels build count seeds
    return (level :: levels, seeds)

/-- A hierarchy in a budget of bytes, a quarter of which goes to each level.  The quarter is
taken in whole numbers; taken in doubles it would be the same below 2 ^ 53 bytes, and rounded
from there on.  The seed that follows those of the levels makes the source of random levels;
without a source they are taken in turn. -/
def ofBudget (build : (memory : Nat) → SeedStream → Outcome (τ × SeedStream))
    (source : Option (UInt64 → ρ)) (memory : Nat) (seed : UInt64) : Outcome (Hierarchy τ ρ) := do
  let (levels, seeds) ← buildLevels (build (memory / levelCount)) levelCount ⟨seed⟩
  return ⟨levels, match source with
    | some source => .random (source seeds.next.1)
    | none => .roundRobin 0⟩

/-- The mask of a level. -/
def mask (level : Nat) : Checked Key :=
  match masks[level]? with
  | some mask => .ok mask
  | none => .error (.outOfBounds levelCount level)

/-- The tracker of a level. -/
def level (h : Hierarchy τ ρ) (level : Nat) : Checked τ :=
  match h.levels[level]? with
  | some tracker => .ok tracker
  | none => .error (.outOfBounds h.levels.length level)

/-- The count of a key's part at a level. -/
def queryLevel [Tracker τ] (h : Hierarchy τ ρ) (key : Key) (level : Nat) : Checked Int := do
  let tracker ← h.level level
  Tracker.query tracker (key &&& (← mask level))

/-- The parts of keys tracked at a level, by rank. -/
def levelTopK [Tracker τ] (h : Hierarchy τ ρ) (level : Nat) : Checked (List (Record Key)) := do
  Tracker.topK (← h.level level)

/-! ## Inserting -/

/-- Chooses the level of the next unit among `count`. -/
def pick [RandomSource ρ] (count : Nat) : Routing ρ → Nat × Routing ρ
  | .random source =>
    let (level, source) := RandomSource.below count source
    (level, .random source)
  | .roundRobin next => (next, .roundRobin ((next + 1) % count))

/-- Inserts a unit into the tracker of a level, under the part of the key that the level's mask
keeps. -/
def insertAt [Tracker τ] (key : Key) :
    (masks : List Key) → List τ → (level : Nat) → Checked (List τ)
  | mask :: _, t :: levels, 0 => do return (← Tracker.insert t (key &&& mask)).1 :: levels
  | _ :: masks, t :: levels, level + 1 => do return t :: (← insertAt key masks levels level)
  | _, levels, _ => .ok levels

/-- Inserts one unit of a key at one level. -/
def insertUnit [Tracker τ] [RandomSource ρ] (h : Hierarchy τ ρ) (key : Key) :
    Checked (Hierarchy τ ρ) := do
  let (level, routing) := pick h.levels.length h.routing
  return ⟨← insertAt key masks h.levels level, routing⟩

/-- Inserts a number of units of a key, each at a level of its own. -/
def insertUnits [Tracker τ] [RandomSource ρ] (key : Key) :
    (units : Nat) → Hierarchy τ ρ → Checked (Hierarchy τ ρ)
  | 0, h => .ok h
  | units + 1, h => do insertUnits key units (← h.insertUnit key)

/-- Inserts as many units as the weight says, none if it is negative. -/
def insert [Tracker τ] [RandomSource ρ] (h : Hierarchy τ ρ) (key : Key) (weight : Int) :
    Checked (Hierarchy τ ρ) :=
  insertUnits key weight.toNat h

instance [Tracker τ] [RandomSource ρ] : Estimator (Hierarchy τ ρ) where
  name _ := title
  insert := insert
  query _ _ := refuse (.unsupported title "query without a level")

end Hierarchy

end HeavyHitters
