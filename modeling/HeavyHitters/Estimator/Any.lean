import HeavyHitters.Estimator.CocoSketch
import HeavyHitters.Estimator.Conservative
import HeavyHitters.Estimator.CountMin
import HeavyHitters.Estimator.CountSketch
import HeavyHitters.Estimator.Hierarchy
import HeavyHitters.Estimator.Prepared
import HeavyHitters.Estimator.Sampled
import HeavyHitters.Estimator.TreeSketch
import HeavyHitters.Estimator.UnivMon
import HeavyHitters.Estimator.VoteSketch
import HeavyHitters.Tracker.Any

/-!
# Any estimator

An estimator of a kind that is chosen at run time.  It behaves as the estimator that it holds.
-/

namespace HeavyHitters

/-- The tracker kept at each level of a hierarchy. -/
inductive LevelChoice where
  | spaceSaving
  | funnel
  deriving DecidableEq

/-- A level of a hierarchy in a budget of bytes.  A funnel takes a seed from the stream, a
Space-Saving table none. -/
def LevelChoice.buildLevel (choice : LevelChoice) (memory : Nat) (seeds : SeedStream) :
    Outcome (AnyTracker × SeedStream) :=
  match choice with
  | .spaceSaving => do return (.spaceSaving (← SpaceSaving.ofBudget memory), seeds)
  | .funnel => do
    let (seed, seeds) := seeds.next
    return (.funnel (← Funnel.ofBudget memory seed), seeds)

/-- A hierarchy of such levels, drawn at random or taken in turn. -/
def LevelChoice.hierarchy (choice : LevelChoice) (random : Bool) (memory : Nat) (seed : UInt64) :
    Outcome (Hierarchy AnyTracker Xoshiro) :=
  Hierarchy.ofBudget choice.buildLevel (if random then some Xoshiro.ofSeed else none) memory seed

/-- One of the estimators. -/
inductive AnyEstimator where
  | countMin (estimator : CountMin)
  | countSketch (estimator : CountSketch)
  | conservative (estimator : Conservative)
  | sampled (estimator : Sampled Xoshiro)
  | coco (estimator : CocoSketch Xoshiro)
  | tree (estimator : TreeSketch)
  | heap (estimator : HeapSketch)
  | univMon (estimator : UnivMon)
  | vote (estimator : VoteSketch)
  | hierarchy (estimator : Hierarchy AnyTracker Xoshiro)
  | prepared (estimator : PreparedEstimator)

namespace AnyEstimator

/-- Applies what can be done with every estimator to the one that is held.  The first argument of
the function makes an estimator of the same kind one chosen at run time. -/
def apply {β : Type} (f : {ε : Type} → [Estimator ε] → (ε → AnyEstimator) → ε → β) :
    AnyEstimator → β
  | countMin e => f countMin e
  | countSketch e => f countSketch e
  | conservative e => f conservative e
  | sampled e => f sampled e
  | coco e => f coco e
  | tree e => f tree e
  | heap e => f heap e
  | univMon e => f univMon e
  | vote e => f vote e
  | hierarchy e => f hierarchy e
  | prepared e => f prepared e

instance : Estimator AnyEstimator where
  name := apply fun _ e => Estimator.name e
  owner := apply fun _ e => Estimator.owner e
  insert e key weight := e.apply fun kind e => kind <$> Estimator.insert e key weight
  query e key := e.apply fun _ e => Estimator.query e key
  topK := apply fun _ e => Estimator.topK e
  networkTopK := apply fun _ e => Estimator.networkTopK e

end AnyEstimator

end HeavyHitters
