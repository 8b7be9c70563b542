import HeavyHitters.Estimator.Basic
import HeavyHitters.Tracker.Basic

/-!
# Relays

A tracker in front of an estimator.  Every packet goes to the tracker; the unit that the tracker
carries out, if any, goes on to the estimator with its weight.  A key is estimated by the sum of
what both hold of it.
-/

namespace HeavyHitters

/-- A tracker, the estimator behind it, and the weight forwarded so far. -/
structure Relay (τ ε : Type) where
  tracker : τ
  estimator : ε
  forwarded : Int

namespace Relay

variable {τ ε : Type} [Tracker τ] [Estimator ε]

/-- A tracker in front of an estimator. -/
def ofParts (tracker : τ) (estimator : ε) : Relay τ ε := ⟨tracker, estimator, 0⟩

/-- Both names. -/
def name (r : Relay τ ε) : String := Tracker.name r.tracker ++ "+" ++ Estimator.name r.estimator

/-- Inserts one unit of a key and forwards what is carried out. -/
def insert : Relay τ ε → Key → Checked (Relay τ ε)
  | ⟨tracker, estimator, forwarded⟩, key => do
    let (tracker, out) ← Tracker.insert tracker key
    match out with
    | none => return ⟨tracker, estimator, forwarded⟩
    | some unit =>
      return ⟨tracker, ← Estimator.insert estimator unit.key unit.count, forwarded + unit.count⟩

/-- The sum of both estimates of a key. -/
def query (r : Relay τ ε) (key : Key) : Outcome Int := do
  let tracked ← Tracker.query r.tracker key
  Count.plus tracked (← Estimator.query r.estimator key)

/-- The keys of both added up, by rank.  An estimator that cannot enumerate its keys adds none. -/
def topK (r : Relay τ ε) : Outcome (List (Record Key)) := do
  let tracked ← Tracker.topK r.tracker
  let estimated ← supported (Estimator.topK r.estimator)
  mergeRanked (tracked ++ estimated.getD [])

/-- Inserts keys in order. -/
def feed (r : Relay τ ε) (keys : List Key) : Checked (Relay τ ε) := keys.foldlM insert r

end Relay

/-! ## Observed relays -/

/-- A relay of which the parts may have been asked for their networks. -/
abbrev ObservedRelay (τ ε : Type) := Relay (ObservedTracker τ) (ObservedEstimator ε)

namespace ObservedRelay

variable {τ ε : Type} [Tracker τ] [Estimator ε]

/-- Inserts one unit of a key, and tells the owners of the warnings that this raises: the tracker,
and the estimator if the tracker carries a unit out. -/
def insertNoting : ObservedRelay τ ε → Key → List String × Checked (ObservedRelay τ ε)
  | ⟨tracker, estimator, forwarded⟩, key =>
    let ofTracker := (ObservedTracker.warning tracker).toList
    match Tracker.insert tracker key with
    | .error fault => (ofTracker, .error fault)
    | .ok (tracker, none) => (ofTracker, .ok ⟨tracker, estimator, forwarded⟩)
    | .ok (tracker, some unit) =>
      let ofEstimator := (ObservedEstimator.warning estimator).toList
      (ofTracker ++ ofEstimator,
        (⟨tracker, ·, forwarded + unit.count⟩) <$> Estimator.insert estimator unit.key unit.count)

/-- Inserts keys in order and notes the warnings raised on the way, after those noted before; a
fault ends the run but keeps them. -/
def feedNoting (noted : List String) (r : ObservedRelay τ ε) :
    List Key → List String × Checked (ObservedRelay τ ε)
  | [] => (noted, .ok r)
  | key :: keys =>
    match insertNoting r key with
    | (raised, .error fault) => (noted ++ raised, .error fault)
    | (raised, .ok r) => feedNoting (noted ++ raised) r keys

end ObservedRelay

end HeavyHitters
