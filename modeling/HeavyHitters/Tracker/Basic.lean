import HeavyHitters.Observed
import HeavyHitters.Tally

/-!
# Trackers

A tracker takes one packet's key at a time and keeps the heavy keys in a small space.  An insert
tells which unit of weight, if any, had to leave, so that an estimator behind the tracker can
absorb it.

The weight by network is asked of an observed tracker, which keeps the first answer.
-/

namespace HeavyHitters

/-- What every tracker offers. -/
class Tracker (τ : Type) where
  /-- The name in reports. -/
  name : τ → String
  /-- The name in warnings, if the tracker raises any. -/
  owner : τ → Option String := fun t => some (name t)
  /-- Inserts one unit of a key; the unit that is carried out, if one is. -/
  insert : τ → Key → Checked (τ × Option Entry)
  /-- The weight of a key over all its residents, 0 if it has none. -/
  query : τ → Key → Checked Int
  /-- All residents. -/
  residents : τ → List Entry
  /-- The weight of the residents by network. -/
  networks : τ → Checked (Tally Network) := fun t => networkTally (residents t)
  /-- Counters of its own that a tracker reports next to its score. -/
  diagnostics : τ → List (String × Nat) := fun _ => []

namespace Tracker

variable {τ : Type} [Tracker τ]

/-- The resident keys with their weight added up, by rank. -/
def topK (t : τ) : Checked (List (Record Key)) := mergeRanked (residents t)

/-- Inserts keys in order; what each insert carried out. -/
def insertAll (t : τ) : List Key → Checked (τ × List (Option Entry))
  | [] => .ok (t, [])
  | key :: keys => do
    let (t, out) ← insert t key
    let (t, outs) ← insertAll t keys
    return (t, out :: outs)

/-- Inserts keys in order and drops what is carried out. -/
def feed (t : τ) (keys : List Key) : Checked τ :=
  keys.foldlM (fun t key => Prod.fst <$> insert t key) t

/-- Feeding is inserting without regard to what is carried out. -/
theorem feed_eq (t : τ) (keys : List Key) : feed t keys = Prod.fst <$> insertAll t keys := by
  induction keys generalizing t with
  | nil => rfl
  | cons key keys ih =>
    rw [feed, List.foldlM_cons, insertAll]
    cases h : insert t key with
    | error e => rfl
    | ok r =>
      have := ih r.1
      rw [feed] at this
      simp only [Functor.map, Except.map, bind, Except.bind] at this ⊢
      rw [this]
      cases insertAll r.1 keys <;> rfl

end Tracker

/-! ## Observed trackers -/

/-- A tracker of which the weight by network may have been asked. -/
abbrev ObservedTracker (τ : Type) := Observed τ (Tally Network)

namespace ObservedTracker

variable {τ : Type} [Tracker τ]

instance : Tracker (ObservedTracker τ) where
  name t := Tracker.name t.state
  owner t := Tracker.owner t.state
  insert t key := t.run (Tracker.insert · key)
  query t key := Tracker.query t.state key
  residents t := Tracker.residents t.state
  networks t := Tracker.networks t.state
  diagnostics t := Tracker.diagnostics t.state

/-- The owner of the warning that the next insert raises, if it raises one. -/
def warning (t : ObservedTracker τ) : Option String :=
  if t.isPending then Tracker.owner t.state else none

/-- The weight of the residents by network, as of the first request. -/
def networkTally (t : ObservedTracker τ) : Checked (Tally Network × ObservedTracker τ) :=
  t.ask Tracker.networks

/-- The weight of a network, as of the first request. -/
def queryNetwork (t : ObservedTracker τ) (network : Network) :
    Checked (Int × ObservedTracker τ) := do
  let (tally, t) ← networkTally t
  return (Tally.count tally network, t)

/-- The networks by rank, as of the first request. -/
def networkTopK (t : ObservedTracker τ) : Checked (List (Record Network) × ObservedTracker τ) := do
  let (tally, t) ← networkTally t
  return (Tally.ranking tally, t)

end ObservedTracker

end HeavyHitters
