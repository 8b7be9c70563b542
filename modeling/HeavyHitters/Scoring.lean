import HeavyHitters.Estimator.Hierarchy
import HeavyHitters.Relay
import HeavyHitters.Score
import HeavyHitters.Trace

/-!
# Scoring

Scores a structure that a trace was fed to against the trace's exact rankings, cut to the `k`
heaviest entries.  Scoring over networks asks for the networks, so an observed structure is handed
back with its scorecard.
-/

namespace HeavyHitters

/-- The score of estimates, and of a report if there is one, against the `k` heaviest true
records. -/
def score {κ : Type} [Ord κ] (truth : List (Record κ)) (k : Nat) (estimate : κ → Outcome Int)
    (reported : Option (List (Record κ))) : Outcome Score := do
  let truth := truth.take k
  let errors ← meanErrors truth estimate
  return ⟨truth.length, errors, reported.map fun reported => (Hits.count truth reported).shares⟩

/-! ## Estimators -/

/-- The networks that an estimator reports, or nothing if it cannot enumerate networks, and the
estimator that has been asked. -/
def reportedNetworks {ε : Type} [Estimator ε] (e : ObservedEstimator ε) :
    Outcome (Option (List (Record Network)) × ObservedEstimator ε) := do
  match ← supported (ObservedEstimator.networkTopK e) with
  | some (reported, e) => return (some reported, e)
  | none => return (none, e)

/-- The count of each key in a report, the last one if a key is reported again. -/
def reportedCounts {κ : Type} [Ord κ] (reported : List (Record κ)) : Tally κ :=
  reported.foldl (fun counts record => counts.insert record.key record.count) ∅

/-- Scores an estimator: its estimates of the `k` heaviest flows, and its ranking if it has one; the
same of networks if it enumerates them, each network estimated by its count in the report. -/
def scoreEstimator {ε : Type} [Estimator ε] (e : ObservedEstimator ε) (trace : Trace) (k : Nat) :
    Outcome (Scorecard × ObservedEstimator ε) := do
  let reported ← supported (Estimator.topK e)
  let flows ← score trace.ranking k (Estimator.query e) reported
  let (reported, e) ← reportedNetworks e
  match reported with
  | none => return (⟨Estimator.name e, flows, none⟩, e)
  | some reported =>
    let counts := reportedCounts reported
    let networks ← score (← trace.networkRanking) k
      (fun network => .ok (Tally.count counts network)) (some reported)
    return (⟨Estimator.name e, flows, some networks⟩, e)

/-! ## Trackers -/

/-- By how much a tracker undercounts the keys it tracks, in sum. -/
def undercount {τ : Type} [Tracker τ] (t : τ) (trace : Trace) : Checked Int := do
  let gaps ← (← Tracker.topK t).mapM fun record =>
    Count.minus (trace.exactCount record.key) record.count
  return gaps.foldr (· + ·) 0

/-- Scores a tracker over flows and networks. -/
def scoreTracker {τ : Type} [Tracker τ] (t : ObservedTracker τ) (trace : Trace) (k : Nat) :
    Outcome (TrackerScorecard × ObservedTracker τ) := do
  let reported ← Tracker.topK t
  let flows ← score trace.ranking k (fun key => Tracker.query t key) (some reported)
  let truth ← trace.networkRanking
  let (tally, t) ← ObservedTracker.networkTally t
  let networks ← score truth k (fun network => .ok (Tally.count tally network))
    (some (Tally.ranking tally))
  let card : Scorecard := ⟨Tracker.name t, flows, some networks⟩
  return (⟨card, reported.length, ← undercount t trace, Tracker.diagnostics t⟩, t)

/-! ## Relays and hierarchies -/

/-- Scores a tracker in front of an estimator over flows. -/
def scoreRelay {τ ε : Type} [Tracker τ] [Estimator ε] (r : Relay τ ε) (trace : Trace) (k : Nat) :
    Outcome Scorecard := do
  let reported ← r.topK
  return ⟨r.name, ← score trace.ranking k r.query (some reported), none⟩

/-- Scores one level of a hierarchy over the parts of keys that it keeps. -/
def scoreLevel {τ ρ : Type} [Tracker τ] (h : Hierarchy τ ρ) (trace : Trace) (k level : Nat) :
    Outcome LevelScore := do
  let mask ← Hierarchy.mask level
  let truth ← trace.maskedRanking mask
  let reported ← h.levelTopK level
  return ⟨level, mask, ← score truth k (fun key => h.queryLevel key level) (some reported)⟩

/-- Scores the levels of a hierarchy one by one. -/
def scoreHierarchy {τ ρ : Type} [Tracker τ] (h : Hierarchy τ ρ) (trace : Trace) (k : Nat) :
    Outcome (List LevelScore) :=
  (List.range h.levels.length).mapM (scoreLevel h trace k)

end HeavyHitters
