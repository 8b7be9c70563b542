import HeavyHitters.CommandLine.Options
import HeavyHitters.Scoring
import HeavyHitters.FeedRate

/-!
# Benchmark

A run scores, on one trace, the tracker; each estimator alone and behind a tracker of its own; and,
if asked for, a hierarchy.  Every structure gets the next seed of one stream.

A run needs a clock and a place to print to, and is written for any monad that has them.  The lines
printed before a failure stand.
-/

namespace HeavyHitters

/-- A line that a run prints. -/
inductive Line where
  /-- The trace was fed to a structure; the weight forwarded is told of a relay. -/
  | fed (subject : String) (rate : FeedRate) (forwarded : Option Int)
  /-- The text of a score. -/
  | scored (score : String)

/-- The text of a line. -/
def Line.text : Line → String
  | .fed subject rate forwarded =>
    subject ++ " insert: " ++ rate.text
      ++ match forwarded with
        | some weight => s!" forwarded={weight}"
        | none => ""
  | .scored score => score

/-- What a run needs from its surroundings. -/
structure Console (m : Type → Type) where
  /-- Computes a value and measures the time. -/
  timed : {α : Type} → (Unit → α) → m (α × Duration)
  /-- Prints a line. -/
  print : Line → m Unit

namespace Options

variable {m : Type → Type} [Monad m]

/-- A computation that needs neither the clock nor the output. -/
def lift {α : Type} (outcome : Outcome α) : ExceptT Failure m α := ExceptT.mk (pure outcome)

/-- Feeds the trace to a structure and measures the time. -/
def measure {α : Type} (console : Console m) (trace : Trace) (feed : List Key → Checked α) :
    ExceptT Failure m (α × FeedRate) := do
  let (fed, elapsed) ← ExceptT.lift (console.timed fun _ => feed trace.keys.toList)
  return (← lift (Outcome.ofChecked fed), ⟨trace.packets, elapsed⟩)

/-- Feeds a tracker and scores it. -/
def runTracker (console : Console m) (o : Options) (trace : Trace) (seed : UInt64) :
    ExceptT Failure m Unit := do
  let tracker ← lift (o.tracker.build o.memory seed)
  let (tracker, rate) ← measure console trace (Tracker.feed tracker)
  console.print (.fed (Tracker.name tracker) rate none)
  let (card, _) ← lift (scoreTracker (Observed.fresh tracker) trace o.k)
  console.print (.scored card.text)

/-- The bytes of a counter of an estimator on its own. -/
def aloneWidth : Nat := 4

/-- The bytes of a counter of an estimator behind a tracker, which sees less traffic. -/
def relayedWidth : Nat := 2

/-- Feeds an estimator on its own, with twice the budget, and scores it. -/
def runEstimator (console : Console m) (o : Options) (trace : Trace) (kind : EstimatorChoice)
    (seed : UInt64) : ExceptT Failure m Unit := do
  let memory ← lift (Outcome.ofChecked (sizeTimes o.memory 2))
  let estimator ← lift (o.buildEstimator kind memory aloneWidth seed)
  let (estimator, rate) ← measure console trace (Estimator.feed estimator)
  console.print (.fed (Estimator.name estimator) rate none)
  let (card, _) ← lift (scoreEstimator (Observed.fresh estimator) trace o.k)
  console.print (.scored card.text)

/-- Feeds an estimator behind a tracker and scores the two together. -/
def runRelay (console : Console m) (o : Options) (trace : Trace) (kind : EstimatorChoice)
    (trackerSeed estimatorSeed : UInt64) : ExceptT Failure m Unit := do
  let tracker ← lift (o.tracker.build o.memory trackerSeed)
  let estimator ← lift (o.buildEstimator kind o.memory relayedWidth estimatorSeed)
  let (relay, rate) ← measure console trace (Relay.ofParts tracker estimator).feed
  console.print (.fed relay.name rate (some relay.forwarded))
  let card ← lift (scoreRelay relay trace o.k)
  console.print (.scored card.text)

/-- Feeds a hierarchy and scores each of its levels. -/
def runHierarchy (console : Console m) (o : Options) (trace : Trace) (level : LevelChoice)
    (seed : UInt64) : ExceptT Failure m Unit := do
  let hierarchy ← lift (level.hierarchy (!o.roundRobin) o.memory seed)
  let (hierarchy, rate) ← measure console trace (Estimator.feed hierarchy)
  console.print (.fed Hierarchy.title rate none)
  let scores ← lift (scoreHierarchy hierarchy trace o.k)
  for score in scores do
    console.print (.scored (Hierarchy.title ++ " " ++ score.text))

/-- Scores each estimator alone and behind a tracker; the seeds that are left. -/
def runEstimators (console : Console m) (o : Options) (trace : Trace) :
    List EstimatorChoice → SeedStream → ExceptT Failure m SeedStream
  | [], seeds => return seeds
  | kind :: kinds, seeds => do
    let (alone, seeds) := seeds.next
    runEstimator console o trace kind alone
    let (ahead, seeds) := seeds.next
    let (behind, seeds) := seeds.next
    runRelay console o trace kind ahead behind
    runEstimators console o trace kinds seeds

/-- Runs the benchmark on the opened trace file, or on the reason why it cannot be opened. -/
def run (console : Console m) (o : Options) (opened : Except SystemError OpenFile) :
    ExceptT Failure m Unit := do
  let trace ← lift (Trace.ofFile o.path opened o.recordSize)
  let (seed, seeds) := SeedStream.next ⟨o.seed⟩
  runTracker console o trace seed
  let seeds ← runEstimators console o trace o.estimators seeds
  match o.hierarchy with
  | none => return
  | some level => runHierarchy console o trace level seeds.next.1

end Options

end HeavyHitters
