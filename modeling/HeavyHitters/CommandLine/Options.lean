import HeavyHitters.Trace
import HeavyHitters.Estimator.Any

/-!
# Options of the benchmark

What a run of the benchmark needs to know: the trace and its record size, the budget, the structures
to score and their parameters.  The kinds of structures are named by words on the command line and
built here from a budget and a seed.
-/

namespace HeavyHitters

/-- The estimators that can be scored. -/
inductive EstimatorChoice where
  | countMin
  | countSketch
  | conservative
  | sampled
  | coco
  | tree
  | heap
  | univMon
  | vote
  deriving DecidableEq

/-- The estimators and the words that name them. -/
def EstimatorChoice.words : List (String × EstimatorChoice) :=
  [("cm", .countMin), ("count", .countSketch), ("half-cu", .conservative), ("nitro-cm", .sampled),
    ("coco", .coco), ("fcm", .tree), ("count-heap", .heap), ("univmon", .univMon),
    ("elastic", .vote)]

/-- The trackers that can be scored. -/
inductive TrackerChoice where
  | hashPipe
  | vote
  | precision
  | funnel
  | spaceSaving
  deriving DecidableEq

/-- The trackers and the words that name them. -/
def TrackerChoice.words : List (String × TrackerChoice) :=
  [("hash-pipe", .hashPipe), ("elastic", .vote), ("precision", .precision), ("p4", .funnel),
    ("space-saving", .spaceSaving)]

/-- The trackers that the levels of a hierarchy can have, and the words that name them. -/
def LevelChoice.words : List (String × LevelChoice) :=
  [("space-saving", .spaceSaving), ("p4", .funnel)]

/-- The options of a run. -/
structure Options where
  /-- The path of the trace file. -/
  path : String
  /-- The bytes of each record of the trace. -/
  recordSize : Nat
  /-- The budget in bytes; an estimator on its own gets twice as much. -/
  memory : Nat
  /-- The number of heaviest flows that are scored. -/
  k : Nat
  /-- The base of all seeds. -/
  seed : UInt64
  /-- The estimators, scored alone and behind the tracker. -/
  estimators : List EstimatorChoice
  /-- The tracker, scored alone and in front of each estimator. -/
  tracker : TrackerChoice
  /-- The tracker at the levels of a hierarchy, if one is to be scored. -/
  hierarchy : Option LevelChoice
  /-- Whether the hierarchy takes its levels in turn. -/
  roundRobin : Bool
  /-- The rows of each estimator. -/
  rows : Nat
  /-- The probability with which a sampled sketch updates a row. -/
  sampleRate : Float
  /-- Whether details are logged; the lines of the run do not depend on it. -/
  debug : Bool

/-- The options of a run that sets none. -/
def Options.default (path : String) : Options where
  path := path
  recordSize := Trace.defaultRecordSize
  memory := 60000
  k := 3000
  seed := 0
  estimators := [.countMin, .countSketch, .tree, .univMon, .sampled, .vote]
  tracker := .funnel
  hierarchy := none
  roundRobin := false
  rows := 4
  sampleRate := 0.1
  debug := false

/-- An estimator of a kind in a budget, with counters of a given width where it has such. -/
def Options.buildEstimator (o : Options) (kind : EstimatorChoice) (memory width : Nat)
    (seed : UInt64) : Outcome AnyEstimator :=
  match kind with
  | .countMin => .countMin <$> CountMin.ofBudget memory o.rows width seed
  | .countSketch => .countSketch <$> CountSketch.ofBudget memory o.rows width seed
  | .conservative => .conservative <$> Conservative.ofBudget memory o.rows width seed
  | .sampled =>
    .sampled <$> Sampled.ofBudget Xoshiro.ofSeed memory o.sampleRate o.rows width seed
  | .coco => .coco <$> CocoSketch.ofBudget Xoshiro.ofSeed memory o.rows seed
  | .tree => .tree <$> TreeSketch.ofBudget memory width seed
  | .heap => .heap <$> HeapSketch.ofBudget memory o.rows width seed
  | .univMon => .univMon <$> UnivMon.ofBudget memory width seed
  | .vote => .vote <$> VoteSketch.ofBudget memory width seed

/-- A tracker of a kind in a budget. -/
def TrackerChoice.build (kind : TrackerChoice) (memory : Nat) (seed : UInt64) :
    Outcome AnyTracker :=
  match kind with
  | .hashPipe => .hashPipe <$> HashPipe.ofBudget memory seed
  | .vote => .vote <$> VoteTracker.ofBudget memory seed
  | .precision => .precision <$> Precision.ofBudget Xoshiro.ofSeed memory seed
  | .funnel => .funnel <$> Funnel.ofBudget memory seed
  | .spaceSaving => .spaceSaving <$> SpaceSaving.ofBudget memory

end HeavyHitters
