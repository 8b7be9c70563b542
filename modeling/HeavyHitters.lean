import HeavyHitters.CommandLine.Arguments
import HeavyHitters.CommandLine.Benchmark
import HeavyHitters.Main
import HeavyHitters.Proofs.BoundedHeap.Refinement
import HeavyHitters.Proofs.Estimator.CocoSketch
import HeavyHitters.Proofs.Estimator.CountMin
import HeavyHitters.Proofs.Estimator.CountSketch.Overflow
import HeavyHitters.Proofs.Estimator.HeapSketch.Admissions
import HeavyHitters.Proofs.Estimator.Hierarchy
import HeavyHitters.Proofs.Estimator.Linear
import HeavyHitters.Proofs.Estimator.Sampled
import HeavyHitters.Proofs.Estimator.Sandwich
import HeavyHitters.Proofs.Estimator.TreeSketch
import HeavyHitters.Proofs.Estimator.UnivMon
import HeavyHitters.Proofs.Estimator.UnivMon.Overflow
import HeavyHitters.Proofs.Geometry.Plans
import HeavyHitters.Proofs.Hash.Drawn
import HeavyHitters.Proofs.Median.Robust
import HeavyHitters.Proofs.Relay.Overflow
import HeavyHitters.Proofs.Relay.Ranking
import HeavyHitters.Proofs.Scoring.Hits
import HeavyHitters.Proofs.Scoring.Outcomes
import HeavyHitters.Proofs.Sessions.Snapshots
import HeavyHitters.Proofs.Trace.Files
import HeavyHitters.Proofs.Tracker.Funnel.Tenure
import HeavyHitters.Proofs.Tracker.Funnel.Votes
import HeavyHitters.Proofs.Tracker.HashPipe
import HeavyHitters.Proofs.Tracker.Precision
import HeavyHitters.Proofs.Tracker.SpaceSaving.Exact
import HeavyHitters.Proofs.Tracker.SpaceSaving.Guarantees
import HeavyHitters.Proofs.VoteBucket.Overflow
