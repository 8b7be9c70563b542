import HeavyHitters.Tracker.Funnel
import HeavyHitters.Tracker.HashPipe
import HeavyHitters.Tracker.Precision
import HeavyHitters.Tracker.Prepared
import HeavyHitters.Tracker.SpaceSaving
import HeavyHitters.Tracker.VoteTracker

/-!
# Any tracker

A tracker of a kind that is chosen at run time.  It behaves as the tracker that it holds.
-/

namespace HeavyHitters

/-- One of the trackers. -/
inductive AnyTracker where
  | hashPipe (tracker : HashPipe)
  | vote (tracker : VoteTracker)
  | precision (tracker : Precision Xoshiro)
  | funnel (tracker : Funnel)
  | spaceSaving (tracker : SpaceSaving)
  | prepared (tracker : PreparedTracker)

namespace AnyTracker

/-- Applies what can be done with every tracker to the one that is held.  The first argument of the
function makes a tracker of the same kind one chosen at run time. -/
def apply {β : Type} (f : {τ : Type} → [Tracker τ] → (τ → AnyTracker) → τ → β) : AnyTracker → β
  | hashPipe t => f hashPipe t
  | vote t => f vote t
  | precision t => f precision t
  | funnel t => f funnel t
  | spaceSaving t => f spaceSaving t
  | prepared t => f prepared t

instance : Tracker AnyTracker where
  name := apply fun _ t => Tracker.name t
  owner := apply fun _ t => Tracker.owner t
  insert t key := t.apply fun kind t =>
    (fun (t, out) => (kind t, out)) <$> Tracker.insert t key
  query t key := t.apply fun _ t => Tracker.query t key
  residents := apply fun _ t => Tracker.residents t
  networks := apply fun _ t => Tracker.networks t
  diagnostics := apply fun _ t => Tracker.diagnostics t

end AnyTracker

end HeavyHitters
