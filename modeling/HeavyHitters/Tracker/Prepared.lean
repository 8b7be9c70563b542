import HeavyHitters.Estimator.Prepared
import HeavyHitters.Tracker.Basic

/-!
# Prepared tracker

A tracker that answers with what was prepared for it: each insert carries out the next of a list of
units, and nothing once the list is used up.
-/

namespace HeavyHitters

/-- Prepared answers. -/
structure PreparedTracker where
  carriedOut : List (Option Entry)
  counts : List (Record Key)
  residents : List Entry
  networks : Tally Network

namespace PreparedTracker

/-- The name in reports. -/
def title : String := "Scripted"

/-- Plays the next prepared answer back. -/
def insert (t : PreparedTracker) : PreparedTracker × Option Entry :=
  match t.carriedOut with
  | [] => (t, none)
  | out :: rest => ({ t with carriedOut := rest }, out)

instance : Tracker PreparedTracker where
  name _ := title
  owner _ := none
  insert t _ := .ok t.insert
  query t key := .ok (PreparedEstimator.lookup t.counts key)
  residents t := t.residents
  networks t := .ok t.networks

end PreparedTracker

end HeavyHitters
