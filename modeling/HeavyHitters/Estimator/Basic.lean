import HeavyHitters.Observed
import HeavyHitters.Tally

/-!
# Estimators

An estimator takes weighted inserts of keys and answers how much weight a key has received.  Some
estimators can also enumerate the heavy keys, and some of these the heavy networks; the others
refuse such a request.  Every estimator accepts weights, so it can stand behind a tracker and
absorb what the tracker evicts.

The heavy networks are asked of an observed estimator, which keeps the first answer.
-/

namespace HeavyHitters

/-- What every estimator offers. -/
class Estimator (ε : Type) where
  /-- The name in reports. -/
  name : ε → String
  /-- The name in warnings, if the estimator raises any. -/
  owner : ε → Option String := fun _ => none
  /-- Adds weight to a key. -/
  insert : ε → Key → Int → Checked ε
  /-- The estimated weight of a key. -/
  query : ε → Key → Outcome Int
  /-- The keys it can enumerate, by rank. -/
  topK : ε → Outcome (List (Record Key)) := fun e => refuse (.unsupported (name e) "top_k")
  /-- The networks it can enumerate, by rank. -/
  networkTopK : ε → Outcome (List (Record Network)) :=
    fun e => refuse (.unsupported (name e) "partial_top_k")

namespace Estimator

variable {ε : Type} [Estimator ε]

/-- Inserts weighted keys in order. -/
def insertAll (e : ε) (units : List (Record Key)) : Checked ε :=
  units.foldlM (fun e unit => insert e unit.key unit.count) e

/-- Inserts one unit of each key in order. -/
def feed (e : ε) (keys : List Key) : Checked ε := insertAll e (keys.map (⟨·, 1⟩))

@[simp] theorem insertAll_nil (e : ε) : insertAll e [] = .ok e := rfl

@[simp] theorem insertAll_cons (e : ε) (unit : Record Key) (units : List (Record Key)) :
    insertAll e (unit :: units) = insert e unit.key unit.count >>= (insertAll · units) :=
  rfl

theorem insertAll_append (e : ε) (units more : List (Record Key)) :
    insertAll e (units ++ more) = insertAll e units >>= (insertAll · more) :=
  List.foldlM_append

end Estimator

/-! ## Observed estimators -/

/-- An estimator of which the heavy networks may have been asked. -/
abbrev ObservedEstimator (ε : Type) := Observed ε (List (Record Network))

namespace ObservedEstimator

variable {ε : Type} [Estimator ε]

instance : Estimator (ObservedEstimator ε) where
  name e := Estimator.name e.state
  owner e := Estimator.owner e.state
  insert e key weight := Prod.fst <$> e.run fun e => (·, ()) <$> Estimator.insert e key weight
  query e key := Estimator.query e.state key
  topK e := Estimator.topK e.state
  networkTopK e := Estimator.networkTopK e.state

/-- The owner of the warning that the next insert raises, if it raises one. -/
def warning (e : ObservedEstimator ε) : Option String :=
  if e.isPending then Estimator.owner e.state else none

/-- The networks that the estimator can enumerate, by rank, as of the first request. -/
def networkTopK (e : ObservedEstimator ε) :
    Outcome (List (Record Network) × ObservedEstimator ε) :=
  e.ask Estimator.networkTopK

end ObservedEstimator

end HeavyHitters
