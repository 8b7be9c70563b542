import HeavyHitters.Estimator.Basic

/-!
# Prepared estimator

An estimator that answers with what was prepared for it and keeps a list of what was inserted.  It
stands in for a real one where only the handling of its answers matters.
-/

namespace HeavyHitters

/-- Prepared answers, or the errors to refuse with, and the inserts so far, the latest first. -/
structure PreparedEstimator where
  estimates : Except Error (List (Record Key))
  ranking : Except Error (List (Record Key))
  networkRanking : Except Error (List (Record Network))
  received : List (Record Key)

namespace PreparedEstimator

/-- The name in reports and refusals. -/
def title : String := "Scripted"

/-- The count of the first record of a key, 0 if there is none. -/
def lookup (records : List (Record Key)) (key : Key) : Int :=
  match records.find? (·.key == key) with
  | some record => record.count
  | none => 0

/-- A prepared answer, or the refusal prepared in its place. -/
def answer {α : Type} (prepared : Except Error α) : Outcome α := prepared.mapError Failure.error

/-- The inserts so far in order. -/
def inserted (e : PreparedEstimator) : List (Record Key) := e.received.reverse

instance : Estimator PreparedEstimator where
  name _ := title
  insert e key weight := .ok { e with received := ⟨key, weight⟩ :: e.received }
  query e key := (lookup · key) <$> answer e.estimates
  topK e := answer e.ranking
  networkTopK e := answer e.networkRanking

end PreparedEstimator

end HeavyHitters
