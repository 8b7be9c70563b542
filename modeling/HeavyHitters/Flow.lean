import HeavyHitters.Sorting

/-!
# Flows and records

A packet belongs to a flow, and the flow is named by a 32-bit key such as an IPv4 address.  The
upper half of a key names the network of the flow.  A record pairs a key with a count; records are
ranked by descending count and, among equal counts, by ascending key.
-/

namespace HeavyHitters

/-- The name of a flow. -/
abbrev Key := UInt32

/-- The name of a network: the upper half of its flows' keys. -/
abbrev Network := UInt16

/-- The network that a flow belongs to. -/
def networkOf (key : Key) : Network := (key >>> 16).toUInt16

/-- A key and its count.  In a cell of a table the count zero marks the cell as empty. -/
structure Record (κ : Type) where
  key : κ
  count : Int
  deriving DecidableEq, Inhabited

namespace Record

variable {κ : Type}

/-- Whether a cell with this content is empty. -/
def isEmpty (r : Record κ) : Bool := r.count == 0

/-- The content if it has weight to carry on, that is a positive count. -/
def carried (r : Record κ) : Option (Record κ) := if 0 < r.count then some r else none

/-- The order of rank: the greater count comes first, then the smaller key. -/
def rankCompare [Ord κ] (r s : Record κ) : Ordering :=
  (compare s.count r.count).then (compare r.key s.key)

/-- Whether a record is ranked no later than another one. -/
def ranksBefore [Ord κ] (r s : Record κ) : Bool := (rankCompare r s).isLE

@[simp] theorem isEmpty_iff {r : Record κ} : r.isEmpty = true ↔ r.count = 0 := by simp [isEmpty]

theorem carried_eq_some_iff {r s : Record κ} : r.carried = some s ↔ 0 < r.count ∧ s = r := by
  by_cases h : 0 < r.count <;> simp [carried, h, eq_comm]

end Record

/-- Records in the order of rank. -/
def rank {κ : Type} [Ord κ] (records : List (Record κ)) : List (Record κ) :=
  Sorting.sort Record.ranksBefore records

theorem rank_perm {κ : Type} [Ord κ] (records : List (Record κ)) : (rank records).Perm records :=
  Sorting.sort_perm _ _

/-- A record of a flow, as cells hold it and as units of weight are carried. -/
abbrev Entry := Record Key

/-- The content of a cell that was never used. -/
def Entry.empty : Entry := ⟨0, 0⟩

end HeavyHitters
