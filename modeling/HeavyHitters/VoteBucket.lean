import HeavyHitters.Cell

/-!
# Buckets decided by votes

A bucket keeps a resident key, the votes for it, and all votes it has seen.  A unit of another key
counts against the resident; once all votes reach `lambda` times the resident's own, the newcomer
takes the bucket over together with its votes and the resident goes on with weight one.
-/

namespace HeavyHitters

/-- A resident key, the votes for it and all votes; a bucket without votes is empty. -/
structure VoteBucket where
  key : Key
  own : Int
  all : Int
  deriving DecidableEq

namespace VoteBucket

/-- The votes a resident has to be outvoted by, as a multiple of its own. -/
def lambda : Int := 32

/-- A bucket without votes. -/
def empty : VoteBucket := ⟨0, 0, 0⟩

/-- Whether a bucket is empty. -/
def isEmpty (b : VoteBucket) : Bool := b.all == 0

instance : Cell VoteBucket := ⟨fun b => if b.isEmpty then none else some ⟨b.key, b.own⟩⟩

/-- Offers a unit to a bucket. -/
def offer (b : VoteBucket) (unit : Entry) : Checked (VoteBucket × Option Entry) := do
  if b.isEmpty then return (⟨unit.key, unit.count, unit.count⟩, none)
  else if b.key = unit.key then
    return (⟨b.key, ← Count.plus b.own unit.count, ← Count.plus b.all unit.count⟩, none)
  else
    let all ← Count.plus b.all unit.count
    let limit ← Count.times b.own lambda
    if limit ≤ all then
      return (⟨unit.key, ← Count.plus b.own unit.count, ← Count.plus all unit.count⟩,
        some ⟨b.key, 1⟩)
    else return ({ b with all }, some unit)

/-- Offers a unit to the rows in turn.  Besides the rows and the unit carried out, if one is, the
result tells how many buckets were taken over: those that gave on a key other than the one they
were offered. -/
def offerAll : List (Row VoteBucket) → Entry →
    Checked (List (Row VoteBucket) × Option Entry × Nat)
  | [], unit => .ok ([], some unit, 0)
  | row :: rows, unit => do
    let (row, next) ← row.modify unit.key (·.offer unit)
    match next with
    | none => return (row :: rows, none, 0)
    | some passed =>
      let (rows, out, takeovers) ← offerAll rows passed
      return (row :: rows, out, takeovers + if passed.key = unit.key then 0 else 1)

/-- The number of rows of an elastic structure. -/
def rowCount : Nat := 4

end VoteBucket

end HeavyHitters
