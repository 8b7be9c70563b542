import HeavyHitters.Cell
import HeavyHitters.Random
import HeavyHitters.Tracker.Basic

/-!
# Precision

Six rows of residents.  A key settles in the first bucket on its path that is empty or its own.  If
there is none, the lightest resident on the path is displaced with a probability of one over its
weight rounded up to a power of two; otherwise the new unit is handed back untouched.
-/

namespace HeavyHitters

/-- The rows of a Precision tracker, the source of its coins, the misses that displaced a resident
and the misses that were handed back. -/
structure Precision (ρ : Type) where
  rows : List (Row Entry)
  source : ρ
  recirculated : Nat
  dropped : Nat

namespace Precision

variable {ρ : Type}

/-- The name in reports, refusals and warnings. -/
def title : String := "Precision"

/-- The number of rows. -/
def rowCount : Nat := 6

/-- A tracker of rows of eight-byte cells in a budget of bytes.  The seed that follows those of the
rows makes the source. -/
def ofBudget (source : UInt64 → ρ) (memory : Nat) (seed : UInt64) : Outcome (Precision ρ) := do
  let length ← rowLength title memory rowCount 8
  reserveRows rowCount length 8
  let (hashes, seeds) := SeedStream.hashes ⟨seed⟩ rowCount
  return ⟨table hashes length Entry.empty, source seeds.next.1, 0, 0⟩

/-- Settles one unit of a key in the first bucket that is empty or the key's own, and tells whether
there is one; if every bucket on the path belongs to another key, the rows stay as they are. -/
def settle (key : Key) : List (Row Entry) → Checked (List (Row Entry) × Bool)
  | [] => .ok ([], false)
  | row :: rows => do
    let resident ← row.get key
    if resident.isEmpty then return (row.set key ⟨key, 1⟩ :: rows, true)
    else if resident.key = key then
      return (row.set key ⟨key, ← Count.plus resident.count 1⟩ :: rows, true)
    else
      let (rows, settled) ← settle key rows
      return (row :: rows, settled)

/-- Rows in which a key did not settle are the rows it was offered to. -/
theorem eq_of_settle_eq_false {key : Key} {rows rows' : List (Row Entry)}
    (h : settle key rows = .ok (rows', false)) : rows' = rows := by
  induction rows generalizing rows' with
  | nil =>
    injection h with h
    injection h with h _
    exact h.symm
  | cons row rows ih =>
    rw [settle] at h
    cases hg : row.get key with
    | error fault => rw [hg] at h; injection h
    | ok resident =>
      simp only [hg, bind, Except.bind, pure, Except.pure] at h
      split at h
      · simp at h
      · split at h
        · cases hc : Count.plus resident.count 1 <;> simp [hc] at h
        · cases hs : settle key rows with
          | error fault => simp [hs] at h
          | ok result =>
            obtain ⟨rest, settled⟩ := result
            simp only [hs, Except.ok.injEq, Prod.mk.injEq] at h
            obtain ⟨rfl, rfl⟩ := h
            rw [ih hs]

/-- The least weight of the residents on a key's path. -/
def lightest (key : Key) (rows : List (Row Entry)) : Checked Int := do
  return Count.leastOf ((← rows.mapM (·.get key)).map (·.count))

/-- Puts one unit of a key in place of the first resident of a given weight on the key's path; the
rows and that resident. -/
def displace (key : Key) (weight : Int) :
    List (Row Entry) → Checked (List (Row Entry) × Option Entry)
  | [] => .ok ([], none)
  | row :: rows => do
    let resident ← row.get key
    if resident.count = weight then return (row.set key ⟨key, 1⟩ :: rows, some resident)
    else
      let (rows, victim) ← displace key weight rows
      return (row :: rows, victim)

/-- One chance in so many displaces a resident: its weight, rounded up to a power of two. -/
def odds (weight : Nat) : Nat := powerOfTwoFrom weight

theorem le_odds (weight : Nat) : weight ≤ odds weight := le_powerOfTwoFrom weight

/-- Inserts one unit of a key. -/
def insert [RandomSource ρ] : Precision ρ → Key → Checked (Precision ρ × Option Entry)
  | ⟨rows, source, recirculated, dropped⟩, key => do
    let (rows, settled) ← settle key rows
    if settled then return (⟨rows, source, recirculated, dropped⟩, none)
    else
      let weight ← lightest key rows
      let (draw, source) := RandomSource.below (odds weight.toNat) source
      if draw = 0 then
        let (rows, victim) ← displace key weight rows
        return (⟨rows, source, recirculated + 1, dropped⟩, victim)
      else return (⟨rows, source, recirculated, dropped + 1⟩, some ⟨key, 1⟩)

instance [RandomSource ρ] : Tracker (Precision ρ) where
  name _ := title
  insert := insert
  query t key := tableWeight t.rows key
  residents t := tableResidents t.rows
  diagnostics t := [("recirculated", t.recirculated), ("dropped", t.dropped)]

end Precision

end HeavyHitters
