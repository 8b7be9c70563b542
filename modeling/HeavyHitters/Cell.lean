import HeavyHitters.Row

/-!
# Cells with residents

A cell of a tracking structure is empty or holds a resident: a key with its weight.  The weight of
a key in a table is looked up in the key's bucket of each row; the residents of a table are read
off all of its cells.

A unit of weight that a row does not take in is carried on to the next one.
-/

namespace HeavyHitters

/-- A kind of cell that may hold a resident. -/
class Cell (α : Type) where
  /-- The resident of a cell, if it is occupied. -/
  resident : α → Option Entry

instance : Cell Entry := ⟨fun cell => if cell.isEmpty then none else some cell⟩

namespace Row

variable {α : Type} [Cell α]

/-- The weight of a key in its bucket: that of the resident if it is the key's, else 0. -/
def weight (r : Row α) (key : Key) : Checked Int := do
  match Cell.resident (← r.get key) with
  | some resident => return if resident.key = key then resident.count else 0
  | none => return 0

/-- The residents of a row in the order of its cells. -/
def residents (r : Row α) : List Entry := r.cells.toList.filterMap Cell.resident

end Row

/-- The weight of a key summed over the rows of a table. -/
def tableWeight {α : Type} [Cell α] (rows : List (Row α)) (key : Key) : Checked Int := do
  Count.sum (← rows.mapM (·.weight key))

/-- The residents of a table, row by row. -/
def tableResidents {α : Type} [Cell α] (rows : List (Row α)) : List Entry :=
  rows.flatMap (·.residents)

/-! ## Carrying a unit through stages -/

/-- Offers a carried unit to stages one after the other.  Each stage takes it in, or gives on the
unit that the next stage is offered; what the last stage gives on is carried out. -/
def cascade {σ : Type} (offer : σ → Entry → Checked (σ × Option Entry)) :
    List σ → Entry → Checked (List σ × Option Entry)
  | [], unit => .ok ([], some unit)
  | stage :: stages, unit => do
    let (stage, next) ← offer stage unit
    match next with
    | none => return (stage :: stages, none)
    | some unit =>
      let (stages, out) ← cascade offer stages unit
      return (stage :: stages, out)

/-- The rule of a cell in which the heavier unit stays: an empty cell takes the carried unit in, a
unit of the resident's key is added to it, and of two different keys the lighter unit goes on. -/
def Entry.keepHeavier (resident unit : Entry) : Checked (Entry × Option Entry) :=
  if resident.isEmpty then .ok (unit, none)
  else if resident.key = unit.key then do
    return (⟨resident.key, ← Count.plus resident.count unit.count⟩, none)
  else if resident.count < unit.count then .ok (unit, some resident)
  else .ok (resident, some unit)

end HeavyHitters
