import HeavyHitters.Cell

/-!
# Stages of a funnel

A stage is a row of cells with a rule of admission.  In a basic stage the heavier of resident and
carried unit stays.  In a vote stage a resident is defended by votes: every unit of its own key adds
`lambda` votes, every unit of another key costs one, and when none is left the resident is evicted.
-/

namespace HeavyHitters

/-- The rule of admission of a stage. -/
inductive StageKind where
  | vote (lambda : Int)
  | basic
  deriving DecidableEq

/-- The bytes that a cell of a stage takes. -/
def StageKind.width : StageKind → Nat
  | .vote _ => 12
  | .basic => 8

/-- A resident and the votes that defend it. -/
structure Defended where
  resident : Entry
  votes : Int
  deriving DecidableEq

namespace Defended

/-- A cell that was never used. -/
def empty : Defended := ⟨Entry.empty, 0⟩

instance : Cell Defended := ⟨fun cell => Cell.resident cell.resident⟩

/-- Offers a carried unit to a defended cell. -/
def offer (lambda : Int) (cell : Defended) (unit : Entry) : Checked (Defended × Option Entry) := do
  if cell.resident.isEmpty then return (⟨unit, lambda⟩, none)
  else if cell.resident.key = unit.key then
    let count ← Count.plus cell.resident.count unit.count
    return (⟨⟨cell.resident.key, count⟩, ← Count.plus cell.votes lambda⟩, none)
  else
    let votes ← Count.minus cell.votes 1
    if votes ≤ 0 then return (⟨unit, lambda⟩, some cell.resident)
    else return ({ cell with votes }, some unit)

end Defended

/-- A row of cells with a rule of admission. -/
inductive Stage where
  | vote (lambda : Int) (row : Row Defended)
  | basic (row : Row Entry)

namespace Stage

/-- A stage of `length` empty cells. -/
def ofKind (kind : StageKind) (length : Nat) (hash : KeyHash) : Checked Stage := do
  reserve length kind.width
  match kind with
  | .vote lambda => return .vote lambda (Row.fill length Defended.empty hash)
  | .basic => return .basic (Row.fill length Entry.empty hash)

/-- The number of cells. -/
def length : Stage → Nat
  | .vote _ row => row.length
  | .basic row => row.length

/-- Offers a carried unit; what goes on to the next stage. -/
def offer (stage : Stage) (unit : Entry) : Checked (Stage × Option Entry) :=
  match stage with
  | .vote lambda row => do
    let (row, next) ← row.modify unit.key (·.offer lambda unit)
    return (.vote lambda row, next)
  | .basic row => do
    let (row, next) ← row.modify unit.key (·.keepHeavier unit)
    return (.basic row, next)

/-- The weight of a key in its bucket. -/
def weight (stage : Stage) (key : Key) : Checked Int :=
  match stage with
  | .vote _ row => row.weight key
  | .basic row => row.weight key

/-- The residents in the order of the cells. -/
def residents : Stage → List Entry
  | .vote _ row => row.residents
  | .basic row => row.residents

end Stage

end HeavyHitters
