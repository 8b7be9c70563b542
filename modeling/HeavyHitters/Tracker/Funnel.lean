import HeavyHitters.Decimal.Shortest
import HeavyHitters.Tracker.Basic
import HeavyHitters.Tracker.Stage

/-!
# Funnel

A pipeline of stages, as laid out on a switch, each a fixed ratio the size of the one before.  A new
unit is offered to the stages in turn.  The default layout has four vote stages and two basic
stages, each half the size of the one before.
-/

namespace HeavyHitters

/-- The stages of a funnel. -/
structure Funnel where
  stages : List Stage

namespace Funnel

/-- The name in reports, refusals and warnings. -/
def title : String := "P4Pipeline"

/-- Four vote stages, then two basic ones. -/
def defaultLayout : List StageKind := [.vote 8, .vote 8, .vote 8, .vote 8, .basic, .basic]

/-- Each stage has half the size of the one before. -/
def defaultRatio : Float := 0.5

/-- The size of a cell as a multiple of a plain one, which has eight bytes. -/
def cellSize : StageKind → Float
  | .vote _ => 1.5
  | .basic => 1.0

/-- The size of a layout, as a multiple of the size of as many plain cells as its first stage has;
`scale` is the size of the first stage. -/
def layoutSize (ratio : Float) (layout : List StageKind) : Float :=
  (layout.foldl (fun (size, scale) kind => (size + cellSize kind * scale, scale * ratio))
    ((0.0, 1.0) : Float × Float)).1

/-- A size as a floating-point number. -/
def sizeToFloat (size : Nat) : Float := size.toUInt64.toFloat

/-- The whole part of a floating-point number as a size. -/
def sizeOfFloat (x : Float) : Nat := x.toUInt64.toNat

/-- The vote stages of a layout need a positive number of votes. -/
def checkVotes : List StageKind → Outcome Unit
  | [] => .ok ()
  | .vote lambda :: rest =>
    if lambda ≤ 0 then
      refuse (.config title s!"vote stage lambda {lambda} must be positive")
    else checkVotes rest
  | .basic :: rest => checkVotes rest

/-- The stages of a layout, of which the first has number `index` and `length` cells, and each
further one the ratio of the cells of the one before. -/
def buildStages (memory : Nat) (ratio : Float) :
    List StageKind → (index length : Nat) → SeedStream → Outcome (List Stage)
  | [], _, _, _ => .ok []
  | kind :: rest, index, length, seeds => do
    if length = 0 then
      refuse (.config title s!"{memory} bytes leave stage {index} without buckets")
    let (seed, seeds) := seeds.next
    let stage ← Stage.ofKind kind length (KeyHash.ofSeed seed)
    let stages ← buildStages memory ratio rest (index + 1)
      (sizeOfFloat (sizeToFloat length * ratio)) seeds
    return stage :: stages

/-- A funnel of a layout whose stages together fit a budget of bytes. -/
def ofLayout (memory : Nat) (layout : List StageKind) (ratio : Float) (seed : UInt64) :
    Outcome Funnel := do
  if layout.isEmpty then refuse (.config title "layout has no stages")
  if !(0.0 < ratio && ratio.isFinite) then
    refuse (.config title ("stage ratio " ++ Decimal.shortest ratio ++ " must be positive"))
  checkVotes layout
  let length := sizeOfFloat (sizeToFloat memory / (8.0 * layoutSize ratio layout))
  return ⟨← buildStages memory ratio layout 0 length ⟨seed⟩⟩

/-- A funnel of the default layout in a budget of bytes. -/
def ofBudget (memory : Nat) (seed : UInt64) : Outcome Funnel :=
  ofLayout memory defaultLayout defaultRatio seed

/-- The number of cells of each stage. -/
def lengths (t : Funnel) : List Nat := t.stages.map (·.length)

/-- Inserts one unit of a key. -/
def insert (t : Funnel) (key : Key) : Checked (Funnel × Option Entry) := do
  let (stages, out) ← cascade Stage.offer t.stages ⟨key, 1⟩
  return (⟨stages⟩, out)

/-- The weight of a key summed over the stages. -/
def query (t : Funnel) (key : Key) : Checked Int := do
  Count.sum (← t.stages.mapM (·.weight key))

/-- The residents, stage by stage. -/
def residents (t : Funnel) : List Entry := t.stages.flatMap (·.residents)

instance : Tracker Funnel where
  name _ := title
  insert := insert
  query := query
  residents := residents

end Funnel

end HeavyHitters
