import HeavyHitters.CounterTree
import HeavyHitters.Estimator.Basic
import HeavyHitters.Memory

/-!
# Tree sketch

Two trees of saturating counters with independent hash functions.  The estimate of a key is the
lesser of what the two trees say, cut at the greatest count.  Inserts of weight zero or less change
nothing, and no insert or query can fault.
-/

namespace HeavyHitters

/-- A sketch of counter trees of one height. -/
structure TreeSketch where
  height : Nat
  trees : List CounterTree

namespace TreeSketch

/-- The name in reports and refusals. -/
def title : String := "FCM"

/-- The number of trees. -/
def treeCount : Nat := 2

/-- The height of the trees whose widest counters have so many bytes. -/
def heightOf : Nat → Option Nat
  | 1 => some 1
  | 2 => some 2
  | 4 => some 3
  | _ => none

/-- A sketch in a budget of bytes, shared evenly among all levels of all trees.  The widest counters
have `width` bytes, which fixes the height.  No level needs a longer block than the leaves. -/
def ofBudget (memory width : Nat) (seed : UInt64) : Outcome TreeSketch :=
  match heightOf width with
  | none => refuse (.config title s!"slot size {width} must be 1, 2 or 4 bytes")
  | some height => do
    let length := memory / (treeCount * height * width)
    if length = 0 then
      refuse (.config title
        s!"{memory} bytes cannot hold {treeCount} trees of height {height}")
    reserve (length <<< (height - 1)) CounterTree.counterWidth
    let (hashes, _) := SeedStream.hashes ⟨seed⟩ treeCount
    return ⟨height, hashes.map (CounterTree.empty height length)⟩

/-- Adds the weight to every tree if it is positive. -/
def insert (s : TreeSketch) (key : Key) (weight : Int) : TreeSketch :=
  if weight ≤ 0 then s else { s with trees := s.trees.map (·.add key weight.toNat) }

/-- The least estimate of the trees, cut at the greatest count. -/
def query (s : TreeSketch) (key : Key) : Int :=
  min (Count.leastOf (s.trees.map fun tree => (tree.estimate key : Int))) Count.greatest

/-- The counter on a key's path in a tree at a level.  The levels of all trees are numbered
through, tree by tree, so a level past the top of a tree belongs to the next tree. -/
def counter (s : TreeSketch) (tree level : Nat) (key : Key) : Checked Nat :=
  match s.trees[tree]? with
  | none => .error (.outOfBounds s.trees.length tree)
  | some t => do
    if 64 ≤ level then throw (.overflow .shiftRight)
    let levels := s.trees.flatMap (·.levels)
    let index := tree * s.height + level
    let position := t.leaf key >>> level
    match levels[index]? with
    | none => throw (.outOfBounds levels.length index)
    | some found =>
      match found.counters[position]? with
      | none => throw (.outOfBounds found.counters.size position)
      | some value => return value

instance : Estimator TreeSketch where
  name _ := title
  insert s key weight := .ok (s.insert key weight)
  query s key := .ok (s.query key)

end TreeSketch

end HeavyHitters
