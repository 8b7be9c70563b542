import Std.Data.TreeMap
import HeavyHitters.Count
import HeavyHitters.Flow
import HeavyHitters.Memory

/-!
# Bounded heap of counted keys

A binary heap of keys with the least count at the root, holding at most a given number of keys, and
the position of every key in the heap.  A key that is held can be bumped by any amount; a new key
needs a positive count and, when the heap is full, a greater one than the root, which it replaces.

An entry that was changed is brought into place by sifting: downward past children with a lesser
count, which ends because positions grow and stay below the size, and upward past a parent with a
greater count, which ends because positions shrink.
-/

namespace HeavyHitters

/-- A heap of counted keys with the position of each key. -/
structure BoundedHeap where
  capacity : Nat
  entries : Array Entry
  positions : Std.TreeMap Key Nat

namespace BoundedHeap

/-- A heap without keys. -/
def empty (capacity : Nat) : BoundedHeap := ⟨capacity, #[], ∅⟩

/-- A heap with one entry for each eight bytes of a budget.  The positions by key take sixteen bytes
each, besides the budget. -/
def ofBudget (subject : String) (memory : Nat) : Outcome BoundedHeap := do
  if memory / 8 = 0 then
    refuse (.config subject s!"{memory} bytes cannot hold a single heap entry")
  reserveHashTable (memory / 8) 16
  reserve (memory / 8) 8
  return empty (memory / 8)

/-- The number of keys held. -/
def size (h : BoundedHeap) : Nat := h.entries.size

/-- Whether a key is held. -/
def contains (h : BoundedHeap) (key : Key) : Bool := h.positions.contains key

/-- The count at a position, 0 outside the heap. -/
def countAt (entries : Array Entry) (position : Nat) : Int :=
  (entries[position]?.map (·.count)).getD 0

/-- The count of a key, 0 if it is not held. -/
def query (h : BoundedHeap) (key : Key) : Int :=
  match h.positions[key]? with
  | some position => countAt h.entries position
  | none => 0

/-- The entries by rank. -/
def records (h : BoundedHeap) : List (Record Key) := rank h.entries.toList

/-! ## Sifting -/

/-- Exchanges the entries at two positions. -/
def swap (h : BoundedHeap) (i j : Nat) : BoundedHeap :=
  match h.entries[i]?, h.entries[j]? with
  | some a, some b =>
    { h with
      entries := (h.entries.setIfInBounds i b).setIfInBounds j a
      positions := (h.positions.insert b.key i).insert a.key j }
  | _, _ => h

@[simp] theorem size_entries_swap (h : BoundedHeap) (i j : Nat) :
    (h.swap i j).entries.size = h.entries.size := by
  unfold swap
  split <;> simp

/-- The position `j` if it is in the heap and has a lesser count than `i`, else `i`. -/
def lighter (entries : Array Entry) (i j : Nat) : Nat :=
  if j < entries.size ∧ countAt entries j < countAt entries i then j else i

/-- The lightest of a position and its two children, the earliest of equal ones. -/
def lightest (entries : Array Entry) (position : Nat) : Nat :=
  lighter entries (lighter entries position (2 * position + 1)) (2 * position + 2)

theorem lighter_eq_or (entries : Array Entry) (i j : Nat) :
    lighter entries i j = i ∨ lighter entries i j = j ∧ j < entries.size := by
  unfold lighter
  split <;> simp_all

theorem lightest_eq_or (entries : Array Entry) (position : Nat) :
    lightest entries position = position ∨
      position < lightest entries position ∧ lightest entries position < entries.size := by
  unfold lightest
  rcases lighter_eq_or entries position (2 * position + 1) with h | ⟨h, hl⟩ <;> rw [h]
  · rcases lighter_eq_or entries position (2 * position + 2) with h' | ⟨h', hr⟩ <;> omega
  · rcases lighter_eq_or entries (2 * position + 1) (2 * position + 2) with h' | ⟨h', hr⟩ <;> omega

/-- Moves the entry at a position up while its parent has a greater count. -/
def siftUp (h : BoundedHeap) (position : Nat) : BoundedHeap :=
  if position = 0 then h
  else
    let parent := (position - 1) / 2
    if countAt h.entries position < countAt h.entries parent then
      siftUp (h.swap parent position) parent
    else h
termination_by position
decreasing_by omega

/-- Moves the entry at a position down while one of its children has a lesser count. -/
def siftDown (h : BoundedHeap) (position : Nat) : BoundedHeap :=
  if lightest h.entries position = position then h
  else siftDown (h.swap position (lightest h.entries position)) (lightest h.entries position)
termination_by h.entries.size - position
decreasing_by
  have := lightest_eq_or h.entries position
  rw [size_entries_swap]
  omega

/-! ## Inserting -/

/-- Adds to the count of the entry at a position. -/
def bump (h : BoundedHeap) (position : Nat) (count : Int) : Checked BoundedHeap :=
  match h.entries[position]? with
  | none => .ok h
  | some entry => do
    let changed := { entry with count := ← Count.plus entry.count count }
    let h := { h with entries := h.entries.setIfInBounds position changed }
    return siftUp (siftDown h position) position

/-- Holds a new key, which there has to be room for. -/
def push (h : BoundedHeap) (entry : Entry) : BoundedHeap :=
  let position := h.entries.size
  siftUp
    { h with
      entries := h.entries.push entry
      positions := h.positions.insert entry.key position }
    position

/-- Puts a new key in place of the one at the root. -/
def replaceRoot (h : BoundedHeap) (root entry : Entry) : BoundedHeap :=
  siftDown
    { h with
      entries := h.entries.setIfInBounds 0 entry
      positions := (h.positions.erase root.key).insert entry.key 0 }
    0

/-- Adds to the count of a key that is held, or holds a new key with a positive count: in a free
place if there is one, else in place of the root if that has a lesser count. -/
def insertOrBump (h : BoundedHeap) (key : Key) (count : Int) : Checked BoundedHeap :=
  match h.positions[key]? with
  | some position => h.bump position count
  | none =>
    if count ≤ 0 then .ok h
    else if h.entries.size < h.capacity then .ok (h.push ⟨key, count⟩)
    else
      match h.entries[0]? with
      | some root => .ok (if root.count < count then h.replaceRoot root ⟨key, count⟩ else h)
      | none => .ok h

end BoundedHeap

end HeavyHitters
