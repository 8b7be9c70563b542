import HeavyHitters.Count
import HeavyHitters.Hash.KeyHash
import HeavyHitters.Memory

/-!
# Rows of hashed cells

A row is an array of cells behind a hash function: a key has one cell in each row, its bucket.
Counter tables and the stages of a tracker are lists of rows of the same length, each with a hash
function of its own.

Only a row without cells has no bucket for a key, and then the remainder that would give the
bucket is the fault.
-/

namespace HeavyHitters

/-- An array of cells, each key having one of them as its bucket. -/
structure Row (α : Type) where
  hash : Key → UInt64
  cells : Array α

namespace Row

variable {α β : Type}

/-- A row of `length` equal cells. -/
def fill (length : Nat) (cell : α) (hash : KeyHash) : Row α :=
  ⟨hash.hash, Array.replicate length cell⟩

/-- The number of cells. -/
def length (r : Row α) : Nat := r.cells.size

/-- The position of a key's bucket. -/
def position (r : Row α) (key : Key) : Nat := (r.hash key).toNat % r.length

/-- The content of a key's bucket. -/
def get (r : Row α) (key : Key) : Checked α :=
  match r.cells[r.position key]? with
  | some cell => .ok cell
  | none => .error .zeroDivisor

/-- Changes the content of a key's bucket and hands out what the change gives besides. -/
def modify (r : Row α) (key : Key) (change : α → Checked (α × β)) : Checked (Row α × β) :=
  let position := r.position key
  match r.cells[position]? with
  | some cell => do
    let (cell, given) ← change cell
    return ({ r with cells := r.cells.setIfInBounds position cell }, given)
  | none => .error .zeroDivisor

/-- Puts new content into a key's bucket. -/
def set (r : Row α) (key : Key) (cell : α) : Row α :=
  { r with cells := r.cells.setIfInBounds (r.position key) cell }

/-- Changes the content of a key's bucket. -/
def update (r : Row α) (key : Key) (change : α → Checked α) : Checked (Row α) :=
  Prod.fst <$> r.modify key fun cell => (·, ()) <$> change cell

theorem length_fill (length : Nat) (cell : α) (hash : KeyHash) :
    (fill length cell hash).length = length := by simp [fill, Row.length]

theorem length_set (r : Row α) (key : Key) (cell : α) : (r.set key cell).length = r.length := by
  simp [set, Row.length]

/-- In a row with cells every key has a bucket. -/
theorem position_lt (r : Row α) (key : Key) (h : 0 < r.length) : r.position key < r.cells.size :=
  Nat.mod_lt _ h

@[simp] theorem position_set (r : Row α) (key other : Key) (cell : α) :
    (r.set key cell).position other = r.position other := by
  simp [position, set, Row.length]

theorem get_eq_ok_iff {r : Row α} {key : Key} {cell : α} :
    r.get key = .ok cell ↔ r.cells[r.position key]? = some cell := by
  unfold get
  split <;> simp_all

/-- Only a row without cells faults. -/
theorem exists_get_eq_ok (r : Row α) (key : Key) (h : 0 < r.length) :
    ∃ cell, r.get key = .ok cell := by
  have := r.position_lt key h
  exact ⟨r.cells[r.position key], get_eq_ok_iff.2 (Array.getElem?_eq_getElem this)⟩

/-- Keys with the same bucket find what was put there, all other keys what they found before. -/
theorem get_set {r : Row α} (h : 0 < r.length) (key other : Key) (cell : α) :
    (r.set key cell).get other =
      if r.position other = r.position key then .ok cell else r.get other := by
  have hk := r.position_lt key h
  unfold get
  rw [position_set, set, Array.getElem?_setIfInBounds]
  by_cases he : r.position other = r.position key
  · simp [he, hk]
  · simp [he, Ne.symm he]

/-- A change reads the key's bucket and puts the new content back. -/
theorem modify_eq_ok_iff {r r' : Row α} {key : Key} {change : α → Checked (α × β)} {given : β} :
    r.modify key change = .ok (r', given) ↔
      ∃ old new, r.get key = .ok old ∧ change old = .ok (new, given) ∧ r' = r.set key new := by
  unfold modify
  simp only [get_eq_ok_iff]
  cases hc : r.cells[r.position key]? with
  | none => simp
  | some old =>
    cases hn : change old with
    | error fault => simp [hn, bind, Except.bind]
    | ok result =>
      obtain ⟨new, out⟩ := result
      simp only [bind, Except.bind, pure, Except.pure, set, Except.ok.injEq, Prod.mk.injEq,
        Option.some.injEq, hn]
      constructor
      · rintro ⟨rfl, rfl⟩
        exact ⟨old, new, rfl, hn.trans rfl, rfl⟩
      · rintro ⟨_, _, rfl, ho, rfl⟩
        rw [hn] at ho
        injection ho with ho
        injection ho with h₁ h₂
        exact ⟨by rw [h₁], h₂⟩

theorem update_eq_ok_iff {r r' : Row α} {key : Key} {change : α → Checked α} :
    r.update key change = .ok r' ↔
      ∃ old new, r.get key = .ok old ∧ change old = .ok new ∧ r' = r.set key new := by
  unfold update
  constructor
  · intro h
    cases hm : r.modify key (fun cell => (·, ()) <$> change cell) with
    | error fault => rw [hm] at h; injection h
    | ok result =>
      rw [hm] at h
      injection h with h
      obtain ⟨old, new, hg, ho, hs⟩ := modify_eq_ok_iff.1 hm
      refine ⟨old, new, hg, ?_, h ▸ hs⟩
      cases hn : change old with
      | error fault => rw [hn] at ho; injection ho
      | ok cell =>
        rw [hn] at ho
        injection ho with ho
        injection ho with ho
        rw [ho]
  · rintro ⟨old, new, hg, hn, rfl⟩
    rw [modify_eq_ok_iff.2 ⟨old, new, hg, by rw [hn]; rfl, rfl⟩]
    rfl

end Row

/-- The bucket of a key among `length` of them, of which there has to be one. -/
def KeyHash.bucket (h : KeyHash) (key : Key) (length : Nat) : Checked Nat :=
  if length = 0 then .error .zeroDivisor else .ok ((h.hash key).toNat % length)

/-! ## Geometry -/

/-- The product of two sizes, which has to fit 64 bits. -/
def sizeTimes (a b : Nat) : Checked Nat :=
  if a * b < 1 <<< 64 then .ok (a * b) else .error (.overflow .multiply)

/-- The number of cells in each of `rows` rows of `width`-byte cells that together fit a budget of
`memory` bytes.  A budget too small for one cell in each row is refused, as is a table without
rows and a cell without bytes. -/
def rowLength (subject : String) (memory rows width : Nat) : Outcome Nat := do
  if rows = 0 then refuse (.config subject "stage count must be non-zero")
  if width = 0 then refuse (.config subject "slot size must be non-zero")
  let length := memory / (← sizeTimes rows width)
  if length = 0 then
    refuse (.config subject s!"{memory} bytes cannot hold {rows} stages of {width}-byte slots")
  return length

/-- Sets aside a block for the hash functions of `rows` rows, and one for all their cells of `width`
bytes. -/
def reserveRows (rows length width : Nat) : Checked Unit := do
  reserve rows KeyHash.width
  reserve (rows * length) width

theorem reserveRows_eq_ok_iff {rows length width : Nat} :
    reserveRows rows length width = .ok () ↔
      rows * KeyHash.width < blockLimit ∧ rows * length * width < blockLimit := by
  unfold reserveRows
  rw [← reserve_eq_ok_iff, ← reserve_eq_ok_iff]
  cases reserve rows KeyHash.width with
  | error fault => simp [bind, Except.bind]
  | ok _ => simp [bind, Except.bind]

/-- A table: for each hash function a row of `length` equal cells. -/
def table {α : Type} (hashes : List KeyHash) (length : Nat) (cell : α) : List (Row α) :=
  hashes.map (Row.fill length cell)

theorem length_table {α : Type} (hashes : List KeyHash) (length : Nat) (cell : α) :
    (table hashes length cell).length = hashes.length := by simp [table]

end HeavyHitters
