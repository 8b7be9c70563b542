import HeavyHitters.Proofs.Checked
import HeavyHitters.Row

/-!
# Geometry of built tables

What is known of a table because it was built: it has as many rows as asked for, at least one of
them, and every row has cells.  A budget that cannot give this is refused, so nothing that is proved
of a built structure has to look at rows without cells.

* `rowLength_eq_ok` is what a granted row length tells about the request.
* `exists_length_of_budget` is the same of whatever is built of rows of that length, and
  `exists_block_of_budget` adds that all cells fit one block.
* `Row.Laid` speaks of rows of a common length, and `Row.Laid.addressed` says where their cells
  stand when the rows are put one after the other into one block.
-/

namespace HeavyHitters

/-- A row length is only given for at least one row of cells with bytes, and then it is the share of
the budget and not zero. -/
theorem rowLength_eq_ok {subject : String} {memory rows width length : Nat}
    (h : rowLength subject memory rows width = .ok length) :
    rows ≠ 0 ∧ width ≠ 0 ∧ length ≠ 0 ∧ length = memory / (rows * width) := by
  unfold rowLength at h
  dsimp only at h
  split at h
  · exact absurd h refuse_bind_ne_ok
  next hrows =>
  split at h
  · exact absurd h refuse_bind_ne_ok
  next hwidth =>
  obtain ⟨size, hsize, h⟩ := Checked.bind_eq_ok.mp h
  have hs : size = rows * width := by
    have := Outcome.ofChecked_eq_ok.mp hsize
    unfold sizeTimes at this
    split at this
    · exact (Except.ok.inj this).symm
    · cases this
  split at h
  · exact absurd h refuse_bind_ne_ok
  next hlength =>
  obtain rfl := Checked.pure_eq_ok.mp h
  exact ⟨hrows, hwidth, hlength, by rw [hs]⟩

/-- Whose rows they are shows in a refusal only. -/
theorem rowLength_of_subject {subject other : String} {memory rows width length : Nat}
    (h : rowLength subject memory rows width = .ok length) :
    rowLength other memory rows width = .ok length := by
  obtain ⟨hrows, hwidth, -, -⟩ := rowLength_eq_ok h
  unfold rowLength at h ⊢
  dsimp only at h ⊢
  rw [if_neg hrows, if_neg hwidth] at h ⊢
  obtain ⟨size, hsize, h⟩ := Checked.bind_eq_ok.mp h
  refine Checked.bind_eq_ok.mpr ⟨size, hsize, ?_⟩
  split at h
  · exact absurd h refuse_bind_ne_ok
  next hne =>
  rw [if_neg hne]
  exact h

/-- What is built of rows of a common length is built only of some rows and with a length that is
the share of the budget and not zero. -/
theorem exists_length_of_budget {γ : Type} {subject : String} {memory rows width bytes : Nat}
    {make : Nat → γ} {built : γ}
    (h : (do
      let length ← rowLength subject memory rows width
      reserveRows rows length bytes
      return make length) = .ok built) :
    ∃ length, rows ≠ 0 ∧ length ≠ 0 ∧ length = memory / (rows * width) ∧ make length = built := by
  obtain ⟨length, hl, h⟩ := Checked.bind_eq_ok.mp h
  obtain ⟨-, -, h⟩ := Checked.bind_eq_ok.mp h
  obtain ⟨hrows, -, hlength, hshare⟩ := rowLength_eq_ok hl
  exact ⟨length, hrows, hlength, hshare, Checked.pure_eq_ok.mp h⟩

theorem table_ne_nil {α : Type} {rows : Nat} (h : rows ≠ 0) (seeds : SeedStream) (length : Nat)
    (cell : α) : table (seeds.hashes rows).1 length cell ≠ [] := by
  intro he
  have := congrArg List.length he
  rw [length_table, SeedStream.length_hashes] at this
  exact h this

theorem mem_table {α : Type} {hashes : List KeyHash} {length : Nat} {cell : α} {row : Row α}
    (h : row ∈ table hashes length cell) : ∃ hash, row = Row.fill length cell hash := by
  obtain ⟨hash, -, rfl⟩ := List.mem_map.mp h
  exact ⟨hash, rfl⟩

/-- All cells of what is built of rows are in one block of memory. -/
theorem exists_block_of_budget {γ : Type} {subject : String} {memory rows width bytes : Nat}
    {make : Nat → γ} {built : γ} (hbytes : 0 < bytes)
    (h : (do
      let length ← rowLength subject memory rows width
      reserveRows rows length bytes
      return make length) = .ok built) :
    ∃ length, rows ≠ 0 ∧ length ≠ 0 ∧ rows * length < blockLimit ∧ make length = built := by
  obtain ⟨length, hl, h⟩ := Checked.bind_eq_ok.mp h
  obtain ⟨⟨⟩, hreserve, h⟩ := Checked.bind_eq_ok.mp h
  obtain ⟨hrows, -, hlength, -⟩ := rowLength_eq_ok hl
  have hblock := (reserveRows_eq_ok_iff.mp (Outcome.ofChecked_eq_ok.mp hreserve)).2
  have hcells : rows * length ≤ rows * length * bytes := Nat.le_mul_of_pos_right _ hbytes
  exact ⟨length, hrows, hlength, Nat.lt_of_le_of_lt hcells hblock, Checked.pure_eq_ok.mp h⟩

/-! ## Addresses -/

/-- In lists of one length, put one after the other, an element is
found by the number of its list. -/
theorem getElem?_flatMap_of_length {α β : Type} {f : α → List β} {length : Nat} {as : List α}
    (h : ∀ a ∈ as, (f a).length = length) {index inner : Nat} (hi : inner < length) :
    (as.flatMap f)[index * length + inner]? = as[index]?.bind fun a => (f a)[inner]? := by
  induction as generalizing index with
  | nil => simp
  | cons a as ih =>
    have ha := h a List.mem_cons_self
    rw [List.flatMap_cons]
    cases index with
    | zero =>
      rw [Nat.zero_mul, Nat.zero_add, List.getElem?_append_left (by omega)]
      rfl
    | succ index =>
      rw [Nat.succ_mul, List.getElem?_append_right (by omega),
        show index * length + length + inner - (f a).length = index * length + inner by omega,
        ih fun b hb => h b (List.mem_cons_of_mem a hb)]
      rfl

namespace Row

variable {α : Type} {height length : Nat} {P Q : Row α → Prop} {rows rows' : List (Row α)}

/-- The cells of all rows, one row after the other. -/
def block (rows : List (Row α)) : List α := rows.flatMap (·.cells.toList)

/-- What is looked up in a block of rows is there: the bucket of a key in a row stands at the number
of the row times the length of the rows plus the number of the bucket. -/
structure Addressed (length : Nat) (rows : List (Row α)) : Prop where
  /-- There is a row, so a median of what the rows have for a key has a middle. -/
  rows_ne_nil : rows ≠ []
  /-- The remainder that gives a bucket has a divisor. -/
  length_pos : 0 < length
  /-- All addresses fit a word. -/
  block_lt : (block rows).length < blockLimit
  getElem?_block : ∀ (stage : Nat) (row : Row α), rows[stage]? = some row → ∀ key, ∃ cell,
    row.get key = .ok cell ∧
    (block rows)[stage * length + (row.hash key).toNat % length]? = some cell
  /-- The number of a cell in the block tells its row. -/
  div_lt : ∀ index < (block rows).length, index / length < rows.length

/-- A number of rows of a common length, in one block of memory, which all have a property. -/
structure Laid (height length : Nat) (P : Row α → Prop) (rows : List (Row α)) : Prop where
  height_pos : 0 < height
  length_pos : 0 < length
  block_lt : height * length < blockLimit
  length_rows : rows.length = height
  forall_row : ∀ row ∈ rows, row.length = length ∧ P row

theorem laid_table {hashes : List KeyHash} {cell : α} (hheight : height ≠ 0) (hlength : length ≠ 0)
    (hblock : height * length < blockLimit) (hhashes : hashes.length = height)
    (hP : ∀ hash, P (fill length cell hash)) : Laid height length P (table hashes length cell) where
  height_pos := Nat.pos_of_ne_zero hheight
  length_pos := Nat.pos_of_ne_zero hlength
  block_lt := hblock
  length_rows := by rw [length_table, hhashes]
  forall_row row hr := by
    obtain ⟨hash, rfl⟩ := mem_table hr
    exact ⟨length_fill length cell hash, hP hash⟩

/-- A step that changes rows one by one leaves them where they are. -/
theorem Laid.next (h : Laid height length P rows) (hlength : rows'.length = rows.length)
    (hrows : ∀ row ∈ rows', row.length = length ∧ Q row) : Laid height length Q rows' :=
  ⟨h.height_pos, h.length_pos, h.block_lt, hlength.trans h.length_rows, hrows⟩

theorem Laid.rows_ne_nil (h : Laid height length P rows) : rows ≠ [] := by
  rintro rfl
  exact Nat.ne_of_gt h.height_pos h.length_rows.symm

theorem length_block (hrows : ∀ row ∈ rows, row.length = length) :
    (block rows).length = rows.length * length := by
  induction rows with
  | nil => simp [block]
  | cons row rows ih =>
    obtain ⟨hrow, hrest⟩ := List.forall_mem_cons.mp hrows
    have hcells : row.cells.toList.length = length := hrow
    rw [block, List.flatMap_cons, List.length_append, hcells, List.length_cons, Nat.succ_mul,
      Nat.add_comm, ← ih hrest]
    rfl

/-- **Every key has its cell at its address.** -/
theorem Laid.addressed (h : Laid height length P rows) : Addressed length rows where
  rows_ne_nil := h.rows_ne_nil
  length_pos := h.length_pos
  block_lt := by
    rw [length_block fun row hr => (h.forall_row row hr).1, h.length_rows]
    exact h.block_lt
  getElem?_block stage row hrow key := by
    have hlength := (h.forall_row row (List.mem_of_getElem? hrow)).1
    obtain ⟨cell, hget⟩ := row.exists_get_eq_ok key (hlength ▸ h.length_pos)
    refine ⟨cell, hget, ?_⟩
    have hcells : ∀ row ∈ rows, row.cells.toList.length = length :=
      fun row hr => (h.forall_row row hr).1
    rw [block, getElem?_flatMap_of_length hcells (Nat.mod_lt _ h.length_pos),
      hrow, Option.bind_some, Array.getElem?_toList, ← hlength]
    exact get_eq_ok_iff.mp hget
  div_lt index hindex := by
    rw [length_block fun row hr => (h.forall_row row hr).1] at hindex
    exact Nat.div_lt_of_lt_mul (by rwa [Nat.mul_comm])

end Row

end HeavyHitters
