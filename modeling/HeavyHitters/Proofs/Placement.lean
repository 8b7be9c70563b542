import HeavyHitters.Proofs.Checked
import HeavyHitters.Proofs.Weight

/-!
# Residents in their buckets

A query looks at one bucket in each row, while the residents are read off all cells.  The two agree
because every resident of a row sits in the bucket of its own key, and this is kept by every rule of
admission: whatever a rule does to a cell and to the unit offered to it is one of four exchanges.

* `Row.Placed` is the invariant of a row, `Exchange` what may happen at one cell.
* `Row.Placed.modify` says that a row which changes its cells by exchanges stays placed, and that
  every unit offered to it is handed over.
* `Row.Placed.weight_eq` says that a query of a placed row finds all that the row holds of the key.
-/

namespace HeavyHitters

/--
What happens at a cell that is offered a unit: the resident before, the resident after, and the unit
that goes on.
-/
inductive Exchange (unit : Entry) : Option Entry → Option Entry → Option Entry → Prop where
  /-- The unit moves into an empty cell. -/
  | settled : Exchange unit none (some unit) none
  /-- The unit is added to the resident of its own key. -/
  | merged {resident : Entry} (h : resident.key = unit.key) :
      Exchange unit (some resident) (some ⟨resident.key, resident.count + unit.count⟩) none
  /-- The unit takes the place of another key's resident, which goes on. -/
  | displaced {resident : Entry} (h : resident.key ≠ unit.key) :
      Exchange unit (some resident) (some unit) (some resident)
  /-- The unit goes on past another key's resident. -/
  | passed {resident : Entry} (h : resident.key ≠ unit.key) :
      Exchange unit (some resident) (some resident) (some unit)

namespace Exchange

variable {unit : Entry} {old new given : Option Entry}

/-- An exchange keeps the weight of every set of keys. -/
theorem weight_eq (h : Exchange unit old new given) (select : Key → Bool) :
    weightOf select new.toList + weightOf select given.toList
      = weightOf select old.toList + weightOf select [unit] := by
  cases h with
  | settled => simp
  | merged hk =>
    simp only [Option.toList_some, Option.toList_none, weightOf_cons, weightOf_nil, hk]
    split <;> omega
  | displaced => simp only [Option.toList_some]; omega
  | passed => rfl

/-- What an exchange leaves behind or gives on has weight, if the resident and the unit have. -/
theorem positive (h : Exchange unit old new given) (hold : ∀ e ∈ old, 1 ≤ e.count)
    (hunit : 1 ≤ unit.count) : (∀ e ∈ new, 1 ≤ e.count) ∧ ∀ e ∈ given, 1 ≤ e.count := by
  cases h with
  | settled => simpa using hunit
  | @merged resident hk =>
    have hr : 1 ≤ resident.count := hold resident rfl
    refine ⟨fun e he => ?_, by simp⟩
    rw [← Option.mem_some.mp he]
    show 1 ≤ resident.count + unit.count
    omega
  | displaced => exact ⟨by simpa using hunit, hold⟩
  | passed => exact ⟨hold, by simpa using hunit⟩

/-- The key that is left behind was resident before or is that of the unit. -/
theorem key_of_new (h : Exchange unit old new given) {e : Entry} (he : e ∈ new) :
    e.key = unit.key ∨ ∃ e₀ ∈ old, e.key = e₀.key := by
  cases h with
  | settled => exact Or.inl (by rw [Option.mem_some.mp he])
  | merged hk => exact Or.inl (by rw [← Option.mem_some.mp he, hk])
  | displaced => exact Or.inl (by rw [Option.mem_some.mp he])
  | passed => exact Or.inr ⟨e, he, rfl⟩

end Exchange

/-! ## Rows -/

namespace Row

variable {α : Type} [Cell α] {r : Row α}

/-- The resident at a position of a row. -/
def residentAt (r : Row α) (position : Nat) : Option Entry :=
  r.cells[position]?.bind Cell.resident

/-- A row with cells in which every resident has weight and sits in the bucket of its key. -/
structure Placed (r : Row α) : Prop where
  length_pos : 0 < r.length
  position_eq : ∀ i, ∀ e ∈ r.residentAt i, r.position e.key = i
  positive : ∀ i, ∀ e ∈ r.residentAt i, 1 ≤ e.count

omit [Cell α] in
theorem mem_cells_of_get {key : Key} {cell : α} (h : r.get key = .ok cell) : cell ∈ r.cells :=
  Array.mem_of_getElem? (get_eq_ok_iff.mp h)

omit [Cell α] in
/-- What holds of all cells and of a new one holds of all cells afterwards. -/
theorem forall_mem_cells_set {P : α → Prop} {key : Key} {cell : α}
    (h : ∀ c ∈ r.cells, P c) (hcell : P cell) : ∀ c ∈ (r.set key cell).cells, P c := by
  intro c hc
  rcases Array.mem_or_eq_of_mem_setIfInBounds hc with hc | rfl
  · exact h c hc
  · exact hcell

theorem residentAt_of_get {key : Key} {cell : α} (h : r.get key = .ok cell) :
    r.residentAt (r.position key) = Cell.resident cell := by
  rw [residentAt, get_eq_ok_iff.mp h, Option.bind_some]

theorem residentAt_set (h : 0 < r.length) (key : Key) (cell : α) (i : Nat) :
    (r.set key cell).residentAt i
      = if i = r.position key then Cell.resident cell else r.residentAt i := by
  have hk := r.position_lt key h
  unfold residentAt set
  rw [Array.getElem?_setIfInBounds]
  by_cases hi : i = r.position key
  · rw [if_pos hi, if_pos hi.symm, if_pos hk, Option.bind_some]
  · rw [if_neg hi, if_neg (Ne.symm hi)]

theorem mem_residents {e : Entry} : e ∈ r.residents ↔ ∃ i, e ∈ r.residentAt i := by
  unfold residents residentAt
  rw [List.mem_filterMap]
  constructor
  · rintro ⟨cell, hc, he⟩
    obtain ⟨i, hi⟩ := List.getElem?_of_mem hc
    exact ⟨i, by rw [← Array.getElem?_toList, hi]; exact he⟩
  · rintro ⟨i, hi⟩
    obtain ⟨cell, hc, he⟩ := Option.bind_eq_some_iff.mp hi
    exact ⟨cell, List.mem_of_getElem? (by rw [Array.getElem?_toList]; exact hc), he⟩

theorem Placed.residents_positive (h : r.Placed) : ∀ e ∈ r.residents, 1 ≤ e.count := by
  intro e he
  obtain ⟨i, hi⟩ := mem_residents.mp he
  exact h.positive i e hi

/-- A row of empty cells is placed. -/
theorem placed_fill {length : Nat} {cell : α} (hl : length ≠ 0) (hc : Cell.resident cell = none)
    (hash : KeyHash) : (fill length cell hash).Placed := by
  have hnone : ∀ i, (fill length cell hash).residentAt i = none := by
    intro i
    unfold residentAt fill
    rw [Array.getElem?_replicate]
    split
    · exact hc
    · rfl
  refine ⟨by rw [length_fill]; omega, ?_, ?_⟩
  · intro i e he
    rw [hnone i] at he
    cases he
  · intro i e he
    rw [hnone i] at he
    cases he

theorem residents_fill {length : Nat} {cell : α} (hc : Cell.resident cell = none)
    (hash : KeyHash) : (fill length cell hash).residents = [] := by
  unfold residents fill
  rw [Array.toList_replicate, List.filterMap_eq_nil_iff]
  intro c hcm
  rw [List.eq_of_mem_replicate hcm, hc]

/-- A row with cells has a weight for every key. -/
theorem exists_weight_eq_ok (r : Row α) (key : Key) (h : 0 < r.length) :
    ∃ count, r.weight key = .ok count := by
  obtain ⟨cell, hget⟩ := r.exists_get_eq_ok key h
  rw [weight, hget]
  cases hr : Cell.resident cell with
  | none => exact ⟨0, by simp [bind, Except.bind, hr, pure, Except.pure]⟩
  | some e => exact ⟨if e.key = key then e.count
      else 0, by simp [bind, Except.bind, hr, pure, Except.pure]⟩

/-- **A query of a placed row finds all that the row holds of the key.** -/
theorem Placed.weight_eq (h : r.Placed) (key : Key) :
    r.weight key = .ok (weightOf (· == key) r.residents) := by
  obtain ⟨cell, hc⟩ := exists_get_eq_ok r key h.length_pos
  -- no other bucket holds anything of the key
  have honly : weightOf (· == key) r.residents
      = weightOf (· == key) (Cell.resident cell).toList := by
    have hcell : r.cells.toList[r.position key]? = some cell := by
      rw [Array.getElem?_toList]
      exact get_eq_ok_iff.mp hc
    rw [residents, weightOf_filterMap_of_only (i := r.position key), hcell, Option.bind_some]
    intro j a e ha he hk
    rw [Array.getElem?_toList] at ha
    rw [← h.position_eq j e (by rw [residentAt, ha]; exact he), eq_of_beq hk]
  rw [honly, weight, hc]
  cases hr : Cell.resident cell with
  | none => simp [bind, Except.bind, hr, pure, Except.pure]
  | some e => simp [bind, Except.bind, hr, pure, Except.pure, beq_iff_eq]

/-- A row stays placed if a key's bucket gets a resident with weight that is of this
key or of the resident before. -/
theorem Placed.set_resident (h : r.Placed) {key : Key} {old new : α} (hget : r.get key = .ok old)
    (hnew : ∀ e ∈ Cell.resident new,
      1 ≤ e.count ∧ (e.key = key ∨ ∃ e₀ ∈ Cell.resident old, e.key = e₀.key)) :
    (r.set key new).Placed := by
  have hat := residentAt_of_get hget
  refine ⟨by rw [length_set]; exact h.length_pos, ?_, ?_⟩
  · intro i e he
    rw [residentAt_set h.length_pos] at he
    rw [position_set]
    split at he
    · next hi =>
      -- the resident before sat in this bucket
      rcases (hnew e he).2 with hk | ⟨e₀, he₀, hk⟩
      · rw [hk, hi]
      · rw [hk, hi]
        exact h.position_eq _ e₀ (hat ▸ he₀)
    · exact h.position_eq i e he
  · intro i e he
    rw [residentAt_set h.length_pos] at he
    split at he
    · exact (hnew e he).1
    · exact h.positive i e he

/-- **An exchange at a key's bucket keeps the row placed and hands the unit over.** -/
theorem Placed.set (h : r.Placed) (unit : Entry) {old : α} (new : α) {given : Option Entry}
    (hget : r.get unit.key = .ok old)
    (hex : Exchange unit (Cell.resident old) (Cell.resident new) given)
    (hunit : 1 ≤ unit.count) :
    (r.set unit.key new).Placed ∧
      Transfer unit r.residents (r.set unit.key new).residents given := by
  have hat := residentAt_of_get hget
  have hpos := hex.positive (fun e he => h.positive _ e (hat ▸ he)) hunit
  refine ⟨h.set_resident hget fun e he => ⟨hpos.1 e he, hex.key_of_new he⟩, hpos.2, ?_⟩
  · intro select
    have hcell : r.cells.toList[r.position unit.key]? = some old := by
      rw [Array.getElem?_toList]
      exact get_eq_ok_iff.mp hget
    have hset := weightOf_filterMap_set select (f := Cell.resident) new hcell
    have hw := hex.weight_eq select
    rw [← Array.toList_setIfInBounds] at hset
    show weightOf select (List.filterMap _ (r.cells.setIfInBounds _ new).toList) + _
      = weightOf select (List.filterMap _ r.cells.toList) + _
    omega

/-- **A rule that only makes exchanges keeps the row placed and hands the unit over.** -/
theorem Placed.modify (h : r.Placed) {r' : Row α} {unit : Entry} {given : Option Entry}
    {rule : α → Checked (α × Option Entry)}
    (hrule : ∀ old new given, (∀ e ∈ Cell.resident old, 1 ≤ e.count) →
      rule old = .ok (new, given) → Exchange unit (Cell.resident old) (Cell.resident new) given)
    (hm : r.modify unit.key rule = .ok (r', given)) (hunit : 1 ≤ unit.count) :
    r'.Placed ∧ Transfer unit r.residents r'.residents given := by
  obtain ⟨old, new, hget, hnew, rfl⟩ := modify_eq_ok_iff.mp hm
  have hold : ∀ e ∈ Cell.resident old, 1 ≤ e.count :=
    fun e he => h.positive _ e (residentAt_of_get hget ▸ he)
  exact h.set unit new hget (hrule old new given hold hnew) hunit

end Row

/-! ## Rules of admission -/

theorem Entry.resident_eq_some_iff {cell e : Entry} :
    Cell.resident cell = some e ↔ cell.count ≠ 0 ∧ cell = e := by
  show (if cell.isEmpty = true then none else some cell) = some e ↔ _
  by_cases h : cell.count = 0
  · rw [if_pos (Record.isEmpty_iff.mpr h)]
    simp [h]
  · rw [if_neg (mt Record.isEmpty_iff.mp h)]
    simp [h]

theorem Entry.resident_of_isEmpty {cell : Entry} (h : cell.isEmpty = true) :
    Cell.resident cell = none :=
  if_pos h

theorem Entry.resident_of_pos {cell : Entry} (h : 1 ≤ cell.count) :
    Cell.resident cell = some cell :=
  Entry.resident_eq_some_iff.mpr ⟨by omega, rfl⟩

/-- In a cell in which the heavier unit stays, every offer is an exchange. -/
theorem Entry.exchange_of_keepHeavier {old new unit : Entry} {given : Option Entry}
    (hunit : 1 ≤ unit.count) (hold : ∀ e ∈ Cell.resident old, 1 ≤ e.count)
    (h : old.keepHeavier unit = .ok (new, given)) :
    Exchange unit (Cell.resident old) (Cell.resident new) given := by
  unfold keepHeavier at h
  split at h
  · next he =>
    obtain ⟨rfl, rfl⟩ : unit = new ∧ none = given := by simpa using h
    rw [resident_of_isEmpty he, resident_of_pos hunit]
    exact .settled
  · next he =>
    have hres : Cell.resident old = some old := if_neg he
    have hpos : 1 ≤ old.count := hold old hres
    rw [hres]
    split at h
    · next hk =>
      obtain ⟨count, hc, h⟩ := Checked.bind_eq_ok.mp h
      obtain ⟨rfl, rfl⟩ : ⟨old.key, count⟩ = new ∧ none = given := by
        simpa using Checked.pure_eq_ok.mp h
      obtain ⟨-, rfl⟩ := Count.plus_eq_ok_iff.mp hc
      rw [resident_of_pos (show 1 ≤ old.count + unit.count by omega)]
      exact .merged hk
    · next hk =>
      split at h
      · obtain ⟨rfl, rfl⟩ : unit = new ∧ some old = given := by simpa using h
        rw [resident_of_pos hunit]
        exact .displaced hk
      · obtain ⟨rfl, rfl⟩ : old = new ∧ some unit = given := by simpa using h
        rw [hres]
        exact .passed hk

end HeavyHitters
