import HeavyHitters.Proofs.Tracker.Pipelines

/-!
# Room for one more unit

An insert overflows only where a counter has to pass the greatest count.  What a cell holds of a key
is part of what the whole structure holds of it, so a structure has room for a unit as long as all
that it holds of a key, together with the unit, can be counted.

* `Cell.Within` is room at one cell; `Entry.plus_of_within` says that the sum made there fits, and
  `Row.Placed.exists_modify` takes a rule that has a value on such cells to rows.
* `Transfer.passed_le` says that what a stage gives on weighs of each key no more
  than what it held of it together with the unit, and `exists_cascade` takes the
  room from one stage to a list of them.
* `Tracker.Conserves.exists_insertAll` takes it from one insert to a run, and
  `Tracker.Conserves.exists_insertAll_of_empty` is the case of a new tracker.
-/

namespace HeavyHitters

variable {unit : Entry} {bound : Key → Int}

/-! ## Cells -/

/-- A cell that has weight, and of the key of its resident no more than the
bound together with a unit. -/
def Cell.Within {α : Type} [Cell α] (bound : Key → Int) (unit : Entry) (cell : α) : Prop :=
  ∀ e ∈ Cell.resident cell, 1 ≤ e.count ∧ weightOf (· == e.key) [e, unit] ≤ bound e.key

namespace Entry

variable {resident : Entry}

/-- A unit can be added to the resident of its key, if a counter can hold the bound. -/
theorem plus_of_within (hunit : 1 ≤ unit.count) (hwithin : Cell.Within bound unit resident)
    (hroom : ∀ key, bound key ≤ Count.greatest) (hempty : ¬resident.isEmpty = true)
    (hkey : resident.key = unit.key) :
    Count.plus resident.count unit.count = .ok (resident.count + unit.count) := by
  obtain ⟨hcount, hbound⟩ := hwithin resident (if_neg hempty)
  have hlimit := hroom resident.key
  have hweight : weightOf (· == resident.key)
    [resident, unit] = resident.count + unit.count := by simp [hkey]
  exact Count.narrow_of_fits (Count.fits_of_bounds (by omega) (by omega))

/-- So an offer to a cell in which the heavier unit stays has a value. -/
theorem exists_keepHeavier (hunit : 1 ≤ unit.count) (hwithin : Cell.Within bound unit resident)
    (hroom : ∀ key, bound key ≤ Count.greatest) :
    ∃ cell given, resident.keepHeavier unit = .ok (cell, given) := by
  unfold keepHeavier
  by_cases hempty : resident.isEmpty = true
  · exact ⟨unit, none, if_pos hempty⟩
  rw [if_neg hempty]
  by_cases hkey : resident.key = unit.key
  · rw [if_pos hkey, plus_of_within hunit hwithin hroom hempty hkey]
    exact ⟨⟨resident.key, resident.count + unit.count⟩, none, rfl⟩
  · rw [if_neg hkey]
    split
    · exact ⟨unit, some resident, rfl⟩
    · exact ⟨resident, some unit, rfl⟩

end Entry

/-! ## Rows -/

namespace Row.Placed

variable {α : Type} [Cell α] {row : Row α}

/-- What the bucket of a key holds is part of what the row holds. -/
theorem within_of_get (hrow : row.Placed)
    (hbound : ∀ key, weightOf (· == key) row.residents + weightOf (· == key) [unit] ≤ bound key)
    {key : Key} {cell : α} (hget : row.get key = .ok cell) : Cell.Within bound unit cell := by
  intro e he
  rw [← Row.residentAt_of_get hget] at he
  have hpos : ∀ u ∈ row.residents, 0 ≤ u.count := fun u hu => by
    have := hrow.residents_positive u hu
    omega
  have hheld : e.count ≤ weightOf (· == e.key) row.residents :=
    le_weightOf_of_mem hpos (Row.mem_residents.mpr ⟨_, he⟩) (beq_self_eq_true _)
  have hle := hbound e.key
  refine ⟨hrow.positive _ e he, ?_⟩
  rw [weightOf_cons, if_pos (beq_self_eq_true _)]
  omega

/-- A rule that has a value on every cell within the bound has one on a row that is, and what it
keeps of a cell is kept of all cells. -/
theorem exists_modify {P : α → Prop} (hrow : row.Placed)
    {rule : α → Checked (α × Option Entry)} (hcells : ∀ cell ∈ row.cells, P cell)
    (hbound : ∀ key, weightOf (· == key) row.residents + weightOf (· == key) [unit] ≤ bound key)
    (hrule : ∀ cell, P cell → Cell.Within bound unit cell → ∃ cell' given,
      rule cell = .ok (cell', given) ∧ P cell') :
    ∃ row' given, row.modify unit.key rule = .ok (row', given) ∧ ∀ cell ∈ row'.cells, P cell := by
  obtain ⟨cell, hget⟩ := row.exists_get_eq_ok unit.key hrow.length_pos
  obtain ⟨cell', given, hvalue, hcell'⟩ :=
    hrule cell (hcells cell (Row.mem_cells_of_get hget)) (hrow.within_of_get hbound hget)
  exact ⟨row.set unit.key cell', given, Row.modify_eq_ok_iff.mpr ⟨cell, cell', hget, hvalue, rfl⟩,
    Row.forall_mem_cells_set hcells hcell'⟩

/-- If all that the rule does are exchanges, the unit is handed over to the row. -/
theorem exists_exchange (hrow : row.Placed) {rule : α → Checked (α × Option Entry)}
    (hunit : 1 ≤ unit.count)
    (hbound : ∀ key, weightOf (· == key) row.residents + weightOf (· == key) [unit] ≤ bound key)
    (hvalue : ∀ cell, Cell.Within bound unit cell → ∃ cell' given, rule cell = .ok (cell', given))
    (hrule : ∀ old new given, (∀ e ∈ Cell.resident old, 1 ≤ e.count) →
      rule old = .ok (new, given) → Exchange unit (Cell.resident old) (Cell.resident new) given) :
    ∃ row' given, row.modify unit.key rule = .ok (row', given) ∧ row'.Placed ∧
      Transfer unit row.residents row'.residents given := by
  obtain ⟨row', given, hmodify, -⟩ := hrow.exists_modify (fun _ _ => trivial) hbound
    fun cell _ hwithin => (hvalue cell hwithin).imp fun _ => Exists.imp fun _ h => ⟨h, trivial⟩
  exact ⟨row', given, hmodify, hrow.modify hrule hmodify hunit⟩

/-- So it is to a row in which the heavier unit stays. -/
theorem exists_keepHeavier {row : Row Entry} (hrow : row.Placed)
    (hroom : ∀ key, bound key ≤ Count.greatest) (hunit : 1 ≤ unit.count)
    (hbound : ∀ key, weightOf (· == key) row.residents + weightOf (· == key) [unit] ≤ bound key) :
    ∃ row' given, row.modify unit.key (·.keepHeavier unit) = .ok (row', given) ∧ row'.Placed ∧
      Transfer unit row.residents row'.residents given :=
  hrow.exists_exchange hunit hbound (fun _ hwithin => Entry.exists_keepHeavier hunit hwithin hroom)
    fun _ _ _ hold hn => Entry.exchange_of_keepHeavier hunit hold hn

end Row.Placed

/-! ## Stages -/

/-- What is given on weighs of each key no more than what was held of it together with the unit. -/
theorem Transfer.passed_le {passed : Entry} {before after : List Entry}
    (h : Transfer unit before after (some passed)) (hafter : ∀ e ∈ after, 1 ≤ e.count)
    (select : Key → Bool) :
    weightOf select [passed] ≤ weightOf select before + weightOf select [unit] := by
  have hweight := h.weight_eq select
  have hheld : 0 ≤ weightOf select after := weightOf_nonneg fun e he => by
    have := hafter e he
    omega
  rw [Option.toList_some] at hweight
  omega

/-- **A unit finds its way through stages with room**: if they hold of each key no more
than the bound together with the unit, and each of them takes in or gives on whatever
leaves it within the bound. -/
theorem exists_cascade {σ : Type} {residents : σ → List Entry} {Good : σ → Prop}
    {offer : σ → Entry → Checked (σ × Option Entry)}
    (positive : ∀ s, Good s → ∀ e ∈ residents s, 1 ≤ e.count)
    (step : ∀ s (unit : Entry), Good s → 1 ≤ unit.count →
      (∀ key, weightOf (· == key) (residents s) + weightOf (· == key) [unit] ≤ bound key) →
      ∃ s' given, offer s unit = .ok (s', given) ∧ Good s' ∧
      Transfer unit (residents s) (residents s') given)
    {stages : List σ} (h : ∀ s ∈ stages, Good s) (hunit : 1 ≤ unit.count)
    (hbound : ∀ key, weightOf (· == key) (stages.flatMap residents) +
      weightOf (· == key) [unit] ≤ bound key) :
    ∃ stages' out, cascade offer stages unit = .ok (stages', out) ∧ ∀ s ∈ stages', Good s := by
  induction stages generalizing unit with
  | nil => exact ⟨[], some unit, rfl, h⟩
  | cons stage stages ih =>
    obtain ⟨hstage, hrest⟩ := List.forall_mem_cons.mp h
    have hshare : ∀ key, 0 ≤ weightOf (· == key) (stages.flatMap residents) := fun key =>
      weightOf_nonneg fun e he => by
        obtain ⟨s, hs, he⟩ := List.mem_flatMap.mp he
        have := positive s (hrest s hs) e he
        omega
    simp only [List.flatMap_cons, weightOf_append] at hbound
    obtain ⟨stage', given, hoffer, hstage', htransfer⟩ := step stage unit hstage hunit fun key => by
      have := hbound key
      have := hshare key
      omega
    rw [cascade, hoffer]
    cases given with
    | none => exact ⟨stage' :: stages, none, rfl, List.forall_mem_cons.mpr ⟨hstage', hrest⟩⟩
    | some passed =>
      obtain ⟨rest, out, hcascade, hgood⟩ := ih hrest (htransfer.positive passed rfl) fun key => by
        have := htransfer.passed_le (positive stage' hstage') (· == key)
        have := hbound key
        omega
      refine ⟨stage' :: rest, out, ?_, List.forall_mem_cons.mpr ⟨hstage', hgood⟩⟩
      simp only [bind, Except.bind, hcascade]
      rfl

/-! ## Runs -/

/-- **A tracker with room for what is yet to come has a run on it**: if it conserves weight
and every insert has a value as long as all that is held of each key is within the bound
together with the new unit. -/
theorem Tracker.Conserves.exists_insertAll {τ : Type} [Tracker τ]
    {Inv : τ → Prop} (h : Conserves Inv) (Ready : τ → Prop)
    (step : ∀ (t : τ) (key : Key), Inv t → Ready t →
      (∀ other, weightOf (· == other) (residents t) +
        weightOf (· == other) [⟨key, 1⟩] ≤ bound other) →
      ∃ t' out, insert t key = .ok (t', out) ∧ Ready t')
    {t : τ} {keys : List Key} (ht : Inv t) (hready : Ready t)
    (hbound : ∀ key, weightOf (· == key) (residents t) + keys.count key ≤ bound key) :
    ∃ t' outs, insertAll t keys = .ok (t', outs) := by
  induction keys generalizing t with
  | nil => exact ⟨t, [], rfl⟩
  | cons key keys ih =>
    have hcount : ∀ other, ((key :: keys).count other : Int)
        = weightOf (· == other) [⟨key, 1⟩] + keys.count other := by
      intro other
      simp only [List.count_cons, weightOf_cons, weightOf_nil]
      split <;> simp_all [Int.add_comm]
    simp only [hcount] at hbound
    obtain ⟨t₁, out, hinsert, hready₁⟩ := step t key ht hready fun other => by
      have := hbound other
      omega
    have hgiven : ∀ other, 0 ≤ weightOf (· == other) out.toList := fun other =>
      weightOf_nonneg fun e he => by
        have := h.out_positive ht hinsert e (Option.mem_toList.mp he)
        omega
    obtain ⟨t', outs, run⟩ := ih (h.inv_insert ht hinsert) hready₁ fun other => by
      have := h.account ht hinsert (· == other)
      have := hgiven other
      have := hbound other
      omega
    exact ⟨t', out :: outs, Tracker.insertAll_cons_eq_ok.mpr ⟨t₁, out, outs, hinsert, run, rfl⟩⟩

/-- A new tracker on which every insert has a value while what it holds of each key can be counted
together with the new unit has a run on as many keys as can be counted. -/
theorem Tracker.Conserves.exists_insertAll_of_empty {τ : Type} [Tracker τ]
    {Inv : τ → Prop} (h : Conserves Inv) (step : ∀ (t : τ) (key : Key), Inv t →
      (∀ other, weightOf (· == other) (residents t) +
        weightOf (· == other) [⟨key, 1⟩] ≤ Count.greatest) →
      ∃ t' out, insert t key = .ok (t', out))
    {t : τ} {keys : List Key} (ht : Inv t) (hempty : residents t = [])
    (hlength : (keys.length : Int) ≤ Count.greatest) :
    ∃ t' outs, insertAll t keys = .ok (t', outs) := by
  have hroom : ∀ key, weightOf (· == key) (residents t) + keys.count key ≤ Count.greatest := by
    intro key
    have : keys.count key ≤ keys.length := List.count_le_length
    rw [hempty, weightOf_nil]
    omega
  refine h.exists_insertAll (fun _ => True) (fun t key ht _ hbound => ?_) ht trivial hroom
  obtain ⟨t', out, hinsert⟩ := step t key ht hbound
  exact ⟨t', out, hinsert, trivial⟩

end HeavyHitters
