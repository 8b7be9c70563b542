import HeavyHitters.Proofs.Estimator.CountMin
import HeavyHitters.Proofs.Estimator.Ranking

/-!
# The counters and the owners of a Coco sketch

The count of a bucket takes no part in the draws: it is the weight of all that came to the
bucket.  So a Coco sketch without its keys is a count-min sketch, insert by insert, and what
is proved of count-min counters holds of buckets.  The draws decide only which of the keys
that came to a bucket owns it.

A key is answered by the median over the rows of the counts that it owns.  Each of these is zero
or the counter of the key's bucket, which covers the weight of the key; with an odd number of
rows the median is one of them.

* `CocoSketch.counters_insertAll` runs the two sketches in lockstep.
* `CocoSketch.OwnedBy` is the invariant of the owners.
* `CocoSketch.Counted` is what a sketch is to the units that were inserted, and
  `CocoSketch.counted_of_insertAll` says that every run of a built sketch leads to it.
-/

namespace HeavyHitters

/-! ## Rows of images -/

namespace Row

variable {α β : Type} {key : Key}

/-- The row of the images of all cells. -/
def map (image : α → β) (row : Row α) : Row β := ⟨row.hash, row.cells.map image⟩

@[simp] theorem position_map (image : α → β) (row : Row α) (key : Key) :
    (row.map image).position key = row.position key := by
  simp [map, position, Row.length]

theorem map_table (image : α → β) (hashes : List KeyHash) (length : Nat) (cell : α) :
    (table hashes length cell).map (map image) = table hashes length (image cell) := by
  simp [table, map, fill]

theorem get_map (image : α → β) (row : Row α) (key : Key) :
    (row.map image).get key = image <$> row.get key := by
  unfold get
  rw [position_map]
  simp only [map, Array.getElem?_map]
  cases row.cells[row.position key]? <;> rfl

/-- A change of the images is the image of the change. -/
theorem update_map {image : α → β} {change : α → Checked α} {change' : β → Checked β}
    (h : ∀ cell, change' (image cell) = image <$> change cell) (row : Row α) (key : Key) :
    (row.map image).update key change' = map image <$> row.update key change := by
  unfold update modify
  simp only [position_map]
  simp only [map, Array.getElem?_map]
  cases row.cells[row.position key]? with
  | none => rfl
  | some cell =>
    simp only [Option.map_some, h]
    cases change cell with
    | error fault => rfl
    | ok new => simp [Functor.map, Except.map, bind, Except.bind, pure, Except.pure, map]

end Row

namespace CocoSketch

variable {ρ : Type} {key : Key} {weight : Int} {units : List Entry}

/-! ## Lockstep with count-min -/

/-- The counts of a row's buckets. -/
def counts (row : Row Entry) : Row Int := row.map (·.count)

/-- The count-min sketch of the counts of all buckets. -/
def counters (s : CocoSketch ρ) : CountMin := ⟨s.rows.map counts⟩

/-- The count of a bucket grows by the weight, whatever is drawn. -/
theorem count_absorb (key : Key) (weight : Int) (draw : Float) (bucket : Entry) :
    Count.plus bucket.count weight = (·.count) <$> absorb key weight draw bucket := by
  unfold absorb
  cases Count.plus bucket.count weight <;> rfl

section

variable [RandomSource ρ]

theorem counts_absorbAll (key : Key) (weight : Int) (rows : List (Row Entry)) (source : ρ) :
    (rows.map counts).mapM (fun row => row.update key (Count.plus · weight))
      = (fun result => result.1.map counts) <$> absorbAll key weight rows source := by
  induction rows generalizing source with
  | nil => rfl
  | cons row rows ih =>
    have hrow : (counts row).update key (Count.plus · weight)
        = counts <$> row.update key (absorb key weight (RandomSource.fraction source).1) :=
      Row.update_map (count_absorb key weight _) row key
    rw [List.map_cons, List.mapM_cons, absorbAll, hrow]
    simp only [ih (RandomSource.fraction source).2, bind_map_left, map_bind]
    rfl

theorem counters_insert (s : CocoSketch ρ) (unit : Entry) :
    Estimator.insert s.counters unit.key unit.count
      = counters <$> Estimator.insert s unit.key unit.count := by
  show CountMin.insert s.counters unit.key unit.count = counters <$> insert s unit.key unit.count
  unfold CountMin.insert insert counters
  rw [counts_absorbAll unit.key unit.count s.rows s.source]
  simp only [bind_map_left, map_bind]
  rfl

/-- **A Coco sketch counts as a count-min sketch does**, and faults where that does. -/
theorem counters_insertAll (s : CocoSketch ρ) (units : List Entry) :
    Estimator.insertAll s.counters units = counters <$> Estimator.insertAll s units :=
  Checked.foldlM_hom counters_insert units s

end

/-- Where a Coco sketch is built, a count-min sketch of buckets of the same
width is built of its counters. -/
theorem ofBudget_counters {source : UInt64 → ρ} {memory rows : Nat}
    {seed : UInt64} {s : CocoSketch ρ} (h : ofBudget source memory rows seed = .ok s) :
    CountMin.ofBudget memory rows 8 seed = .ok s.counters := by
  obtain ⟨length, hlength, h⟩ := Checked.bind_eq_ok.mp h
  obtain ⟨⟨⟩, hreserve, h⟩ := Checked.bind_eq_ok.mp h
  obtain rfl := Checked.pure_eq_ok.mp h
  -- counters take half the bytes of the buckets that they are charged for
  have hblocks := reserveRows_eq_ok_iff.mp (Outcome.ofChecked_eq_ok.mp hreserve)
  have hreserve' : reserveRows rows length Count.width = .ok () := by
    refine reserveRows_eq_ok_iff.mpr ⟨hblocks.1, ?_⟩
    have := hblocks.2
    unfold Count.width
    omega
  refine Checked.bind_eq_ok.mpr ⟨length, rowLength_of_subject hlength, ?_⟩
  refine Checked.bind_eq_ok.mpr ⟨(), Outcome.ofChecked_eq_ok.mpr hreserve', ?_⟩
  have hrows := Row.map_table (·.count) (SeedStream.hashes ⟨seed⟩ rows).1 length Entry.empty
  exact congrArg (fun rows => Except.ok (CountMin.mk rows)) hrows.symm

/-! ## Owners -/

/-- An owned row of which every resident is the key of a unit. -/
structure OwnedBy (units : List Entry) (row : Row Entry) : Prop extends Owned row where
  inserted : ∀ i, ∀ e ∈ row.residentAt i, ∃ unit ∈ units, unit.key = e.key

theorem ownedBy_of_ofBudget {source : UInt64 → ρ} {memory rows : Nat}
    {seed : UInt64} {s : CocoSketch ρ} (h : ofBudget source memory rows seed = .ok s) :
    ∀ row ∈ s.rows, OwnedBy [] row := by
  intro row hr
  refine ⟨owned_of_ofBudget h row hr, fun i e he => ?_⟩
  obtain ⟨length, -, -, -, rfl⟩ := exists_length_of_budget h
  obtain ⟨hash, rfl⟩ := mem_table hr
  have hmem := Row.mem_residents.mpr ⟨i, he⟩
  rw [Row.residents_fill rfl] at hmem
  cases hmem

/-- A unit leaves each bucket to the owner before or to its own key. -/
theorem OwnedBy.update {row row' : Row Entry} {unit : Entry} {draw : Float}
    (hrow : OwnedBy units row) (hunit : 1 ≤ unit.count)
    (h : row.update unit.key (absorb unit.key unit.count draw) = .ok row') :
    OwnedBy (units ++ [unit]) row' := by
  refine ⟨hrow.toOwned.update hunit h, fun i e he => ?_⟩
  obtain ⟨old, new, hget, habsorb, rfl⟩ := Row.update_eq_ok_iff.mp h
  have hat := Row.residentAt_of_get hget
  have hold : ∀ j, ∀ e₀ ∈ row.residentAt j, ∃ other ∈ units ++ [unit], other.key = e₀.key := by
    intro j e₀ he₀
    obtain ⟨other, ho, hkey⟩ := hrow.inserted j e₀ he₀
    exact ⟨other, List.mem_append_left [unit] ho, hkey⟩
  rw [Row.residentAt_set hrow.length_pos] at he
  split at he
  · have hresident := resident_of_absorb hunit
      (fun e₀ he₀ => hrow.positive _ e₀ (hat ▸ he₀)) habsorb e he
    rcases hresident.1.2 with hkey | ⟨e₀, he₀, hkey⟩
    · exact ⟨unit, List.mem_append_right units List.mem_cons_self, hkey.symm⟩
    · rw [hkey]
      exact hold _ e₀ (hat ▸ he₀)
  · exact hold i e he

/-- **Only inserted keys own buckets**, whatever is drawn. -/
theorem ownedBy_of_insertAll [RandomSource ρ] {start s : CocoSketch ρ}
    (h : ∀ row ∈ start.rows, OwnedBy [] row) (hunits : ∀ unit ∈ units, 1 ≤ unit.count)
    (run : Estimator.insertAll start units = .ok s) : ∀ row ∈ s.rows, OwnedBy units row := by
  refine @Checked.past_foldlM _ _ _ (fun past (s : CocoSketch ρ) => ∀ row ∈ s.rows,
    OwnedBy past row) _ _ ?_
    [] units start s h hunits run
  intro past s s' unit hs hunit hi row' hr
  obtain ⟨⟨rows, source⟩, hall, hi⟩ := Checked.bind_eq_ok.mp hi
  obtain rfl := Checked.pure_eq_ok.mp hi
  obtain ⟨row, hrow, draw, hupdate⟩ := exists_update_of_mem hall hr
  exact (hs row hrow).update hunit hupdate

/-! ## Answers -/

/-- What a placed row holds of a key is nothing or the whole count of the key's bucket. -/
theorem weight_cases {row : Row Entry} (h : row.Placed) (key : Key) :
    weightOf (· == key) row.residents = 0 ∨
      (counts row).get key = .ok (weightOf (· == key) row.residents) := by
  obtain ⟨cell, hget⟩ := row.exists_get_eq_ok key h.length_pos
  have hweight := h.weight_eq key
  rw [Row.weight, hget] at hweight
  rw [counts, Row.get_map, hget]
  cases hr : Cell.resident cell with
  | none =>
    left
    simpa [hr, bind, Except.bind, pure, Except.pure] using hweight.symm
  | some e =>
    obtain ⟨-, rfl⟩ := Entry.resident_eq_some_iff.mp hr
    by_cases hkey : cell.key = key
    · right
      simpa [hr, hkey, bind, Except.bind, pure, Except.pure] using hweight
    · left
      simpa [hr, hkey, bind, Except.bind, pure, Except.pure] using hweight.symm

/-- A row has the buckets that it was built with. -/
theorem position_eq {start s : CocoSketch ρ} {index : Nat} {row row' : Row Entry}
    (hcounters : s.counters = start.counters.totals units) (hrow : start.rows[index]? = some row)
    (hrow' : s.rows[index]? = some row') (key : Key) : row'.position key = row.position key := by
  have hsame : some (counts row') = some ((counts row).totals units) := by
    have := congrArg (fun twin : CountMin => twin.rows[index]?) hcounters
    simpa [counters, CountMin.totals, hrow, hrow'] using this
  have hposition := congrArg (Row.position · key) (Option.some.inj hsame)
  simpa [counts] using hposition

section

variable [RandomSource ρ] {start s : CocoSketch ρ}

/-- With an odd number of rows an answer is nothing or the count of a bucket of the key. -/
theorem query_cases (hvacant : start.counters.Vacant)
    (hcounters : s.counters = start.counters.totals units) (hplaced : ∀ row ∈ s.rows, Owned row)
    (hunits : ∀ unit ∈ units, 0 ≤ unit.count) (hodd : s.height % 2 = 1) (key : Key) :
    ∃ answer, Estimator.query s key = .ok answer ∧
      (answer = 0 ∨ weightOf (· == key) units ≤ answer) := by
  refine ⟨_, congrArg Outcome.ofChecked (query_eq hplaced key), ?_⟩
  have hlength : (weights s.rows key).length % 2 = 1 := by rwa [weights, List.length_map]
  obtain ⟨row, hr, hmedian⟩ : ∃ row ∈ s.rows,
      weightOf (· == key) row.residents = Count.median (weights s.rows key) :=
    List.mem_map.mp (Count.median_mem_of_odd hlength)
  rw [← hmedian]
  refine (weight_cases (hplaced row hr).toPlaced key).imp_right fun hget => ?_
  -- the bucket has the weight of all its keys
  have hmem : counts row ∈ (start.counters.totals units).rows := hcounters ▸ List.mem_map_of_mem hr
  obtain ⟨counter, hcounter, htotals⟩ := List.mem_map.mp hmem
  rw [← htotals, Row.get_totals (hvacant.rows_vacant counter hcounter).length_pos] at hget
  exact Except.ok.inj hget ▸ counter.weightOf_le_shares hunits key

/-- What a sketch is to the units of weight that were inserted into a built one, and to the
count-min sketch of the same units. -/
structure Counted (start s : CocoSketch ρ) (twin : CountMin) (units : List Entry) : Prop where
  /-- Each bucket has the count of the counter in the same cell. -/
  count_eq : ∀ index bucket : Nat,
    (s.rows[index]?.bind fun row => row.cells[bucket]?.map (·.count))
      = twin.rows[index]?.bind fun row => row.cells[bucket]?
  /-- The key of a bucket that is not empty was inserted, and this is its bucket. -/
  owner : ∀ (index : Nat) (row : Row Entry), start.rows[index]? = some row →
    ∀ (bucket : Nat) (cell : Entry),
    (s.rows[index]?.bind fun row' => row'.cells[bucket]?) = some cell → cell.count ≠ 0 →
      row.position cell.key = bucket ∧ ∃ unit ∈ units, unit.key = cell.key
  /-- With an odd number of rows the answer for a key is zero or no less than its weight. -/
  query_cases : s.height % 2 = 1 → ∀ key, ∃ answer, Estimator.query s key = .ok answer ∧
    (answer = 0 ∨ weightOf (· == key) units ≤ answer)

/-- **The buckets of a Coco sketch are count-min counters that inserted keys own.** -/
theorem counted_of_insertAll {source : UInt64 → ρ} {memory rows : Nat} {seed : UInt64}
    (built : ofBudget source memory rows seed = .ok start) (hunits : ∀ unit ∈ units, 1 ≤ unit.count)
    (run : Estimator.insertAll start units = .ok s) :
    s.height = rows ∧ ∃ twin twin', CountMin.ofBudget memory rows 8 seed = .ok twin ∧
      Estimator.insertAll twin units = .ok twin' ∧ Counted start s twin' units := by
  have hbuilt := ofBudget_counters built
  have hrun : Estimator.insertAll start.counters units = .ok s.counters := by
    rw [counters_insertAll, run]
    rfl
  have hvacant := CountMin.vacant_of_ofBudget hbuilt
  have hcounters := hvacant.eq_totals_of_insertAll hrun
  have howned := ownedBy_of_insertAll (ownedBy_of_ofBudget built) hunits run
  refine ⟨?_, start.counters, s.counters, hbuilt, hrun, ?_, ?_, ?_⟩
  · have hheight : s.height = start.height := by
      have := congrArg (fun twin : CountMin => twin.rows.length) hcounters
      simpa [height, counters, CountMin.totals] using this
    obtain ⟨length, -, -, -, rfl⟩ := exists_length_of_budget built
    rw [hheight]
    exact (length_table _ length Entry.empty).trans (SeedStream.length_hashes ⟨seed⟩ rows)
  · intro index bucket
    simp only [counters, List.getElem?_map]
    cases s.rows[index]? with
    | none => rfl
    | some row => simp [counts, Row.map]
  · intro index row hrow bucket cell hcell hcount
    obtain ⟨row', hrow', hcell⟩ := Option.bind_eq_some_iff.mp hcell
    have hr := howned row' (List.mem_of_getElem? hrow')
    have hres : cell ∈ row'.residentAt bucket := by
      rw [Row.residentAt, hcell]
      exact Entry.resident_eq_some_iff.mpr ⟨hcount, rfl⟩
    rw [← position_eq hcounters hrow hrow' cell.key]
    exact ⟨hr.position_eq bucket cell hres, hr.inserted bucket cell hres⟩
  · exact query_cases hvacant hcounters (fun row hr => (howned row hr).toOwned)
      fun unit hu => Int.le_trans (by decide) (hunits unit hu)

/-- Three rows of two buckets: all keys share a bucket of the last row, and the key 3 is alone in
one of the first.  The coins decide who owns the others. -/
theorem counted_of_insertAll_three_rows : ∃ start s : CocoSketch Xoshiro, ∃ twin twin',
    ofBudget Xoshiro.ofSeed 48 3 1 = .ok start ∧
      Estimator.insertAll start [⟨1, 3⟩, ⟨2, 1⟩, ⟨1, 2⟩, ⟨3, 4⟩] = .ok s ∧ s.height = 3 ∧
      CountMin.ofBudget 48 3 8 1 = .ok twin ∧
      Estimator.insertAll twin [⟨1, 3⟩, ⟨2, 1⟩, ⟨1, 2⟩, ⟨3, 4⟩] = .ok twin' ∧
      twin'.rows.map (·.cells) = [#[4, 6], #[1, 9], #[10, 0]] ∧
      Counted start s twin' [⟨1, 3⟩, ⟨2, 1⟩, ⟨1, 2⟩, ⟨3, 4⟩] := by
  have hbuilt : (do return (← ofBudget Xoshiro.ofSeed 48 3 1).height : Outcome Nat) = .ok 3 := by
    decide +kernel
  obtain ⟨start, built, -⟩ := Checked.bind_eq_ok.mp hbuilt
  -- the counts fit, so the sketch itself has a run, whatever its coins show
  have hcounts : (do
      let twin ← CountMin.ofBudget 48 3 8 1
      let twin' ← Outcome.ofChecked (Estimator.insertAll twin [⟨1, 3⟩, ⟨2, 1⟩, ⟨1, 2⟩, ⟨3, 4⟩])
      return twin'.rows.map (·.cells) : Outcome (List (Array Int)))
        = .ok [#[4, 6], #[1, 9], #[10, 0]] := by
    decide +kernel
  obtain ⟨twin, htwin, hcounts⟩ := Checked.bind_eq_ok.mp hcounts
  obtain ⟨twin', hrun, hcells⟩ := Checked.bind_eq_ok.mp hcounts
  have hrun := Outcome.ofChecked_eq_ok.mp hrun
  obtain rfl := Except.ok.inj ((ofBudget_counters built).symm.trans htwin)
  rw [counters_insertAll] at hrun
  obtain ⟨s, run, rfl⟩ := Checked.map_eq_ok.mp hrun
  obtain ⟨hheight, twin, twin', htwin', hrun', hcounted⟩ :=
    counted_of_insertAll built (by decide) run
  obtain rfl := Except.ok.inj (htwin.symm.trans htwin')
  rw [counters_insertAll, run] at hrun'
  obtain rfl := Checked.pure_eq_ok.mp hrun'
  exact ⟨start, s, _, _, built, run, hheight, htwin, by rw [counters_insertAll, run]; rfl,
    Checked.pure_eq_ok.mp hcells, hcounted⟩

end

end CocoSketch

end HeavyHitters
