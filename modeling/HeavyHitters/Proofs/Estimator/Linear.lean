import HeavyHitters.Estimator.CountSketch
import HeavyHitters.Estimator.Sampled
import HeavyHitters.Proofs.Counters.Bounds
import HeavyHitters.Proofs.CounterTree.Walks
import HeavyHitters.Proofs.Estimator.HeapSketch
import HeavyHitters.Proofs.Estimator.Safety
import HeavyHitters.Proofs.Estimator.TreeSketch

/-!
# Linear estimators never fault

The count-min sketch and its two variants, the count sketch and the one with a heap, the Coco sketch
and the tree sketch add weights up and do nothing else to them.  So no count of theirs is further
from zero than all weight together: not a signed counter, not the count of a key that came into a
heap with an estimate and grew by the weights after it, and not the sum of the residents of a
network.  As long as the weights are not negative and fit a counter together, there is no fault,
whatever is asked in between and whatever is drawn.

* `FreshLinear` lists the seven estimators as they are built, and `FreshLinear.exists_safe` gives
  each of them its invariant: `CountMin.safe` and so on.
* `Estimator.InBounds` says what an estimator looks up.  Rows stand in one block, a heap is sifted,
  a tree is walked up: all of it happens inside.
* `Estimator.served_of_total_le` is the statement about all sessions.
-/

namespace HeavyHitters

/-! ## Sketches of counters -/

/-- The counters of some rows are no more than all weight. -/
abbrev Row.Filled (height length : Nat) (total : Int) (rows : List (Row Int)) : Prop :=
  Row.Laid height length (Row.Between 0 total) rows

/-- The counters of a key can be read. -/
theorem Row.Filled.exists_counts {height length : Nat} {total : Int} {rows : List (Row Int)}
    (h : Row.Filled height length total rows) (key : Key) :
    ∃ counts, rows.mapM (·.get key) = .ok counts :=
  Checked.exists_mapM fun row hr =>
    row.exists_get_eq_ok key ((h.forall_row row hr).1 ▸ h.length_pos)

namespace CountMin

theorem safe (height length : Nat) :
    Estimator.Safe fun total (s : CountMin) => Row.Filled height length total s.rows where
  exists_insert {total s} key weight h hweight hfits := by
    have hstep : ∀ row ∈ s.rows, ∃ row', row.update key (Count.plus · weight) = .ok row' ∧
        row'.length = length ∧ row'.Between 0 (total + weight) := by
      intro row hr
      obtain ⟨rfl, hbetween⟩ := h.forall_row row hr
      exact hbetween.exists_update h.length_pos hweight hfits key
    obtain ⟨rows, hrows, hlength, hnext⟩ := Checked.exists_mapM_of_forall hstep
    exact ⟨⟨rows⟩, Checked.bind_eq_ok.mpr ⟨rows, hrows, rfl⟩, h.next hlength hnext⟩
  exists_query h _ key := by
    obtain ⟨counts, hcounts⟩ := h.exists_counts key
    exact ⟨_, Outcome.ofChecked_eq_ok.mpr (Checked.bind_eq_ok.mpr ⟨counts, hcounts, rfl⟩)⟩
  answered_topK _ _ := .inr ⟨_, _, rfl⟩
  answered_networkTopK _ _ := .inr ⟨_, _, rfl⟩

end CountMin

namespace Conservative

variable {length : Nat} {bound weight : Int} {rows : List (Row Int)}

/-- Counters that are raised, each by at most the weight, have no need
of more room than the weight. -/
theorem exists_raising (hrows : ∀ row ∈ rows, row.length = length ∧ row.Between 0 bound)
    (hlength : 0 < length) (hweight : 0 ≤ weight) (hfits : bound + weight ≤ Count.greatest)
    (key : Key) (limit : Int) : ∃ rows',
      Raising key weight limit rows rows' ∧ rows'.length = rows.length ∧
        ∀ row ∈ rows', row.length = length ∧ row.Between 0 (bound + weight) := by
  induction rows generalizing limit with
  | nil => exact ⟨[], .nil, rfl, List.forall_mem_nil _⟩
  | cons row rows ih =>
    obtain ⟨⟨rfl, hrow⟩, hrest⟩ := List.forall_mem_cons.mp hrows
    obtain ⟨current, hget, hlow, hhigh⟩ := hrow.exists_get hlength key
    obtain ⟨rows', hraising, hsame, hnext⟩ := ih hrest (min limit (current + weight))
    have hraised : Count.Fits (current + weight) :=
      Count.fits_of_bounds (by omega) (by omega)
    refine ⟨_, .cons hget hraised hraising, by rw [List.length_cons, List.length_cons, hsame], ?_⟩
    refine List.forall_mem_cons.mpr ⟨⟨Row.length_set row key _, ?_⟩, hnext⟩
    exact (hrow.mono (Int.le_refl 0) (by omega)).set (by omega) (by omega)

theorem safe (height length : Nat) :
    Estimator.Safe fun total (s : Conservative) => Row.Filled height length total s.rows where
  exists_insert {total s} key weight h hweight hfits := by
    obtain ⟨rows, hraising, hlength, hnext⟩ :=
      exists_raising h.forall_row h.length_pos hweight hfits key Count.greatest
    have hraise := (raise_eq_ok_iff hweight).mpr hraising
    exact ⟨⟨rows⟩, Checked.bind_eq_ok.mpr ⟨rows, hraise, rfl⟩, h.next hlength hnext⟩
  exists_query h _ key := by
    obtain ⟨counts, hcounts⟩ := h.exists_counts key
    exact ⟨_, Outcome.ofChecked_eq_ok.mpr (Checked.bind_eq_ok.mpr ⟨counts, hcounts, rfl⟩)⟩
  answered_topK _ _ := .inr ⟨_, _, rfl⟩
  answered_networkTopK _ _ := .inr ⟨_, _, rfl⟩

end Conservative

namespace Sampled

variable {ρ : Type} [RandomSource ρ] {length : Nat} {bound weight : Int} {rows : List (Row Int)}

/-- A row takes the weight in if it is selected, and the others follow. -/
theorem addSampled_cons (rate : SamplingRate) (key : Key) (weight : Int) (row : Row Int)
    (rows : List (Row Int)) (source : ρ) : addSampled rate key weight (row :: rows) source =
      (if rate.selects (RandomSource.significand source).1 then row.update key (Count.plus · weight)
        else .ok row) >>= fun row' => (fun result => (row' :: result.1, result.2)) <$>
          addSampled rate key weight rows (RandomSource.significand source).2 := by
  rw [addSampled]
  simp only [map_eq_pure_bind]
  split
  · rfl
  · rfl

/-- Whether a row is selected or not, its counters grow by no more than the weight. -/
theorem exists_addSampled (hrows : ∀ row ∈ rows, row.length = length ∧ row.Between 0 bound)
    (hlength : 0 < length) (hweight : 0 ≤ weight) (hfits : bound + weight ≤ Count.greatest)
    (rate : SamplingRate) (key : Key) (source : ρ) : ∃ rows' source',
      addSampled rate key weight rows source = .ok (rows', source') ∧ rows'.length = rows.length ∧
        ∀ row ∈ rows', row.length = length ∧ row.Between 0 (bound + weight) := by
  induction rows generalizing source with
  | nil => exact ⟨[], source, rfl, rfl, List.forall_mem_nil _⟩
  | cons row rows ih =>
    obtain ⟨⟨rfl, hrow⟩, hrest⟩ := List.forall_mem_cons.mp hrows
    have hfirst : ∃ row', (if rate.selects (RandomSource.significand source).1 then
        row.update key (Count.plus · weight) else .ok row) = .ok row' ∧ row'.length = row.length ∧
          row'.Between 0 (bound + weight) := by
      split
      · exact hrow.exists_update hlength hweight hfits key
      · exact ⟨row, rfl, rfl, hrow.mono (Int.le_refl 0) (by omega)⟩
    obtain ⟨row', hrow', hnext⟩ := hfirst
    obtain ⟨rows', source', hadded, hsame, hnexts⟩ := ih hrest (RandomSource.significand source).2
    refine ⟨row' :: rows', source', ?_, by rw [List.length_cons, List.length_cons, hsame],
      List.forall_mem_cons.mpr ⟨hnext, hnexts⟩⟩
    rw [addSampled_cons]
    exact Checked.bind_eq_ok.mpr
      ⟨row', hrow', Checked.map_eq_ok.mpr ⟨(rows', source'), hadded, rfl⟩⟩

theorem safe (height length : Nat) :
    Estimator.Safe fun total (s : Sampled ρ) => Row.Filled height length total s.rows where
  exists_insert {total s} key weight h hweight hfits := by
    obtain ⟨rate, rows, source⟩ := s
    obtain ⟨rows', source', hadded, hlength, hnext⟩ :=
      exists_addSampled h.forall_row h.length_pos hweight hfits rate key source
    have hinsert : insert ⟨rate, rows, source⟩ key weight = .ok ⟨rate, rows', source'⟩ :=
      Checked.bind_eq_ok.mpr ⟨(rows', source'), hadded, rfl⟩
    exact ⟨⟨rate, rows', source'⟩, hinsert, h.next hlength hnext⟩
  exists_query h _ key := by
    obtain ⟨counts, hcounts⟩ := h.exists_counts key
    exact ⟨_, Outcome.ofChecked_eq_ok.mpr (Checked.bind_eq_ok.mpr ⟨counts, hcounts, rfl⟩)⟩
  answered_topK _ _ := .inr ⟨_, _, rfl⟩
  answered_networkTopK _ _ := .inr ⟨_, _, rfl⟩

end Sampled

/-! ## Sketches of signed counters -/

/-- The counters of some signed rows are no further from zero than all weight. -/
abbrev SignedRow.Filled (height length : Nat) (total : Int) (rows : List SignedRow) : Prop :=
  Row.Laid height length (Row.Between (-total) total) (rows.map (·.row))

theorem SignedRow.filled_table {height length : Nat} (hheight : height ≠ 0) (hlength : length ≠ 0)
    (hblock : height * length < blockLimit) (seeds : SeedStream) :
    SignedRow.Filled height length 0 (SignedRow.table height length seeds).1 where
  height_pos := Nat.pos_of_ne_zero hheight
  length_pos := Nat.pos_of_ne_zero hlength
  block_lt := hblock
  length_rows := by rw [List.length_map, SignedRow.length_table]
  forall_row row hr := by
    obtain ⟨r, hmem, rfl⟩ := List.mem_map.mp hr
    obtain ⟨⟨hash, signs⟩, -, rfl⟩ := List.mem_map.mp hmem
    exact ⟨Row.length_fill length 0 hash, Row.between_fill length hash⟩

namespace CountSketch

theorem safe (height length : Nat) :
    Estimator.Safe fun total (s : CountSketch) => SignedRow.Filled height length total s.rows where
  exists_insert {total s} key weight h hweight hfits := by
    have hstep : ∀ r ∈ s.rows, ∃ r', r.add key weight = .ok r' ∧
        r'.row.length = length ∧ r'.row.Between (-(total + weight)) (total + weight) := by
      intro r hr
      obtain ⟨rfl, hbetween⟩ := h.forall_row r.row (List.mem_map_of_mem hr)
      exact r.exists_add hbetween h.length_pos hweight hfits key
    obtain ⟨rows, hrows, hlength, hnext⟩ := Checked.exists_mapM_of_forall hstep
    refine ⟨⟨rows⟩, Checked.bind_eq_ok.mpr ⟨rows, hrows, rfl⟩,
      h.next ?_ (List.forall_mem_map.mpr hnext)⟩
    rw [List.length_map, List.length_map, hlength]
  exists_query {total s} h hfits key := by
    have hstep : ∀ r ∈ s.rows, ∃ estimate, r.estimate key = .ok estimate := by
      intro r hr
      obtain ⟨rfl, hbetween⟩ := h.forall_row r.row (List.mem_map_of_mem hr)
      obtain ⟨estimate, hestimate, -⟩ := r.exists_estimate hbetween h.length_pos hfits key
      exact ⟨estimate, hestimate⟩
    obtain ⟨estimates, hestimates⟩ := Checked.exists_mapM hstep
    exact ⟨_, Outcome.ofChecked_eq_ok.mpr (Checked.bind_eq_ok.mpr ⟨estimates, hestimates, rfl⟩)⟩
  answered_topK _ _ := .inr ⟨_, _, rfl⟩
  answered_networkTopK _ _ := .inr ⟨_, _, rfl⟩

end CountSketch

namespace HeapSketch

variable {height length : Nat} {total weight : Int} {s : HeapSketch}

/-- The counters are no further from zero than all weight, and no count in
the heap is more than that. -/
structure Filled (height length : Nat) (total : Int) (s : HeapSketch) : Prop where
  rows_filled : SignedRow.Filled height length total s.rows
  wellFormed : s.heap.WellFormed
  held_bounds : ∀ key count, s.heap.held key = some count → 0 < count ∧ count ≤ total

/-- A row takes weight in and gives an estimate, which is no more than all weight. -/
theorem exists_addAndEstimate {r : SignedRow} (h : r.row.Between (-total) total)
    (hlength : 0 < r.row.length) (hweight : 0 ≤ weight) (hfits : total + weight ≤ Count.greatest)
    (key : Key) : ∃ result : SignedRow × Int,
      addAndEstimate key weight r = .ok result ∧ (result.1.row.length = r.row.length ∧
        result.1.row.Between (-(total + weight)) (total + weight)) ∧ result.2 ≤ total + weight := by
  obtain ⟨r', hadd, hsame, hbetween⟩ := r.exists_add h hlength hweight hfits key
  obtain ⟨estimate, hestimate, -, hle⟩ := r'.exists_estimate hbetween (hsame ▸ hlength) hfits key
  refine ⟨(r', estimate), ?_, ⟨hsame, hbetween⟩, hle⟩
  exact Checked.bind_eq_ok.mpr ⟨r', hadd, Checked.bind_eq_ok.mpr ⟨estimate, hestimate, rfl⟩⟩

/-- The heap is called without a fault: a key that is held grows by the weight, and another one
comes in with a median of estimates. -/
theorem Filled.exists_call (h : s.Filled height length total) (hweight : 0 ≤ weight)
    (hfits : total + weight ≤ Count.greatest) (key : Key) {estimate : Int}
    (hestimate : estimate ≤ total + weight) :
    ∃ heap, s.heap.insertOrBump key (if s.heap.contains key then weight else estimate) = .ok heap ∧
      heap.WellFormed ∧ ∀ other count, heap.held other = some count → 0 < count ∧
      count ≤ total + weight := by
  have hcontains : s.heap.contains key = true ↔ s.heap.held key ≠ none :=
    h.wellFormed.indexed.contains_eq_true_iff
  have hbumped : ∀ old, s.heap.held key = some old →
      0 < old + (if s.heap.contains key then weight else estimate) ∧
        old + (if s.heap.contains key then weight else estimate) ≤ total + weight := by
    intro old hold
    obtain ⟨hpos, hle⟩ := h.held_bounds key old hold
    rw [if_pos (hcontains.mpr (by simp [hold]))]
    omega
  rcases h.wellFormed.insertOrBump_cases key _ with ⟨heap, hcall⟩ | ⟨old, hold, hover, -⟩
  · have hmoves := h.wellFormed.moves hcall
    refine ⟨heap, hcall, hmoves.wellFormed h.wellFormed, ?_⟩
    refine (hmoves.changes h.wellFormed).forall_held (fun other count hc => ?_) hbumped
      fun hnone hpos => ?_
    · obtain ⟨hpos, hle⟩ := h.held_bounds other count hc
      omega
    · refine ⟨hpos, ?_⟩
      rw [if_neg (mt hcontains.mp (by simp [hnone]))]
      exact hestimate
  · have hsum := hbumped old hold
    exact absurd (Count.fits_of_bounds (by omega) (by omega)) hover

theorem safe (height length : Nat) :
    Estimator.Safe fun total (s : HeapSketch) => s.Filled height length total where
  exists_insert {total s} key weight h hweight hfits := by
    have hstep : ∀ r ∈ s.rows, ∃ result, addAndEstimate key weight r = .ok result ∧
        (result.1.row.length = length ∧ result.1.row.Between (-(total + weight)) (total + weight)) ∧
          result.2 ≤ total + weight := by
      intro r hr
      obtain ⟨rfl, hbetween⟩ := h.rows_filled.forall_row r.row (List.mem_map_of_mem hr)
      exact exists_addAndEstimate hbetween h.rows_filled.length_pos hweight hfits key
    obtain ⟨added, hadded, hlength, hnext⟩ := Checked.exists_mapM_of_forall hstep
    have hne : added.map Prod.snd ≠ [] := by
      intro he
      rw [List.map_eq_nil_iff.mp he] at hlength
      exact h.rows_filled.rows_ne_nil
        (List.map_eq_nil_iff.mpr (List.eq_nil_of_length_eq_zero hlength.symm))
    have hmedian : Count.median (added.map Prod.snd) ≤ total + weight :=
      Count.median_le hne (List.forall_mem_map.mpr fun result hr => (hnext result hr).2)
    obtain ⟨heap, hcall, hwellFormed, hheld⟩ := h.exists_call hweight hfits key hmedian
    refine ⟨⟨added.map Prod.fst, heap⟩, ?_, ?_, hwellFormed, hheld⟩
    · exact Checked.bind_eq_ok.mpr ⟨added, hadded, Checked.bind_eq_ok.mpr ⟨heap, hcall, rfl⟩⟩
    · refine h.rows_filled.next (by simp only [List.length_map, hlength]) ?_
      exact List.forall_mem_map.mpr (List.forall_mem_map.mpr fun result hr => (hnext result hr).1)
  exists_query _ _ _ := ⟨_, rfl⟩
  answered_topK _ _ := .inl ⟨_, rfl⟩
  answered_networkTopK _ _ := .inr ⟨_, _, rfl⟩

end HeapSketch

/-! ## Coco sketches -/

namespace CocoSketch

variable {ρ : Type} {length : Nat} {total weight : Int} {row : Row Entry}
  {rows : List (Row Entry)} {key : Key}

/-- The residents of a row have all weight between them. -/
structure Loaded (total : Int) (row : Row Entry) : Prop where
  nonneg : ∀ e ∈ row.residents, 0 ≤ e.count
  weight_eq : weightOf allKeys row.residents = total

theorem weightOf_resident (cell : Entry) :
    weightOf allKeys (Cell.resident cell).toList = cell.count := by
  cases hr : Cell.resident cell with
  | none =>
    by_contra hne
    have hres : Cell.resident cell = some cell := Entry.resident_eq_some_iff.mpr ⟨Ne.symm hne, rfl⟩
    rw [hr] at hres
    cases hres
  | some e =>
    obtain ⟨-, rfl⟩ := Entry.resident_eq_some_iff.mp hr
    exact Int.add_zero cell.count

/-- A bucket has a part of the weight of its row. -/
theorem Loaded.count_bounds (h : Loaded total row) {cell : Entry} (hget : row.get key = .ok cell) :
    0 ≤ cell.count ∧ cell.count ≤ total := by
  by_cases hcount : cell.count = 0
  · rw [hcount, ← h.weight_eq]
    exact ⟨Int.le_refl 0, weightOf_nonneg h.nonneg⟩
  · have hmem : cell ∈ row.residents := Row.mem_residents.mpr
      ⟨_, (Row.residentAt_of_get hget).trans (Entry.resident_eq_some_iff.mpr ⟨hcount, rfl⟩)⟩
    rw [← h.weight_eq]
    exact ⟨h.nonneg cell hmem, le_weightOf_of_mem h.nonneg hmem rfl⟩

/-- Putting weight into a bucket puts it into the row, whoever owns the bucket. -/
theorem Loaded.set (h : Loaded total row) (hlength : 0 < row.length) {cell : Entry}
    (hget : row.get key = .ok cell) (hweight : 0 ≤ weight) (owner : Key) :
    Loaded (total + weight) (row.set key ⟨owner, cell.count + weight⟩) where
  nonneg e he := by
    obtain ⟨i, hi⟩ := Row.mem_residents.mp he
    rw [Row.residentAt_set hlength] at hi
    split at hi
    · obtain ⟨-, rfl⟩ := Entry.resident_eq_some_iff.mp hi
      exact Int.add_nonneg (h.count_bounds hget).1 hweight
    · exact h.nonneg e (Row.mem_residents.mpr ⟨i, hi⟩)
  weight_eq := by
    have hcell : row.cells.toList[row.position key]? = some cell := by
      rw [Array.getElem?_toList]
      exact Row.get_eq_ok_iff.mp hget
    have hset := weightOf_filterMap_set allKeys (f := Cell.resident)
      ⟨owner, cell.count + weight⟩ hcell
    rw [weightOf_resident, weightOf_resident, ← Array.toList_setIfInBounds] at hset
    have hweight := h.weight_eq
    unfold Row.residents at hweight ⊢
    unfold Row.set
    dsimp only at hset ⊢
    omega

/-- **A row absorbs weight without a fault**, whatever is drawn. -/
theorem Loaded.exists_update (h : Loaded total row) (hlength : 0 < row.length)
    (hweight : 0 ≤ weight) (hfits : total + weight ≤ Count.greatest) (key : Key)
    (draw : Float) : ∃ row',
      row.update key (absorb key weight draw) = .ok row' ∧ row'.length = row.length ∧
        Loaded (total + weight) row' := by
  obtain ⟨cell, hget⟩ := row.exists_get_eq_ok key hlength
  obtain ⟨hlow, hhigh⟩ := h.count_bounds hget
  have hsum : Count.Fits (cell.count + weight) :=
    Count.fits_of_bounds (by omega) (by omega)
  have habsorb : absorb key weight draw cell = .ok
      ⟨if takesOver weight (cell.count + weight) draw then key else cell.key,
        cell.count + weight⟩ :=
    Checked.bind_eq_ok.mpr ⟨_, Count.plus_eq_ok_iff.mpr ⟨hsum, rfl⟩, rfl⟩
  exact ⟨_, Row.update_eq_ok_iff.mpr ⟨cell, _, hget, habsorb, rfl⟩, Row.length_set row key _,
    h.set hlength hget hweight _⟩

theorem exists_absorbAll [RandomSource ρ]
    (hrows : ∀ row ∈ rows, row.length = length ∧ Loaded total row) (hlength : 0 < length)
    (hweight : 0 ≤ weight) (hfits : total + weight ≤ Count.greatest) (key : Key) (source : ρ) :
    ∃ rows' source',
      absorbAll key weight rows source = .ok (rows', source') ∧ rows'.length = rows.length ∧
        ∀ row ∈ rows', row.length = length ∧ Loaded (total + weight) row := by
  induction rows generalizing source with
  | nil => exact ⟨[], source, rfl, rfl, List.forall_mem_nil _⟩
  | cons row rows ih =>
    obtain ⟨⟨rfl, hrow⟩, hrest⟩ := List.forall_mem_cons.mp hrows
    obtain ⟨row', hrow', hnext⟩ :=
      hrow.exists_update hlength hweight hfits key (RandomSource.fraction source).1
    obtain ⟨rows', source', habsorbed, hsame, hnexts⟩ := ih hrest (RandomSource.fraction source).2
    refine ⟨row' :: rows', source', ?_, by rw [List.length_cons, List.length_cons, hsame],
      List.forall_mem_cons.mpr ⟨hnext, hnexts⟩⟩
    rw [absorbAll]
    exact Checked.bind_eq_ok.mpr
      ⟨row', hrow', Checked.bind_eq_ok.mpr ⟨(rows', source'), habsorbed, rfl⟩⟩

/-- The sums of all groups of keys fit, row by row. -/
theorem exists_estimates_of_loaded {κ : Type} [Ord κ] [Std.TransOrd κ] [Std.LawfulEqOrd κ]
    [BEq κ] [LawfulBEq κ] {s : CocoSketch ρ} (hrows : ∀ row ∈ s.rows, Loaded total row)
    (hfits : total ≤ Count.greatest) (group : Key → κ) :
    ∃ tally, s.estimates group = .ok tally := by
  obtain ⟨tallies, htallies⟩ := Checked.exists_mapM fun row hr =>
    Tally.exists_ofRecords group (hrows row hr).nonneg ((hrows row hr).weight_eq ▸ hfits)
  exact ⟨_, Checked.bind_eq_ok.mpr ⟨tallies, htallies, rfl⟩⟩

theorem safe [RandomSource ρ] (height length : Nat) :
    Estimator.Safe fun total (s : CocoSketch ρ) =>
      Row.Laid height length (Loaded total) s.rows where
  exists_insert {total s} key weight h hweight hfits := by
    obtain ⟨rows, source⟩ := s
    obtain ⟨rows', source', habsorbed, hlength, hnext⟩ :=
      exists_absorbAll h.forall_row h.length_pos hweight hfits key source
    have hinsert : insert ⟨rows, source⟩ key weight = .ok ⟨rows', source'⟩ :=
      Checked.bind_eq_ok.mpr ⟨(rows', source'), habsorbed, rfl⟩
    exact ⟨⟨rows', source'⟩, hinsert, h.next hlength hnext⟩
  exists_query {total s} h _ key := by
    obtain ⟨counts, hcounts⟩ := Checked.exists_mapM fun row hr =>
      Row.exists_weight_eq_ok row key ((h.forall_row row hr).1 ▸ h.length_pos)
    exact ⟨_, Outcome.ofChecked_eq_ok.mpr (Checked.bind_eq_ok.mpr ⟨counts, hcounts, rfl⟩)⟩
  answered_topK {total s} h hfits := by
    obtain ⟨tally, htally⟩ :=
      exists_estimates_of_loaded (fun row hr => (h.forall_row row hr).2) hfits (id : Key → Key)
    exact .inl ⟨_, Outcome.ofChecked_eq_ok.mpr (Checked.map_eq_ok.mpr ⟨tally, htally, rfl⟩)⟩
  answered_networkTopK {total s} h hfits := by
    obtain ⟨tally, htally⟩ :=
      exists_estimates_of_loaded (fun row hr => (h.forall_row row hr).2) hfits networkOf
    exact .inl ⟨_, Outcome.ofChecked_eq_ok.mpr (Checked.map_eq_ok.mpr ⟨tally, htally, rfl⟩)⟩

theorem loaded_fill (length : Nat) (hash : KeyHash) :
    Loaded 0 (Row.fill length Entry.empty hash) where
  nonneg e he := by
    rw [Row.residents_fill rfl] at he
    cases he
  weight_eq := by rw [Row.residents_fill rfl, weightOf_nil]

end CocoSketch

/-! ## Tree sketches -/

namespace TreeSketch

/-- Two trees that have grown from empty ones. -/
def Rooted (s : TreeSketch) : Prop := s.trees.length = treeCount ∧ ∃ units, Grown units s

theorem safe : Estimator.Safe fun _ (s : TreeSketch) => s.Rooted where
  exists_insert {_ s} key weight h _ _ := by
    obtain ⟨htrees, units, hgrown⟩ := h
    refine ⟨_, rfl, ?_, units ++ [⟨key, weight⟩], ?_⟩
    · rw [insert_eq_addAll, addAll, List.length_map, htrees]
    · rw [insert_eq_addAll]
      exact hgrown.addAll [⟨key, weight⟩]
  exists_query _ _ _ := ⟨_, rfl⟩
  answered_topK _ _ := .inr ⟨_, _, rfl⟩
  answered_networkTopK _ _ := .inr ⟨_, _, rfl⟩

end TreeSketch

/-! ## As they are built -/

/-- A linear estimator as it is built, with any source of coins. -/
inductive FreshLinear : (ε : Type) → [Estimator ε] → ε → Prop where
  | countMin {memory rows width : Nat} {seed : UInt64} {e : CountMin}
      (built : CountMin.ofBudget memory rows width seed = .ok e) : FreshLinear CountMin e
  | countSketch {memory rows width : Nat} {seed : UInt64} {e : CountSketch}
      (built : CountSketch.ofBudget memory rows width seed = .ok e) : FreshLinear CountSketch e
  | conservative {memory rows width : Nat} {seed : UInt64} {e : Conservative}
      (built : Conservative.ofBudget memory rows width seed = .ok e) : FreshLinear Conservative e
  | sampled {ρ : Type} [RandomSource ρ] {source : UInt64 → ρ}
      {memory rows width : Nat} {rate : Float} {seed : UInt64} {e : Sampled ρ}
        (built : Sampled.ofBudget source memory rate rows width seed = .ok e) :
      FreshLinear (Sampled ρ) e
  | coco {ρ : Type} [RandomSource ρ] {source : UInt64 → ρ} {memory rows : Nat} {seed : UInt64}
      {e : CocoSketch ρ} (built : CocoSketch.ofBudget source memory rows seed = .ok e) :
      FreshLinear (CocoSketch ρ) e
  | tree {memory width : Nat} {seed : UInt64} {e : TreeSketch}
      (built : TreeSketch.ofBudget memory width seed = .ok e) : FreshLinear TreeSketch e
  | heap {memory rows width : Nat} {seed : UInt64} {e : HeapSketch}
      (built : HeapSketch.ofBudget memory rows width seed = .ok e) : FreshLinear HeapSketch e

/-- All that an estimator looks up is there: the cells of its rows in their block, the positions of
its heap, the counters of its trees. -/
inductive Estimator.InBounds : (ε : Type) → ε → Prop where
  | countMin {length : Nat} {e : CountMin} (addressed : Row.Addressed length e.rows) :
      InBounds CountMin e
  | countSketch {length : Nat} {e : CountSketch}
      (addressed : Row.Addressed length (e.rows.map (·.row))) :
      InBounds CountSketch e
  | conservative {length : Nat} {e : Conservative} (addressed : Row.Addressed length e.rows) :
      InBounds Conservative e
  | sampled {ρ : Type} {length : Nat} {e : Sampled ρ} (addressed : Row.Addressed length e.rows) :
      InBounds (Sampled ρ) e
  | coco {ρ : Type} {length : Nat} {e : CocoSketch ρ} (addressed : Row.Addressed length e.rows) :
      InBounds (CocoSketch ρ) e
  | tree {e : TreeSketch} (walkable : ∀ tree ∈ e.trees, tree.Walkable)
      (counted : ∀ index < TreeSketch.treeCount, ∀ level < e.height, ∀ key, ∃ value,
        e.counter index level key = .ok value) : InBounds TreeSketch e
  | heap {length : Nat} {e : HeapSketch} (addressed : Row.Addressed length (e.rows.map (·.row)))
      (wellFormed : e.heap.WellFormed) (moves : ∀ key count heap,
        e.heap.insertOrBump key count = .ok heap → e.heap.Moves key count heap) :
          InBounds HeapSketch e

theorem TreeSketch.Rooted.inBounds {s : TreeSketch} (h : s.Rooted) :
    Estimator.InBounds TreeSketch s := by
  obtain ⟨htrees, units, hgrown⟩ := h
  refine .tree (fun tree ht => ?_) fun index hindex level hlevel key => ?_
  · obtain ⟨hregular, habsorbed⟩ := hgrown tree ht
    exact habsorbed.walkable hregular
  · obtain ⟨tree, htree⟩ : ∃ tree, s.trees[index]? = some tree :=
      ⟨_, List.getElem?_eq_getElem (htrees ▸ hindex)⟩
    obtain ⟨hregular, habsorbed⟩ := hgrown tree (List.mem_of_getElem? htree)
    have hposition := habsorbed.leaf_shiftRight_lt hregular key hlevel
    exact ⟨_, hgrown.counter_eq_counterAt htree hlevel
      (habsorbed.counterAt_eq hregular hlevel hposition)⟩

theorem HeapSketch.exists_filled_of_ofBudget {memory rows width : Nat}
    {seed : UInt64} {s : HeapSketch} (h : ofBudget memory rows width seed = .ok s) :
    ∃ length, s.Filled rows length 0 := by
  obtain ⟨length, hrows, hlength, hblock, rfl⟩ := ofBudget_eq_ok h
  refine ⟨length, SignedRow.filled_table hrows hlength hblock _, BoundedHeap.wellFormed_empty _, ?_⟩
  intro key count hcount
  rw [BoundedHeap.held_empty] at hcount
  cases hcount

theorem Sampled.ofBudget_eq_ok {ρ : Type} {source : UInt64 → ρ}
    {memory rows width : Nat} {rate : Float} {seed : UInt64} {s : Sampled ρ}
    (h : ofBudget source memory rate rows width seed = .ok s) :
    ∃ sampling length, SamplingRate.ofFloat? rate = some sampling ∧ rows ≠ 0 ∧ length ≠ 0 ∧
      rows * length < blockLimit ∧ ⟨sampling, table (SeedStream.hashes ⟨seed⟩ rows).1 length 0,
        source (SeedStream.hashes ⟨seed⟩ rows).2.next.1⟩ = s := by
  unfold ofBudget at h
  split at h
  · cases h
  next sampling hrate =>
  obtain ⟨length, hrows, hlength, hblock, rfl⟩ := exists_block_of_budget (by decide) h
  exact ⟨sampling, length, hrate, hrows, hlength, hblock, rfl⟩

/-- A built estimator is safe, and under its invariant in bounds. -/
theorem FreshLinear.exists_safe {ε : Type} [Estimator ε] {start : ε} (h : FreshLinear ε start) :
    ∃ Inv : Int → ε → Prop, Estimator.Safe Inv ∧ Inv 0 start ∧
      ∀ total e, Inv total e → Estimator.InBounds ε e := by
  cases h with
  | countMin built =>
    obtain ⟨length, hrows, hlength, hblock, rfl⟩ := exists_block_of_budget (by decide) built
    exact ⟨_, CountMin.safe _ length,
      Row.laid_table hrows hlength hblock (SeedStream.length_hashes _ _) (Row.between_fill length),
      fun _ _ he => .countMin he.addressed⟩
  | countSketch built =>
    obtain ⟨length, hrows, hlength, hblock, rfl⟩ := exists_block_of_budget (by decide) built
    exact ⟨_, CountSketch.safe _ length, SignedRow.filled_table hrows hlength hblock _,
      fun _ _ he => .countSketch he.addressed⟩
  | conservative built =>
    obtain ⟨length, hrows, hlength, hblock, rfl⟩ := exists_block_of_budget (by decide) built
    exact ⟨_, Conservative.safe _ length,
      Row.laid_table hrows hlength hblock (SeedStream.length_hashes _ _) (Row.between_fill length),
      fun _ _ he => .conservative he.addressed⟩
  | sampled built =>
    obtain ⟨_, length, -, hrows, hlength, hblock, rfl⟩ := Sampled.ofBudget_eq_ok built
    exact ⟨_, Sampled.safe _ length,
      Row.laid_table hrows hlength hblock (SeedStream.length_hashes _ _) (Row.between_fill length),
      fun _ _ he => .sampled he.addressed⟩
  | coco built =>
    obtain ⟨length, hrows, hlength, hblock, rfl⟩ := exists_block_of_budget (by decide) built
    exact ⟨_, CocoSketch.safe _ length,
      Row.laid_table hrows hlength hblock (SeedStream.length_hashes _ _)
        (CocoSketch.loaded_fill length),
      fun _ _ he => .coco he.addressed⟩
  | tree built =>
    obtain ⟨htrees, hgrown⟩ := TreeSketch.grown_of_ofBudget built
    exact ⟨_, TreeSketch.safe, ⟨htrees, [], hgrown⟩, fun _ _ he => he.inBounds⟩
  | heap built =>
    obtain ⟨length, hfilled⟩ := HeapSketch.exists_filled_of_ofBudget built
    exact ⟨_, HeapSketch.safe _ length, hfilled, fun _ _ he =>
      .heap he.rows_filled.addressed he.wellFormed fun _ _ _ hcall => he.wellFormed.moves hcall⟩

/-! ## All sessions -/

/--
**Linear estimators never fault.**  As long as the weights that are inserted are not negative and
fit a counter together, every request has a reply: an insert is made, a question for a key is
answered with a count, and a question for a ranking is answered or refused as not supported.  At any
time all that is looked up is there.
-/
theorem Estimator.served_of_total_le {ε : Type} [Estimator ε] {start : ε}
    (fresh : FreshLinear ε start) (requests : List (Request Entry Unit))
    (hunits : ∀ unit ∈ requests.filterMap Request.unit?, 0 ≤ unit.count)
    (htotal : weightOf allKeys (requests.filterMap Request.unit?) ≤ Count.greatest) :
    List.Forall₂ Request.Served requests (ObservedEstimator.replies (.fresh start) requests) ∧
      ∀ past, past <+: requests.filterMap Request.unit? →
        ∃ e, insertAll start past = .ok e ∧ InBounds ε e := by
  obtain ⟨Inv, hsafe, hstart, hinBounds⟩ := fresh.exists_safe
  refine ⟨hsafe.forall₂_served (e := .fresh start) hstart hunits (by omega), ?_⟩
  rintro past ⟨rest, hsplit⟩
  rw [← hsplit] at hunits htotal
  have hrest : 0 ≤ weightOf allKeys rest :=
    weightOf_nonneg fun unit hu => hunits unit (List.mem_append_right past hu)
  rw [weightOf_append] at htotal
  obtain ⟨e, run, he⟩ := hsafe.exists_insertAll hstart
    (fun unit hu => hunits unit (List.mem_append_left rest hu)) (by omega)
  exact ⟨e, run, hinBounds _ e he⟩

/-- Three rows of three counters and a heap: two keys have all the weight that fits a counter. -/
theorem Estimator.served_of_total_le_two_keys :
    ∃ (start e : HeapSketch) (requests : List (Request Entry Unit)), FreshLinear HeapSketch start ∧
      requests = [.insert ⟨9, 5⟩, .query 9, .networks (), .insert ⟨6, 2147483642⟩, .topK] ∧
      (∀ unit ∈ requests.filterMap Request.unit?, 0 ≤ unit.count) ∧
      weightOf allKeys (requests.filterMap Request.unit?) = Count.greatest ∧
      List.Forall₂ Request.Served requests (ObservedEstimator.replies (.fresh start) requests) ∧
      insertAll start [⟨9, 5⟩, ⟨6, 2147483642⟩] = .ok e ∧ InBounds HeapSketch e ∧
      query e 9 = .ok 5 ∧ query e 6 = .ok 2147483642 := by
  have hrun : (do
      let start ← HeapSketch.ofBudget 80 3 4 2
      let e ← Outcome.ofChecked (insertAll start [⟨9, 5⟩, ⟨6, 2147483642⟩])
      return (e.query 9, e.query 6) : Outcome (Int × Int))
        = .ok (5, 2147483642) := by decide +kernel
  obtain ⟨start, built, hrun⟩ := Checked.bind_eq_ok.mp hrun
  obtain ⟨e, run, hrun⟩ := Checked.bind_eq_ok.mp hrun
  have run := Outcome.ofChecked_eq_ok.mp run
  obtain ⟨hnine, hsix⟩ := Prod.mk.inj (Checked.pure_eq_ok.mp hrun)
  have hunits : ∀ unit ∈ ([⟨9, 5⟩, ⟨6, 2147483642⟩] : List Entry), 0 ≤ unit.count := by decide
  have htotal : weightOf allKeys [⟨9, 5⟩, ⟨6, 2147483642⟩] = Count.greatest := by decide
  obtain ⟨hserved, hpast⟩ := Estimator.served_of_total_le (.heap built)
    [.insert ⟨9, 5⟩, .query 9, .networks (), .insert ⟨6, 2147483642⟩, .topK] hunits
      (Int.le_of_eq htotal)
  obtain ⟨e', run', hinBounds⟩ := hpast _ (List.prefix_refl _)
  obtain rfl := Except.ok.inj (run.symm.trans run')
  exact ⟨start, e, _, .heap built, rfl, hunits, htotal, hserved, run, hinBounds,
    congrArg Except.ok hnine, congrArg Except.ok hsix⟩

end HeavyHitters
