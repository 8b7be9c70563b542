import HeavyHitters.Proofs.Counters.Bounds
import HeavyHitters.Proofs.Estimator.CountSketch

/-!
# The estimate that no counter can hold

The numbers that a counter can hold reach one further below zero than above.  An insert may take a
counter down to the least of them, since the sum fits.  A query puts the sign of its key on the
counter again, and for a key whose sign turns numbers over the result is then one too great.  This
is the only way for a query to overflow: one row is enough, even if another row has a lesser
estimate, which would be the answer.

It takes more weight in one bucket than a counter can hold.

* `SignedRow.Extreme` is that state of a row, and `SignedRow.estimate_of_extreme` and
  `SignedRow.exists_estimate_of_not_extreme` are the estimates of a row in it and of any other.
* `CountSketch.Answered` says when queries have a value, and `CountSketch.answered_of_insertAll`
  that this is so after every run.
* `CountSketch.exists_overflowing_estimate` is a run with a query that overflows.
-/

namespace HeavyHitters

/-! ## One row -/

namespace SignedRow

variable {r : SignedRow} {units : List Entry} {key : Key}

/-- The counter of the key is the least number that a counter can hold, and the
sign of the key turns it over. -/
def Extreme (r : SignedRow) (key : Key) : Prop :=
  r.row.get key = .ok Count.least ∧ r.signs.sign key = -1

/-- The estimate of such a row does not fit. -/
theorem estimate_of_extreme (h : r.Extreme key) :
    r.estimate key = .error (.overflow .multiply) := by
  rw [estimate, Checked.bind_of_eq_ok h.1, h.2]
  rfl

/-- Of every other row the estimate fits. -/
theorem exists_estimate_of_not_extreme (hfits : r.row.Between Count.least Count.greatest)
    (hlength : 0 < r.row.length) (h : ¬r.Extreme key) :
    ∃ estimate, r.estimate key = .ok estimate := by
  obtain ⟨count, hget, hlow, hhigh⟩ := hfits.exists_get hlength key
  refine ⟨count * r.signs.sign key,
    Checked.bind_eq_ok.mpr ⟨count, hget, Count.times_eq_ok_iff.mpr ⟨?_, rfl⟩⟩⟩
  rcases r.signs.sign_eq key with hsign | hsign
  · rw [hsign, Int.mul_one]
    exact ⟨hlow, hhigh⟩
  · have hne : count ≠ Count.least := by
      rintro rfl
      exact h ⟨hget, hsign⟩
    rw [hsign]
    simp only [Count.fits_iff, Count.least, Count.greatest] at *
    omega

/-- An insert leaves counters that fit. -/
theorem between_of_add {r' : SignedRow} {weight : Int}
    (h : r.row.Between Count.least Count.greatest) (hadd : r.add key weight = .ok r') :
    r'.row.Between Count.least Count.greatest := by
  obtain ⟨row, hu, hadd⟩ := Checked.bind_eq_ok.mp hadd
  obtain rfl := Checked.pure_eq_ok.mp hadd
  refine h.of_update (fun old new hnew => ?_) hu
  obtain ⟨signed, -, hplus⟩ := Checked.bind_eq_ok.mp hnew
  obtain ⟨hfits, rfl⟩ := Count.plus_eq_ok_iff.mp hplus
  exact hfits

/-- A counter comes down to its least number only by more weight than a counter can hold. -/
theorem lt_weightOf_of_extreme (hlength : 0 < r.row.length) (hpos : ∀ unit ∈ units, 0 ≤ unit.count)
    (h : (r.totals units).Extreme key) : Count.greatest < weightOf (r.row.shares key) units := by
  have hleast : weightOf (r.row.shares key) (r.signed units) = Count.least :=
    Except.ok.inj ((Row.get_totals hlength key).symm.trans h.1)
  have hwithin := (r.weightOf_signed_within hpos (r.row.shares key)).1
  rw [hleast] at hwithin
  unfold Count.least at hwithin
  unfold Count.greatest
  omega

end SignedRow

namespace CountSketch

variable {start s : CountSketch} {units : List Entry} {key : Key}

/-! ## All rows -/

/-- The counters of a built sketch fit after every run. -/
theorem between_of_insertAll {memory rows width : Nat} {seed : UInt64}
    (built : ofBudget memory rows width seed = .ok start)
    (run : Estimator.insertAll start units = .ok s) :
    ∀ r ∈ s.rows, r.row.Between Count.least Count.greatest := by
  refine Checked.kept_foldlM (fun s : CountSketch => ∀ r ∈ s.rows,
    r.row.Between Count.least Count.greatest)
    (fun {s s' unit} hs hi => ?_) ?_ run
  · obtain ⟨rows, hm, hi⟩ := Checked.bind_eq_ok.mp hi
    obtain rfl := Checked.pure_eq_ok.mp hi
    intro r' hr
    obtain ⟨r, hmem, hadd⟩ := Checked.exists_of_mem_mapM hm hr
    exact SignedRow.between_of_add (hs r hmem) hadd
  · obtain ⟨length, -, -, -, rfl⟩ := exists_length_of_budget built
    intro r hr
    obtain ⟨⟨hash, signs⟩, -, rfl⟩ := List.mem_map.mp hr
    exact (Row.between_fill length hash).mono (by decide) (by decide)

/-- One row in the extreme state is enough for a query to overflow. -/
theorem query_eq_error_of_extreme (hfits : ∀ r ∈ s.rows, r.row.Between Count.least Count.greatest)
    (hlength : ∀ r ∈ s.rows, 0 < r.row.length) (h : ∃ r ∈ s.rows, r.Extreme key) :
    Estimator.query s key = .error (.fault (.overflow .multiply)) := by
  obtain ⟨r, hr, hextreme⟩ := h
  have hm : s.rows.mapM (·.estimate key) = .error (.overflow .multiply) := by
    -- rows before it either have an estimate or fail in the same way
    refine Checked.mapM_eq_error
      (fun other ho => ?_) ⟨r, hr, SignedRow.estimate_of_extreme hextreme⟩
    by_cases hother : other.Extreme key
    · exact .inr (SignedRow.estimate_of_extreme hother)
    · exact .inl (SignedRow.exists_estimate_of_not_extreme (hfits other ho)
        (hlength other ho) hother)
  refine Outcome.ofChecked_eq_error.mpr ?_
  show s.query key = _
  rw [query, hm]
  rfl

/-- Without such a row a query has a value. -/
theorem Vacant.exists_answer (h : start.Vacant)
    (hfits : ∀ r ∈ (start.totals units).rows, r.row.Between Count.least Count.greatest)
    (hne : ∀ r ∈ (start.totals units).rows, ¬r.Extreme key) : ∃ answer,
      Estimator.query (start.totals units) key = .ok answer ∧
        (start.rows.map (·.estimateOf units key)).min? = some answer := by
  have hestimates : start.rows.map (·.estimateOf units key) ≠ [] := fun he =>
    h.rows_ne_nil (List.map_eq_nil_iff.mp he)
  refine ⟨Count.leastOf (start.rows.map (·.estimateOf units key)), ?_,
    Count.min?_eq_leastOf hestimates⟩
  refine h.query_totals_eq_ok_iff.mpr ⟨fun r hr => ?_, rfl⟩
  have hmem : r.totals units ∈ (start.totals units).rows := List.mem_map_of_mem hr
  have hlength := (h.rows_vacant r hr).length_pos
  obtain ⟨estimate, he⟩ := SignedRow.exists_estimate_of_not_extreme (hfits _ hmem)
    (Row.length_totals.symm ▸ hlength) (hne _ hmem)
  rw [SignedRow.estimate_totals hlength] at he
  exact (Count.narrow_eq_ok_iff.mp he).1

/-- When the queries after some units have a value. -/
structure Answered (start s : CountSketch) (units : List Entry) : Prop where
  /-- A row in the extreme state makes the query overflow. -/
  query_eq_error : ∀ key, (∃ r ∈ s.rows, r.Extreme key) →
    Estimator.query s key = .error (.fault (.overflow .multiply))
  /-- Otherwise the least estimate is the answer. -/
  exists_answer : ∀ key, (∀ r ∈ s.rows, ¬r.Extreme key) → ∃ answer,
    Estimator.query s key = .ok answer ∧
    (start.rows.map (·.estimateOf units key)).min? = some answer
  /-- With weights that are not negative no row is in the extreme state, unless the keys of a bucket
  weigh more than a counter can hold. -/
  not_extreme : (∀ unit ∈ units, 0 ≤ unit.count) → ∀ key,
    (∀ r ∈ start.rows, weightOf (r.row.shares key) units ≤ Count.greatest) →
    ∀ r ∈ s.rows, ¬r.Extreme key

/-- **After inserts that have a value a query has one too, unless it has to
turn the least counter over.** -/
theorem answered_of_insertAll {memory rows width : Nat} {seed : UInt64}
    (built : ofBudget memory rows width seed = .ok start)
    (run : Estimator.insertAll start units = .ok s) : Answered start s units := by
  have hvacant := vacant_of_ofBudget built
  have hfits := between_of_insertAll built run
  obtain rfl := hvacant.eq_totals_of_insertAll run
  refine ⟨fun key h => query_eq_error_of_extreme hfits (fun r hr => ?_) h,
    fun key hne => hvacant.exists_answer hfits hne, fun hpos key hle r hr hextreme => ?_⟩
  · obtain ⟨r₀, hr₀, rfl⟩ := List.mem_map.mp hr
    exact Row.length_totals.symm ▸ (hvacant.rows_vacant r₀ hr₀).length_pos
  · obtain ⟨r₀, hr₀, rfl⟩ := List.mem_map.mp hr
    have hlt := SignedRow.lt_weightOf_of_extreme
      (hvacant.rows_vacant r₀ hr₀).length_pos hpos hextreme
    have := hle r₀ hr₀
    omega

/-- Two rows of one counter each, of which the first is at the least number: the key 4 counts it as
it is, for the key 3 it would have to be turned over. -/
theorem answered_of_insertAll_two_rows : ∃ start s, ofBudget 8 2 4 1 = .ok start ∧
    Estimator.insertAll start [⟨1, 2147483647⟩, ⟨2, 1⟩] = .ok s ∧
    s.rows.map (·.row.cells) = [#[-2147483648], #[-2147483646]] ∧ Answered start s
    [⟨1, 2147483647⟩, ⟨2, 1⟩] ∧
    Estimator.query s 4 = .ok (-2147483648) ∧
    Estimator.query s 3 = .error (.fault (.overflow .multiply)) := by
  have hrun : (do
      let start ← ofBudget 8 2 4 1
      let s ← Outcome.ofChecked (Estimator.insertAll start [⟨1, 2147483647⟩, ⟨2, 1⟩])
      return (s.rows.map (·.row.cells), Estimator.query s 4, s.rows.map fun r =>
        (r.row.get 3, r.signs.sign 3))
      : Outcome (List (Array Int) × Outcome Int × List (Checked Int × Int)))
        = .ok ([#[-2147483648], #[-2147483646]], .ok (-2147483648),
          [(.ok (-2147483648), -1), (.ok (-2147483646), 1)]) := by decide +kernel
  obtain ⟨start, built, hrun⟩ := Checked.bind_eq_ok.mp hrun
  obtain ⟨s, run, hrun⟩ := Checked.bind_eq_ok.mp hrun
  have run := Outcome.ofChecked_eq_ok.mp run
  have hseen := Checked.pure_eq_ok.mp hrun
  rw [Prod.mk.injEq, Prod.mk.injEq] at hseen
  obtain ⟨hcells, hquery, hrows⟩ := hseen
  have hanswered := answered_of_insertAll built run
  obtain ⟨r, hr, hextreme⟩ := List.mem_map.mp (hrows ▸ List.mem_cons_self)
  obtain ⟨hget, hsign⟩ := Prod.mk.inj hextreme
  exact ⟨start, s, built, run, hcells, hanswered, hquery,
    hanswered.query_eq_error 3 ⟨r, hr, hget, hsign⟩⟩

/-- Inserts that have a value, and a query that overflows although the least estimate would fit. -/
theorem exists_overflowing_estimate : ∃ start s, ofBudget 8 2 4 1 = .ok start ∧
    (∀ unit ∈ ([⟨1, 2147483647⟩, ⟨2, 1⟩] : List Entry), 0 ≤ unit.count) ∧
    Estimator.insertAll start [⟨1, 2147483647⟩, ⟨2, 1⟩] = .ok s ∧
    Estimator.query s 1 = .error (.fault (.overflow .multiply)) ∧
    (start.rows.map (·.estimateOf [⟨1, 2147483647⟩, ⟨2, 1⟩] 1)).min? = some 2147483646 := by
  have hrun : (do
      let start ← ofBudget 8 2 4 1
      let s ← Outcome.ofChecked (Estimator.insertAll start [⟨1, 2147483647⟩, ⟨2, 1⟩])
      return (Estimator.query s 1, (start.rows.map (·.estimateOf [⟨1, 2147483647⟩, ⟨2, 1⟩] 1)).min?)
      : Outcome (Outcome Int × Option Int))
        = .ok (.error (.fault (.overflow .multiply)), some 2147483646) := by decide +kernel
  obtain ⟨start, built, hrun⟩ := Checked.bind_eq_ok.mp hrun
  obtain ⟨s, run, hrun⟩ := Checked.bind_eq_ok.mp hrun
  obtain ⟨hquery, hleast⟩ := Prod.mk.inj (Checked.pure_eq_ok.mp hrun)
  exact ⟨start, s, built, by decide, Outcome.ofChecked_eq_ok.mp run, hquery, hleast⟩

end CountSketch

end HeavyHitters
