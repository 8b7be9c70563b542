import HeavyHitters.Proofs.Estimator.Linear
import HeavyHitters.Proofs.Estimator.Sandwich
import HeavyHitters.Proofs.Median

/-!
# Sampled rows below those of count-min

A sampled sketch and a count-min sketch that are built alike are given the same units.  A row that a
coin does not select falls behind its twin in the other sketch, and never catches up: each of its
counters stays between zero and the counter of the twin in the same cell.  So the sampled sketch has
room for every weight that count-min has room for, whatever the coins show.

At a rate of 1 every row is selected and no row falls behind.  What is divided by the rate
is then a count or half a sum of two, which are doubles, so the answer is the median of
the counters to the last digit.

* `Row.Within.exists_sampled` is one row and its twin, with and without the weight.
* `Sampled.Lockstep` is the relation of the two sketches, which
  `Sampled.Lockstep.exists_insertAll` carries along a run.
* `Sampled.scaledMedian_of_one` says that at a rate of 1 nothing is lost to rounding.
* `Sampled.Thinned` is what the two sketches are to each other and to the units, and
  `Sampled.thinned_of_insertAll` says that every run leads to it.
-/

namespace HeavyHitters

/-! ## A row and its twin -/

namespace Row

variable {low high high' : Row Int} {key : Key} {weight : Int}

/-- A row may take in or leave out what its twin takes in.  If it takes
all in, it stays equal to it. -/
theorem Within.exists_sampled (h : Within low high) (hw : 0 ≤ weight)
    (hu : high.update key (Count.plus · weight) = .ok high') (selected : Bool) : ∃ low',
      (if selected then low.update key (Count.plus · weight) else .ok low) = .ok low' ∧
      Within low' high' ∧
        (selected = true → low = high → low' = high') := by
  obtain ⟨count, sum, hcount, hplus, rfl⟩ := update_eq_ok_iff.mp hu
  obtain ⟨hfits, rfl⟩ := Count.plus_eq_ok_iff.mp hplus
  obtain ⟨current, hget⟩ := exists_get_eq_ok low key h.length_pos
  have hnonneg := h.get_nonneg hget
  have hle := h.get_le hget hcount
  cases selected with
  | true =>
    -- the twin has no less in this cell, and has room for the weight
    have hfits' : Count.Fits (current + weight) :=
      Count.fits_of_bounds (by unfold Count.greatest; omega) (Int.le_trans (by omega) hfits.2)
    refine ⟨low.set key (current + weight), ?_, h.set (by omega) (by omega), fun _ hsame => ?_⟩
    · rw [if_pos rfl]
      exact update_eq_ok_iff.mpr ⟨current, _, hget, Count.plus_eq_ok_iff.mpr ⟨hfits', rfl⟩, rfl⟩
    · subst hsame
      rw [Except.ok.inj (hget.symm.trans hcount)]
  | false =>
    refine ⟨low, if_neg Bool.false_ne_true, ?_, fun hfalse => absurd hfalse Bool.false_ne_true⟩
    have hwithin : Within (low.set key current) (high.set key (count + weight)) :=
      h.set hnonneg (by omega)
    rwa [set_of_get hget] at hwithin

end Row

/-- The counters of a count-min sketch fit after every run. -/
theorem CountMin.between_of_insertAll {s s' : CountMin} {units : List Entry}
    (h : ∀ row ∈ s.rows, row.Between Count.least Count.greatest)
    (run : Estimator.insertAll s units = .ok s') :
    ∀ row ∈ s'.rows, row.Between Count.least Count.greatest := by
  refine Checked.kept_foldlM (fun s : CountMin => ∀ row ∈ s.rows,
    row.Between Count.least Count.greatest)
    (fun {s s' unit} hs hi => ?_) h run
  obtain ⟨rows, hm, hi⟩ := Checked.bind_eq_ok.mp hi
  obtain rfl := Checked.pure_eq_ok.mp hi
  intro row' hr
  obtain ⟨row, hmem, hu⟩ := Checked.exists_of_mem_mapM hm hr
  refine (hs row hmem).of_update (fun old new hplus => ?_) hu
  obtain ⟨hfits, rfl⟩ := Count.plus_eq_ok_iff.mp hplus
  exact hfits

namespace Sampled

variable {ρ : Type} {rate : SamplingRate} {low high high' : List (Row Int)}
  {key : Key} {weight : Int} {units : List Entry} {counts : List Int} {lower : Sampled ρ}
    {upper upper' : CountMin}

/-! ## Runs in lockstep -/

/-- Each row is within its twin, and at a rate of 1 equal to it. -/
structure Lockstep (rate : SamplingRate) (low high : List (Row Int)) : Prop where
  rows_within : List.Forall₂ Row.Within low high
  rows_eq : rate.ratio.numerator = rate.ratio.denominator → low = high

section

variable [RandomSource ρ]

/-- **A sampled insert has a value where the full one has**, and stays below it. -/
theorem Lockstep.exists_addSampled (h : Lockstep rate low high) (hw : 0 ≤ weight)
    (hm : high.mapM (fun row => row.update key (Count.plus · weight)) = .ok high') (source : ρ) :
    ∃ low' source', addSampled rate key weight low source = .ok (low', source') ∧
    Lockstep rate low' high' := by
  obtain ⟨hwithin, heq⟩ := h
  have hupdates := Checked.mapM_eq_ok.mp hm
  clear hm
  induction hwithin generalizing high' source with
  | nil =>
    cases hupdates
    exact ⟨[], source, rfl, .nil, fun _ => rfl⟩
  | @cons row twin low high hrow _ ih =>
    cases hupdates with
    | @cons _ twin' _ high' hupdate hupdates =>
      obtain ⟨row', hrow', hwithin', hsame⟩ := hrow.exists_sampled hw hupdate
        (rate.selects (RandomSource.significand source).1)
      obtain ⟨low', source', hadded, hlockstep⟩ := ih (RandomSource.significand source).2
        (fun hone => (List.cons.inj (heq hone)).2) hupdates
      refine ⟨row' :: low', source', ?_, .cons hwithin' hlockstep.rows_within, fun hone => ?_⟩
      · rw [addSampled_cons]
        exact Checked.bind_eq_ok.mpr
          ⟨row', hrow', Checked.map_eq_ok.mpr ⟨(low', source'), hadded, rfl⟩⟩
      · have hselects := SamplingRate.selects_of_one hone (RandomSource.significand_lt source)
        rw [hsame hselects (List.cons.inj (heq hone)).1, hlockstep.rows_eq hone]

theorem Lockstep.exists_insert (h : Lockstep lower.rate lower.rows upper.rows) (hw : 0 ≤ weight)
    (hi : Estimator.insert upper key weight = .ok upper') : ∃ lower' : Sampled ρ,
      Estimator.insert lower key weight = .ok lower' ∧ lower'.rate = lower.rate ∧
        Lockstep lower'.rate lower'.rows upper'.rows := by
  obtain ⟨rate, low, source⟩ := lower
  obtain ⟨high', hm, hi⟩ := Checked.bind_eq_ok.mp hi
  obtain rfl := Checked.pure_eq_ok.mp hi
  obtain ⟨low', source', hadded, hlockstep⟩ := h.exists_addSampled hw hm source
  exact ⟨⟨rate, low', source'⟩,
    Checked.bind_eq_ok.mpr ⟨(low', source'), hadded, rfl⟩, rfl, hlockstep⟩

theorem Lockstep.exists_insertAll (h : Lockstep lower.rate lower.rows upper.rows)
    (hpos : ∀ unit ∈ units, 0 ≤ unit.count) (run : Estimator.insertAll upper units = .ok upper') :
    ∃ lower' : Sampled ρ, Estimator.insertAll lower units = .ok lower' ∧ lower'.rate = lower.rate ∧
      Lockstep lower'.rate lower'.rows upper'.rows := by
  induction units generalizing lower upper with
  | nil =>
    cases run
    exact ⟨lower, rfl, rfl, h⟩
  | cons unit units ih =>
    obtain ⟨hunit, hrest⟩ := List.forall_mem_cons.mp hpos
    rw [Estimator.insertAll_cons] at run
    obtain ⟨upper₁, hi, run⟩ := Checked.bind_eq_ok.mp run
    obtain ⟨lower₁, hi', hrate, h₁⟩ := h.exists_insert hunit hi
    obtain ⟨lower', run', hrate', h'⟩ := ih h₁ hrest run
    exact ⟨lower', Checked.bind_eq_ok.mpr ⟨lower₁, hi', run'⟩, hrate'.trans hrate, h'⟩

end

/-! ## Answers at a rate of 1 -/

/-- **At a rate of 1 the median scaled up is the median**: all that is divided is a
double, and fits a counter. -/
theorem scaledMedian_of_one (hone : rate.ratio.numerator = rate.ratio.denominator)
    (hfits : ∀ count ∈ counts, Count.Fits count) :
    scaledMedian rate counts = Count.median counts := by
  by_cases hne : counts = []
  · subst hne
    have hzero : rate.scaleUp 0 2 = 0 := SamplingRate.scaleUp_two_of_one hone (by decide)
    show Count.clamp (rate.scaleUp 0 2) = 0
    rw [hzero]
    rfl
  have hlength := List.length_pos_iff.mpr hne
  -- what is divided is a counter or the sum of two, far below the numbers that doubles round
  have hmiddle : ∀ i < counts.length, Count.Fits ((Count.sorted counts).getD i 0) := fun i hi =>
    hfits _ (Count.getD_sorted_mem hi)
  have hmedian : Count.Fits (Count.median counts) := Count.fits_median hfits
  unfold scaledMedian
  simp only [Count.length_sorted]
  refine Eq.trans ?_ (Count.clamp_of_fits hmedian)
  unfold Count.median
  simp only [Count.length_sorted]
  congr 1
  split
  · have hupper := Count.fits_iff.mp (hmiddle (counts.length / 2) (by omega))
    exact SamplingRate.scaleUp_one_of_one hone (by omega)
  · have hlower := Count.fits_iff.mp (hmiddle (counts.length / 2 - 1) (by omega))
    have hupper := Count.fits_iff.mp (hmiddle (counts.length / 2) (by omega))
    rw [if_neg (by omega)]
    exact SamplingRate.scaleUp_two_of_one hone (by omega)

/-- The rate of 1 has equal parts. -/
theorem eq_of_ofFloat?_one (h : SamplingRate.ofFloat? 1.0 = some rate) :
    rate.ratio.numerator = rate.ratio.denominator := by
  have hparts : (SamplingRate.ofFloat? 1.0).map
      (fun rate => decide (rate.ratio.numerator = rate.ratio.denominator)) = some true := by
        decide +kernel
  rw [h] at hparts
  exact of_decide_eq_true (Option.some.inj hparts)

/-! ## Two runs -/

/-- What is built for samples starts out in lockstep with a count-min sketch. -/
theorem exists_ofBudget_lockstep {source : UInt64 → ρ} {memory rows width : Nat}
    {rate : Float} {seed : UInt64} {start : Sampled ρ}
    (built : ofBudget source memory rate rows width seed = .ok start) : ∃ base,
      CountMin.ofBudget memory rows width seed = .ok base ∧
      SamplingRate.ofFloat? rate = some start.rate ∧
        (∀ row ∈ base.rows, row.Between Count.least Count.greatest) ∧
          Lockstep start.rate start.rows base.rows := by
  unfold ofBudget at built
  split at built
  · cases built
  next _ hrate =>
  obtain ⟨length, hl, built⟩ := Checked.bind_eq_ok.mp built
  obtain ⟨_, hreserve, built⟩ := Checked.bind_eq_ok.mp built
  obtain rfl := Checked.pure_eq_ok.mp built
  obtain ⟨-, -, hlength, -⟩ := rowLength_eq_ok hl
  refine ⟨⟨table (SeedStream.hashes ⟨seed⟩ rows).1 length 0⟩, ?_, hrate,
    fun row hr => ?_, ?_, fun _ => rfl⟩
  · refine Checked.bind_eq_ok.mpr ⟨length, rowLength_of_subject hl, ?_⟩
    exact Checked.bind_eq_ok.mpr ⟨_, hreserve, rfl⟩
  · obtain ⟨hash, rfl⟩ := mem_table hr
    exact (Row.between_fill length hash).mono (by decide) (by decide)
  · refine List.forall₂_same.mpr fun row hr => ?_
    obtain ⟨hash, rfl⟩ := mem_table hr
    exact Row.within_fill hlength hash

section

variable [RandomSource ρ]

/-- What a sampled sketch, a count-min sketch and the units that both
were given are to each other. -/
structure Thinned (rate : Float) (units : List Entry) (lower : Sampled ρ)
    (upper : CountMin) : Prop where
  /-- Each counter is between zero and the other's in the same cell. -/
  rows_within : List.Forall₂ Row.Within lower.rows upper.rows
  exists_answer : ∀ key, ∃ answer, Estimator.query lower key = .ok answer
  rows_eq : rate = 1.0 → lower.rows = upper.rows
  /-- At a rate of 1 an answer is the median of the counters, and so no less than the other's
  answer, which is the least of them, and the weight of the key. -/
  exists_median : rate = 1.0 → ∀ key, ∃ counts least, upper.rows.mapM (·.get key) = .ok counts ∧
    Estimator.query lower key = .ok (Count.median counts) ∧ Estimator.query upper key = .ok least ∧
      least ≤ Count.median counts ∧ weightOf (· == key) units ≤ Count.median counts

/-- A sketch whose rows have twins answers every query, whatever its rate is. -/
theorem exists_answer_of_within (h : List.Forall₂ Row.Within lower.rows high) (key : Key) :
    ∃ answer, Estimator.query lower key = .ok answer := by
  have hlength : ∀ row ∈ lower.rows, 0 < row.length :=
    ((List.forall₂_and_left _ _).mp (h.imp fun _ _ hrow => ⟨hrow.length_pos, hrow⟩)).1
  obtain ⟨counts, hm⟩ := Checked.exists_mapM fun row hr =>
    Row.exists_get_eq_ok row key (hlength row hr)
  exact ⟨_, Outcome.ofChecked_eq_ok.mpr (Checked.bind_eq_ok.mpr ⟨counts, hm, rfl⟩)⟩

/-- Answers of two sketches with the same rows, at a rate of 1. -/
theorem exists_median_of_given (hone : lower.rate.ratio.numerator = lower.rate.ratio.denominator)
    (hrows : lower.rows = upper.rows)
    (hfits : ∀ row ∈ upper.rows, row.Between Count.least Count.greatest)
    (hgiven : CountMin.Given units upper) (hpos : ∀ unit ∈ units, 0 ≤ unit.count) (key : Key) :
    ∃ counts least,
      upper.rows.mapM (·.get key) = .ok counts ∧
      Estimator.query lower key = .ok (Count.median counts) ∧
        Estimator.query upper key = .ok least ∧ least ≤ Count.median counts ∧
          weightOf (· == key) units ≤ Count.median counts := by
  obtain ⟨hne, hshows⟩ := hgiven
  obtain ⟨counts, hm⟩ := Checked.exists_mapM fun row hr =>
    Row.exists_get_eq_ok row key (hshows row hr).length_pos
  have hcounts : counts ≠ [] := Conservative.counts_ne_nil hne hm
  have hcount : ∀ count ∈ counts, Count.Fits count ∧ weightOf (· == key) units ≤ count := by
    intro count hc
    obtain ⟨row, hr, hget⟩ := Checked.exists_of_mem_mapM hm hc
    exact ⟨hfits row hr _ _ (Row.get_eq_ok_iff.mp hget),
      ((hshows row hr).covers hpos).le_get key count hget⟩
  refine ⟨counts, Count.leastOf counts, hm, ?_, ?_, ?_, ?_⟩
  · refine Outcome.ofChecked_eq_ok.mpr (Checked.bind_eq_ok.mpr ⟨counts, hrows ▸ hm, ?_⟩)
    rw [scaledMedian_of_one hone fun count hc => (hcount count hc).1]
    rfl
  · exact Outcome.ofChecked_eq_ok.mpr (Checked.bind_eq_ok.mpr ⟨counts, hm, rfl⟩)
  · exact Count.le_median hcounts ((Count.le_leastOf_iff hcounts).mp (Int.le_refl _))
  · exact Count.le_median hcounts fun count hc => (hcount count hc).2

/--
**Where count-min has a value, a sketch of samples has one too**, with no greater counters, whatever
the coins show.  At a rate of 1 the counters are the same, and the answers are their medians.
-/
theorem thinned_of_insertAll {source : UInt64 → ρ} {memory rows width : Nat}
    {rate : Float} {seed : UInt64} {start : Sampled ρ}
    (built : ofBudget source memory rate rows width seed = .ok start) :
    ∃ base, CountMin.ofBudget memory rows width seed = .ok base ∧ ∀ units upper,
      (∀ unit ∈ units, 0 ≤ unit.count) → Estimator.insertAll base units = .ok upper →
      ∃ lower : Sampled ρ,
        Estimator.insertAll start units = .ok lower ∧ Thinned rate units lower upper := by
  obtain ⟨base, hbase, hrate, hfits, hlockstep⟩ := exists_ofBudget_lockstep built
  refine ⟨base, hbase, fun units upper hpos run => ?_⟩
  obtain ⟨lower, run', hsame, h⟩ := hlockstep.exists_insertAll hpos run
  have hgiven : CountMin.Given units upper :=
    CountMin.oneSided.given_insertAll (CountMin.given_of_ofBudget hbase) hpos run
  have hone : rate = 1.0 → lower.rate.ratio.numerator = lower.rate.ratio.denominator := by
    rintro rfl
    rw [hsame]
    exact eq_of_ofFloat?_one hrate
  refine ⟨lower, run', h.rows_within, exists_answer_of_within h.rows_within, fun hrate =>
    h.rows_eq (hone hrate), fun hrate => ?_⟩
  exact exists_median_of_given (hone hrate) (h.rows_eq (hone hrate))
    (CountMin.between_of_insertAll hfits run) hgiven
    hpos

end

/-- Two rows of three counters: with half of the weight left out the counters are lower, and with
nothing left out the key 7 has half of 9 and 4, rounded toward zero. -/
theorem thinned_of_insertAll_two_rows :
    ∃ (base upper : CountMin) (full full' half half' : Sampled Xoshiro),
    CountMin.ofBudget 24 2 4 2 = .ok base ∧
      Estimator.insertAll base [⟨5, 3⟩, ⟨3, 2⟩, ⟨9, 1⟩, ⟨5, 1⟩, ⟨7, 4⟩] = .ok upper ∧
      upper.rows.map (·.cells) = [#[9, 0, 2], #[7, 4, 0]] ∧
      ofBudget Xoshiro.ofSeed 24 1.0 2 4 2 = .ok full ∧
      Estimator.insertAll full [⟨5, 3⟩, ⟨3, 2⟩, ⟨9, 1⟩, ⟨5, 1⟩, ⟨7, 4⟩] = .ok full' ∧
      Thinned 1.0 [⟨5, 3⟩, ⟨3, 2⟩, ⟨9, 1⟩, ⟨5, 1⟩, ⟨7, 4⟩] full' upper ∧
      Estimator.query full' 7 = .ok 6 ∧
      ofBudget Xoshiro.ofSeed 24 0.5 2 4 2 = .ok half ∧
      Estimator.insertAll half [⟨5, 3⟩, ⟨3, 2⟩, ⟨9, 1⟩, ⟨5, 1⟩, ⟨7, 4⟩] = .ok half' ∧
      Thinned 0.5 [⟨5, 3⟩, ⟨3, 2⟩, ⟨9, 1⟩, ⟨5, 1⟩, ⟨7, 4⟩] half' upper ∧
      half'.rows.map (·.cells) = [#[7, 0, 2], #[6, 0, 0]] := by
  have hbase : (do
      let base ← CountMin.ofBudget 24 2 4 2
      let upper ← Outcome.ofChecked
        (Estimator.insertAll base [⟨5, 3⟩, ⟨3, 2⟩, ⟨9, 1⟩, ⟨5, 1⟩, ⟨7, 4⟩])
      return upper.rows.map (·.cells) : Outcome (List (Array Int)))
        = .ok [#[9, 0, 2], #[7, 4, 0]] := by
    decide +kernel
  have hfull : (do
      let full ← ofBudget Xoshiro.ofSeed 24 1.0 2 4 2
      let full' ← Outcome.ofChecked
        (Estimator.insertAll full [⟨5, 3⟩, ⟨3, 2⟩, ⟨9, 1⟩, ⟨5, 1⟩, ⟨7, 4⟩])
      Estimator.query full' 7 : Outcome Int) = .ok 6 := by decide +kernel
  have hhalf : (do
      let half ← ofBudget Xoshiro.ofSeed 24 0.5 2 4 2
      let half' ← Outcome.ofChecked
        (Estimator.insertAll half [⟨5, 3⟩, ⟨3, 2⟩, ⟨9, 1⟩, ⟨5, 1⟩, ⟨7, 4⟩])
      return half'.rows.map (·.cells) : Outcome (List (Array Int)))
        = .ok [#[7, 0, 2], #[6, 0, 0]] := by
    decide +kernel
  obtain ⟨base, built, hbase⟩ := Checked.bind_eq_ok.mp hbase
  obtain ⟨upper, run, hbase⟩ := Checked.bind_eq_ok.mp hbase
  obtain ⟨full, built₁, hfull⟩ := Checked.bind_eq_ok.mp hfull
  obtain ⟨full', run₁, hquery⟩ := Checked.bind_eq_ok.mp hfull
  obtain ⟨half, built₂, hhalf⟩ := Checked.bind_eq_ok.mp hhalf
  obtain ⟨half', run₂, hhalf⟩ := Checked.bind_eq_ok.mp hhalf
  have run := Outcome.ofChecked_eq_ok.mp run
  have run₁ := Outcome.ofChecked_eq_ok.mp run₁
  have run₂ := Outcome.ofChecked_eq_ok.mp run₂
  have hpos : ∀ unit ∈ ([⟨5, 3⟩, ⟨3, 2⟩, ⟨9, 1⟩, ⟨5, 1⟩, ⟨7, 4⟩] : List Entry),
    0 ≤ unit.count := by decide
  obtain ⟨base₁, hbase₁, hthinned₁⟩ := thinned_of_insertAll built₁
  obtain ⟨base₂, hbase₂, hthinned₂⟩ := thinned_of_insertAll built₂
  obtain rfl := Except.ok.inj (built.symm.trans hbase₁)
  obtain rfl := Except.ok.inj (built.symm.trans hbase₂)
  obtain ⟨lower₁, hlower₁, h₁⟩ := hthinned₁ _ upper hpos run
  obtain ⟨lower₂, hlower₂, h₂⟩ := hthinned₂ _ upper hpos run
  obtain rfl := Except.ok.inj (run₁.symm.trans hlower₁)
  obtain rfl := Except.ok.inj (run₂.symm.trans hlower₂)
  exact ⟨base, upper, full, full', half, half', built, run, Checked.pure_eq_ok.mp hbase,
    built₁, run₁, h₁, hquery, built₂, run₂, h₂, Checked.pure_eq_ok.mp hhalf⟩

end Sampled

end HeavyHitters
