import HeavyHitters.Estimator.CountMin
import HeavyHitters.Proofs.Counters.Totals

/-!
# What a count-min sketch holds and answers

Every counter of a count-min sketch is the total of the weights that came to its bucket, whatever
their signs.  So the order of the units leaves no trace, and an answer errs only by the keys that
collide with its key in every row: with weights that are not negative it is between the weight of
the key and that of all keys, and it never falls.

* `CountMin.eq_totals_of_insertAll` gives the sketch in closed form after any run.
* `CountMin.Exact` is what the counters and the answers are to the units, and
  `CountMin.exact_of_insertAll` says that every run of a built sketch leads to it.
-/

namespace HeavyHitters

namespace CountMin

variable {start s s' : CountMin} {units others past rest : List Entry} {unit : Entry} {key : Key}

/-! ## Runs -/

/-- The sketch of the same rows that holds the given units. -/
def totals (s : CountMin) (units : List Entry) : CountMin := ⟨s.rows.map (·.totals units)⟩

/-- A sketch of some rows, which hold nothing. -/
structure Vacant (s : CountMin) : Prop where
  rows_ne_nil : s.rows ≠ []
  rows_vacant : ∀ row ∈ s.rows, row.Vacant

theorem vacant_of_ofBudget {memory rows width : Nat} {seed : UInt64}
    (h : ofBudget memory rows width seed = .ok s) : s.Vacant := by
  obtain ⟨length, hrows, hlength, -, rfl⟩ := exists_length_of_budget h
  refine ⟨table_ne_nil hrows _ _ _, fun row hr => ?_⟩
  obtain ⟨hash, rfl⟩ := mem_table hr
  exact Row.vacant_fill hlength hash

theorem Vacant.totals_nil (h : s.Vacant) : s.totals [] = s :=
  congrArg CountMin.mk (Row.map_totals_nil h.rows_vacant)

/-- An insert leads to the sketch that holds one unit more. -/
theorem Vacant.insert_totals (h : start.Vacant)
    (hi : (start.totals past).insert unit.key unit.count = .ok s) :
    s = start.totals (past ++ [unit]) := by
  obtain ⟨rows, hm, hi⟩ := Checked.bind_eq_ok.mp hi
  obtain rfl := Checked.pure_eq_ok.mp hi
  rw [totals, List.mapM_map] at hm
  obtain ⟨-, rfl⟩ := (Checked.mapM_eq_ok_map_iff fun row hr _ =>
    Row.update_totals_eq_ok_iff (h.rows_vacant row hr).length_pos).mp hm
  rfl

/-- **After a run a sketch holds the units of the run.** -/
theorem Vacant.eq_totals_of_insertAll (h : start.Vacant)
    (run : Estimator.insertAll start units = .ok s) : s = start.totals units := by
  rw [← h.totals_nil] at run
  exact Checked.eq_of_foldlM (fun hi => h.insert_totals hi) run

/-! ## Answers -/

/-- The totals of a key's buckets, row by row. -/
def bucketWeights (s : CountMin) (units : List Entry) (key : Key) : List Int :=
  s.rows.map fun row => weightOf (row.shares key) units

theorem Vacant.bucketWeights_ne_nil (h : start.Vacant) : start.bucketWeights units key ≠ [] :=
  fun he => h.rows_ne_nil (List.map_eq_nil_iff.mp he)

/-- An answer is the least total of the key's buckets. -/
theorem Vacant.query_totals (h : start.Vacant) (units : List Entry) (key : Key) :
    Estimator.query (start.totals units) key
      = .ok (Count.leastOf (start.bucketWeights units key)) := by
  have hm : (start.totals units).rows.mapM (·.get key) = .ok (start.bucketWeights units key) := by
    rw [totals, List.mapM_map]
    exact Checked.mapM_eq_ok_map fun row hr => Row.get_totals (h.rows_vacant row hr).length_pos key
  exact Outcome.ofChecked_eq_ok.mpr (Checked.bind_eq_ok.mpr ⟨_, hm, rfl⟩)

/-- With weights that are not negative the least total is between the weight
of the key and that of all. -/
theorem Vacant.bounds (h : start.Vacant) (hpos : ∀ unit ∈ units, 0 ≤ unit.count) (key : Key) :
    weightOf (· == key) units ≤ Count.leastOf (start.bucketWeights units key) ∧
      Count.leastOf (start.bucketWeights units key) ≤ weightOf allKeys units := by
  have hne : start.bucketWeights units key ≠ [] := h.bucketWeights_ne_nil
  constructor
  · refine (Count.le_leastOf_iff hne).mpr fun total ht => ?_
    obtain ⟨row, -, rfl⟩ := List.mem_map.mp ht
    exact row.weightOf_le_shares hpos key
  · obtain ⟨row, -, htotal⟩ := List.mem_map.mp (Count.leastOf_mem hne)
    have hle : weightOf (row.shares key) units ≤ weightOf allKeys units := weightOf_le_all hpos
    exact htotal ▸ hle

/-- More units of such weights leave no total lower. -/
theorem leastOf_bucketWeights_le (start : CountMin)
    (hpos : ∀ unit ∈ rest, 0 ≤ unit.count) (key : Key) :
    Count.leastOf (start.bucketWeights past key)
      ≤ Count.leastOf (start.bucketWeights (past ++ rest) key) := by
  refine Count.leastOf_le_leastOf ?_
  unfold bucketWeights
  rw [List.forall₂_map_left_iff, List.forall₂_map_right_iff]
  refine List.forall₂_same.mpr fun row _ => ?_
  have hrest : 0 ≤ weightOf (row.shares key) rest := weightOf_nonneg hpos
  rw [weightOf_append]
  omega

/-! ## Exactness up to collisions -/

/-- What a sketch is to the units that were inserted into a built one. -/
structure Exact (start s : CountMin) (units : List Entry) : Prop where
  /-- Each counter is the weight of the keys that have its bucket in its row. -/
  counter_eq : ∀ (index : Nat) (row : Row Int), start.rows[index]? = some row →
    ∀ bucket < row.length,
    (s.rows[index]?.bind fun row' => row'.cells[bucket]?)
      = some (weightOf (row.position · == bucket) units)
  /-- An answer is the least weight of the keys that have the key's bucket in a row. -/
  query_eq : ∀ key, ∃ answer, Estimator.query s key = .ok answer ∧
    (start.rows.map fun row => weightOf (row.position · == row.position key) units).min?
      = some answer
  /-- The order of the units does not matter. -/
  of_perm : ∀ others s', others.Perm units → Estimator.insertAll start others = .ok s' → s' = s
  /-- With weights that are not negative an answer is between the weight of
  the key and that of all keys. -/
  bounds : (∀ unit ∈ units, 0 ≤ unit.count) → ∀ key answer, Estimator.query s key = .ok answer →
    weightOf (· == key) units ≤ answer ∧ answer ≤ weightOf allKeys units
  /-- With such weights no answer falls along the run. -/
  monotone : (∀ unit ∈ units, 0 ≤ unit.count) → ∀ past rest, units = past ++ rest → ∃ before,
    Estimator.insertAll start past = .ok before ∧ Estimator.insertAll before rest = .ok s ∧
      ∀ key, ∃ answer answer', Estimator.query before key = .ok answer ∧
        Estimator.query s key = .ok answer' ∧ answer ≤ answer'

/-- **Count-min is exact up to collisions.** -/
theorem exact_of_insertAll {memory rows width : Nat} {seed : UInt64}
    (built : ofBudget memory rows width seed = .ok start)
    (run : Estimator.insertAll start units = .ok s) : Exact start s units := by
  have hvacant := vacant_of_ofBudget built
  have hs := hvacant.eq_totals_of_insertAll run
  refine ⟨?_, ?_, ?_, ?_, ?_⟩
  · intro index row hrow bucket hbucket
    rw [hs, totals, List.getElem?_map, hrow, Option.map_some, Option.bind_some, Row.getElem?_totals,
      if_pos hbucket]
  · intro key
    refine ⟨_, by rw [hs, hvacant.query_totals], ?_⟩
    exact Count.min?_eq_leastOf hvacant.bucketWeights_ne_nil
  · intro others s' hperm run'
    rw [hvacant.eq_totals_of_insertAll run', hs, totals, totals]
    congr 1
    exact List.map_congr_left fun row _ => Row.totals_congr fun key => weightOf_perm hperm
  · intro hpos key answer hanswer
    rw [hs, hvacant.query_totals] at hanswer
    obtain rfl := Except.ok.inj hanswer
    exact hvacant.bounds hpos key
  · rintro hpos past rest rfl
    rw [Estimator.insertAll_append] at run
    obtain ⟨before, hpast, hrest⟩ := Checked.bind_eq_ok.mp run
    refine ⟨before, hpast, hrest, fun key => ?_⟩
    have hbefore := hvacant.eq_totals_of_insertAll hpast
    refine ⟨_, _, by rw [hbefore, hvacant.query_totals], by rw [hs, hvacant.query_totals], ?_⟩
    exact start.leastOf_bucketWeights_le
      (fun unit hu => hpos unit (List.mem_append_right past hu)) key

/-- Two rows of three counters: the key 5 shares its counters with 7 and 9 in one row and with 3 and
9 in the other, where 3 takes weight away. -/
theorem exact_of_insertAll_two_rows : ∃ start s,
    ofBudget 24 2 4 2 = .ok start ∧
      Estimator.insertAll start [⟨5, 3⟩, ⟨3, -2⟩, ⟨9, 1⟩, ⟨5, 1⟩, ⟨7, 4⟩, ⟨1, -6⟩] = .ok s ∧
      s.rows.map (·.cells) = [#[9, -6, -2], #[3, 4, -6]] ∧ Estimator.query s 5 = .ok 3 ∧
      Exact start s [⟨5, 3⟩, ⟨3, -2⟩, ⟨9, 1⟩, ⟨5, 1⟩, ⟨7, 4⟩, ⟨1, -6⟩] := by
  have hrun : (do
      let start ← ofBudget 24 2 4 2
      let s ← Outcome.ofChecked
        (Estimator.insertAll start [⟨5, 3⟩, ⟨3, -2⟩, ⟨9, 1⟩, ⟨5, 1⟩, ⟨7, 4⟩, ⟨1, -6⟩])
      return (s.rows.map (·.cells), Estimator.query s 5) : Outcome (List (Array Int) × Outcome Int))
        = .ok ([#[9, -6, -2], #[3, 4, -6]], .ok 3) := by decide +kernel
  obtain ⟨start, built, hrun⟩ := Checked.bind_eq_ok.mp hrun
  obtain ⟨s, run, hrun⟩ := Checked.bind_eq_ok.mp hrun
  obtain ⟨hcells, hquery⟩ := Prod.mk.inj (Checked.pure_eq_ok.mp hrun)
  have run := Outcome.ofChecked_eq_ok.mp run
  exact ⟨start, s, built, run, hcells, hquery, exact_of_insertAll built run⟩

end CountMin

end HeavyHitters
