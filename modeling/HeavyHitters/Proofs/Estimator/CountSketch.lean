import HeavyHitters.Estimator.CountSketch
import HeavyHitters.Proofs.Counters.Totals

/-!
# Linearity of the count sketch

A count sketch adds up weights with the signs of their keys, and nothing else happens to them.  So
of each key only the net weight leaves a trace: units may be given in any order and in any parts,
and units that are taken back leave the sketch as it was.  An estimate errs by the net weights of
the keys in the same bucket, each of them added or taken away.

* `CountSketch.eq_totals_of_insertAll` gives the sketch in closed form after any run.
* `CountSketch.Linear` is what the counters and the answers are to the units, and
  `CountSketch.linear_of_insertAll` says that every run of a built sketch leads to it.
-/

namespace HeavyHitters

open Finset

namespace CountSketch

variable {start s s' : CountSketch} {units others past rest : List Entry} {unit : Entry} {key : Key}

/-! ## Runs -/

/-- The sketch of the same rows that holds the given units. -/
def totals (s : CountSketch) (units : List Entry) : CountSketch := ⟨s.rows.map (·.totals units)⟩

/-- A sketch of some rows, which hold nothing. -/
structure Vacant (s : CountSketch) : Prop where
  rows_ne_nil : s.rows ≠ []
  rows_vacant : ∀ r ∈ s.rows, r.row.Vacant

theorem vacant_of_ofBudget {memory rows width : Nat} {seed : UInt64}
    (h : ofBudget memory rows width seed = .ok s) : s.Vacant := by
  obtain ⟨length, hrows, hlength, -, rfl⟩ := exists_length_of_budget h
  exact ⟨SignedRow.table_ne_nil hrows _ _, fun r hr => SignedRow.vacant_of_mem_table hlength hr⟩

theorem Vacant.totals_nil (h : s.Vacant) : s.totals [] = s :=
  congrArg CountSketch.mk (SignedRow.map_totals_nil h.rows_vacant)

/-- An insert leads to the sketch that holds one unit more. -/
theorem Vacant.insert_totals (h : start.Vacant)
    (hi : (start.totals past).insert unit.key unit.count = .ok s) :
    s = start.totals (past ++ [unit]) := by
  obtain ⟨rows, hm, hi⟩ := Checked.bind_eq_ok.mp hi
  obtain rfl := Checked.pure_eq_ok.mp hi
  rw [totals, List.mapM_map] at hm
  obtain ⟨-, rfl⟩ := (Checked.mapM_eq_ok_map_iff fun r hr _ =>
    SignedRow.add_totals_eq_ok_iff (h.rows_vacant r hr).length_pos).mp hm
  rfl

/-- **After a run a sketch holds the units of the run.** -/
theorem Vacant.eq_totals_of_insertAll (h : start.Vacant)
    (run : Estimator.insertAll start units = .ok s) : s = start.totals units := by
  rw [← h.totals_nil] at run
  exact Checked.eq_of_foldlM (fun hi => h.insert_totals hi) run

/-- Sketches that hold the same net weight of every key are the same. -/
theorem totals_congr (h : ∀ key, weightOf (· == key) others = weightOf (· == key) units) :
    start.totals others = start.totals units := by
  unfold totals
  congr 1
  exact List.map_congr_left fun r _ => SignedRow.totals_congr h

/-- The counters of a sketch that holds nothing are zero. -/
theorem Vacant.count_eq_zero (h : s.Vacant) : ∀ r ∈ s.rows, ∀ count ∈ r.row.cells, count = 0 := by
  intro r hr count hc
  rw [← (h.rows_vacant r hr).totals_nil] at hc
  obtain ⟨bucket, hb⟩ := Array.mem_iff_getElem?.mp hc
  rw [Row.getElem?_totals] at hb
  split at hb
  · exact (Option.some.inj hb).symm
  · cases hb

/-! ## Answers -/

/-- An answer is the least of the estimates, which all have to fit. -/
theorem Vacant.query_totals_eq_ok_iff (h : start.Vacant) {answer : Int} :
    Estimator.query (start.totals units) key = .ok answer ↔
      (∀ r ∈ start.rows, Count.Fits (r.estimateOf units key)) ∧
        answer = Count.leastOf (start.rows.map (·.estimateOf units key)) := by
  have hm : ∀ estimates, (start.totals units).rows.mapM (·.estimate key) = .ok estimates ↔
      (∀ r ∈ start.rows, Count.Fits (r.estimateOf units key)) ∧
        estimates = start.rows.map (·.estimateOf units key) := by
    intro estimates
    rw [totals, List.mapM_map]
    refine Checked.mapM_eq_ok_map_iff fun r hr estimate => ?_
    rw [Function.comp_apply, SignedRow.estimate_totals (h.rows_vacant r hr).length_pos,
      Count.narrow_eq_ok_iff]
  refine Outcome.ofChecked_eq_ok.trans (Checked.bind_eq_ok.trans ?_)
  simp only [hm, Checked.pure_eq_ok]
  constructor
  · rintro ⟨_, ⟨hfits, rfl⟩, rfl⟩
    exact ⟨hfits, rfl⟩
  · rintro ⟨hfits, rfl⟩
    exact ⟨_, ⟨hfits, rfl⟩, rfl⟩

/-! ## Linearity -/

/-- What a sketch is to the units that were inserted into a built one. -/
structure Linear (start s : CountSketch) (units : List Entry) : Prop where
  /-- Each counter is the signed weight of the keys that have its bucket in its row. -/
  counter_eq : ∀ (index : Nat) (r : SignedRow), start.rows[index]? = some r →
    ∀ bucket < r.row.length,
    (s.rows[index]?.bind fun r' => r'.row.cells[bucket]?)
      = some (weightOf (r.row.position · == bucket) (r.signed units))
  /-- An answer is the least estimate of a row, and there is one if all estimates fit: the net
  weight of the key, and that of the other keys of its bucket, added where the two keys have the
  same sign and taken away where they have not. -/
  query_eq_ok_iff : ∀ key answer, Estimator.query s key = .ok answer ↔
    (∀ r ∈ start.rows, Count.Fits (r.estimateOf units key)) ∧
      (start.rows.map (·.estimateOf units key)).min? = some answer
  /-- Units with the same net weights lead to the same sketch. -/
  of_weights : ∀ others s', (∀ key, weightOf (· == key) others = weightOf (· == key) units) →
    Estimator.insertAll start others = .ok s' → s' = s
  /-- So the order of the units does not matter. -/
  of_perm : ∀ others s', others.Perm units → Estimator.insertAll start others = .ok s' → s' = s
  /-- A unit may be given in parts. -/
  of_parts : ∀ past rest key a b s', units = past ++ ⟨key, a + b⟩ :: rest →
    Estimator.insertAll start (past ++ ⟨key, a⟩ :: ⟨key, b⟩ :: rest) = .ok s' → s' = s
  /-- Units that are taken back bring all counters back to zero. -/
  of_negated : ∀ s', Estimator.insertAll s (units.map fun unit =>
    ⟨unit.key, -unit.count⟩) = .ok s' →
    s' = start ∧ ∀ r ∈ s'.rows, ∀ count ∈ r.row.cells, count = 0
  /-- An answer is no more than the net weight of the key where it is
  alone in its bucket of a row. -/
  le_of_alone : ∀ key answer, Estimator.query s key = .ok answer →
    ∀ r ∈ start.rows, r.row.Alone units key → answer ≤ weightOf (· == key) units

/-- **A count sketch is linear in what is inserted.** -/
theorem linear_of_insertAll {memory rows width : Nat} {seed : UInt64}
    (built : ofBudget memory rows width seed = .ok start)
    (run : Estimator.insertAll start units = .ok s) : Linear start s units := by
  have hvacant := vacant_of_ofBudget built
  have hs := hvacant.eq_totals_of_insertAll run
  have hweights : ∀ others s', (∀ key, weightOf (· == key) others = weightOf (· == key) units) →
      Estimator.insertAll start others = .ok s' → s' = s := by
    intro others s' hsame run'
    rw [hs, hvacant.eq_totals_of_insertAll run', totals_congr hsame]
  have hestimates : ∀ key, start.rows.map (·.estimateOf units key) ≠ [] := fun key he =>
    hvacant.rows_ne_nil (List.map_eq_nil_iff.mp he)
  refine ⟨?_, ?_, hweights, ?_, ?_, ?_, ?_⟩
  · intro index r hr bucket hbucket
    rw [hs, totals, List.getElem?_map, hr, Option.map_some, Option.bind_some]
    exact (Row.getElem?_totals bucket).trans (if_pos hbucket)
  · intro key answer
    rw [hs, hvacant.query_totals_eq_ok_iff, Count.min?_eq_leastOf (hestimates key), Option.some_inj,
      eq_comm (a := answer)]
  · intro others s' hperm run'
    exact hweights others s' (fun key => weightOf_perm hperm) run'
  · rintro past rest key a b s' rfl run'
    refine hweights _ s' (fun other => ?_) run'
    simp only [weightOf_append, weightOf_cons]
    split <;> omega
  · intro s' run'
    have hall : Estimator.insertAll start (units ++ units.map fun unit => ⟨unit.key, -unit.count⟩)
        = .ok s' := by
      rw [Estimator.insertAll_append]
      exact Checked.bind_eq_ok.mpr ⟨s, run, run'⟩
    have hzero : ∀ key, weightOf (· == key) (units ++ units.map fun unit => ⟨unit.key, -unit.count⟩)
        = weightOf (· == key) [] := by
      intro key
      rw [weightOf_append, weightOf_negated, weightOf_nil]
      omega
    obtain rfl : s' = start := by
      rw [hvacant.eq_totals_of_insertAll hall, totals_congr hzero, hvacant.totals_nil]
    exact ⟨rfl, hvacant.count_eq_zero⟩
  · intro key answer hanswer r hr halone
    rw [hs, hvacant.query_totals_eq_ok_iff] at hanswer
    obtain ⟨-, rfl⟩ := hanswer
    rw [← SignedRow.estimateOf_of_alone halone]
    exact (Count.le_leastOf_iff (hestimates key)).mp (Int.le_refl _) _ (List.mem_map_of_mem hr)

/-- Two rows of three counters: in one the key 5 shares its counter with 7 of the opposite sign and
with 9 of its own, in the other with 3 and 9. -/
theorem linear_of_insertAll_two_rows : ∃ start s,
    ofBudget 24 2 4 2 = .ok start ∧
      Estimator.insertAll start [⟨5, 3⟩, ⟨3, -2⟩, ⟨9, 1⟩, ⟨5, 1⟩, ⟨7, 4⟩, ⟨1, -6⟩] = .ok s ∧
      s.rows.map (·.row.cells) = [#[1, 6, 2], #[7, 4, 6]] ∧ Estimator.query s 5 = .ok 1 ∧
      Linear start s [⟨5, 3⟩, ⟨3, -2⟩, ⟨9, 1⟩, ⟨5, 1⟩, ⟨7, 4⟩, ⟨1, -6⟩] := by
  have hrun : (do
      let start ← ofBudget 24 2 4 2
      let s ← Outcome.ofChecked
        (Estimator.insertAll start [⟨5, 3⟩, ⟨3, -2⟩, ⟨9, 1⟩, ⟨5, 1⟩, ⟨7, 4⟩, ⟨1, -6⟩])
      return (s.rows.map (·.row.cells), Estimator.query s 5) :
        Outcome (List (Array Int) × Outcome Int))
        = .ok ([#[1, 6, 2], #[7, 4, 6]], .ok 1) := by decide +kernel
  obtain ⟨start, built, hrun⟩ := Checked.bind_eq_ok.mp hrun
  obtain ⟨s, run, hrun⟩ := Checked.bind_eq_ok.mp hrun
  obtain ⟨hcells, hquery⟩ := Prod.mk.inj (Checked.pure_eq_ok.mp hrun)
  have run := Outcome.ofChecked_eq_ok.mp run
  exact ⟨start, s, built, run, hcells, hquery, linear_of_insertAll built run⟩

end CountSketch

end HeavyHitters
