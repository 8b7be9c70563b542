import HeavyHitters.Proofs.Estimator.Linear
import HeavyHitters.Proofs.Estimator.UnivMon

/-!
# How much weight an estimate of a ladder can stand for

A level of a ladder is a sketch that bears any weights which a counter can hold together, so no
insert overflows.  An estimate is doubled at every level on its way up: what comes to the
deepest level of a key counts up to 2^5 fold, and what the levels above have counted is taken
off, multiplied as well.  So it takes a bound on the weight of each level, and as little as
twice the weight of one key overflows.

* `UnivMon.share` is the weight that comes to a level, and `UnivMon.Fed.countAt_bounds`
  bounds the counts there by it.
* `UnivMon.Fed.exists_insert` says that inserts have a value.
* `UnivMon.Bears` is the bound on the weights of the levels, and
  `UnivMon.Bears.fitsUpward` its use on the way up.
* `UnivMon.exists_runs_of_bears` are the runs of a built ladder: those below the
  bound, and of one key above it.
* `UnivMon.exists_overflowing_queries` are two that overflow.
-/

namespace HeavyHitters

open Finset

namespace UnivMon

variable {start s s' : UnivMon} {levels : List HeapSketch} {past units : List Entry}
  {unit : Entry} {key : Key}

/-! ## The weight of a level -/

/-- The weight of the units that come to a level, which are those of the keys
that go deeper than its number. -/
def share (s : UnivMon) (units : List Entry) (level : Nat) : Int :=
  weightOf (fun key => level < s.depth key) units

theorem share_nonneg (hunits : ∀ unit ∈ units, 0 ≤ unit.count) (level : Nat) :
    0 ≤ start.share units level :=
  weightOf_nonneg hunits

theorem share_le_total (hunits : ∀ unit ∈ units, 0 ≤ unit.count) (level : Nat) :
    start.share units level ≤ weightOf allKeys units :=
  weightOf_le_all hunits

/-- Levels that are new, whatever the size of their rows. -/
def Unused (s : UnivMon) : Prop :=
  ∀ level ∈ s.levels, ∃ height length, level.Filled height length 0

theorem unused_of_ofBudget {memory width : Nat} {seed : UInt64}
    (built : ofBudget memory width seed = .ok start) : start.Unused := by
  obtain ⟨-, -, hlevels⟩ := ofBudget_eq_ok built
  intro level hlevel
  obtain ⟨index, hindex⟩ := List.getElem?_of_mem hlevel
  exact ⟨rowsPerLevel, HeapSketch.exists_filled_of_ofBudget (hlevels index level hindex)⟩

/-- Nothing in a level is more than the weight that came to it. -/
theorem Fed.exists_filled (h : Fed start past s) (hunused : start.Unused)
    (hpast : ∀ unit ∈ past, 0 ≤ unit.count) (htotal : weightOf allKeys past ≤ Count.greatest)
    {level : HeapSketch} {index : Nat} (hlevel : s.levels[index]? = some level) :
    ∃ height length, level.Filled height length (start.share past index) := by
  obtain ⟨hindex, -⟩ := List.getElem?_eq_some_iff.mp hlevel
  have hfresh := List.getElem?_eq_getElem (h.length_eq ▸ hindex)
  obtain ⟨height, length, hempty⟩ := hunused _ (List.mem_of_getElem? hfresh)
  obtain ⟨other, hother, run⟩ := h.level_run index _ hfresh
  obtain rfl := Option.some.inj (hlevel.symm.trans hother)
  have hshare : weightOf allKeys (past.filter fun unit => index < start.depth unit.key)
      = start.share past index :=
    weightOf_allKeys_filter (fun key => index < start.depth key) past
  -- the run of the level can only be the one that its sketch is safe in
  obtain ⟨filled, run', hfilled⟩ := (HeapSketch.safe height length).exists_insertAll hempty
    (fun unit hu => hpast unit (List.mem_of_mem_filter hu))
    (by
      rw [Int.zero_add, hshare]
      exact Int.le_trans (weightOf_le_all hpast) htotal)
  obtain rfl := Except.ok.inj (run.symm.trans run')
  rw [Int.zero_add, hshare] at hfilled
  exact ⟨height, length, hfilled⟩

/-! ## Inserts -/

theorem exists_insertTo {depth : Nat} {weight : Int}
    (h : ∀ level ∈ levels, ∃ level', level.insert key weight = .ok level') :
    ∃ levels', insertTo key weight depth levels = .ok levels' := by
  induction levels generalizing depth with
  | nil => cases depth <;> exact ⟨[], rfl⟩
  | cons level levels ih =>
    obtain ⟨⟨level', hinsert⟩, hrest⟩ := List.forall_mem_cons.mp h
    cases depth with
    | zero => exact ⟨level :: levels, rfl⟩
    | succ depth =>
      obtain ⟨levels', hlevels⟩ := @ih depth hrest
      exact ⟨level' :: levels', Checked.bind_eq_ok.mpr ⟨level', hinsert,
        Checked.bind_eq_ok.mpr ⟨levels', hlevels, rfl⟩⟩⟩

/-- **An insert has a value** while a counter can hold all weight. -/
theorem Fed.exists_insert (h : Fed start past s) (hunused : start.Unused)
    (hunits : ∀ u ∈ past ++ [unit], 0 ≤ u.count)
    (htotal : weightOf allKeys (past ++ [unit]) ≤ Count.greatest) :
    ∃ s', Estimator.insert s unit.key unit.count = .ok s' := by
  have hpast : ∀ u ∈ past, 0 ≤ u.count := fun u hu => hunits u (List.mem_append_left _ hu)
  have hunit : 0 ≤ unit.count := hunits unit (by simp)
  have hsum : weightOf allKeys (past ++ [unit]) = weightOf allKeys past + unit.count := by
    simp [allKeys]
  rw [hsum] at htotal
  have hinserts : ∀ level ∈ s.levels, ∃ level', level.insert unit.key unit.count = .ok level' := by
    intro level hlevel
    obtain ⟨index, hindex⟩ := List.getElem?_of_mem hlevel
    obtain ⟨height, length, hfilled⟩ := h.exists_filled hunused hpast (by omega) hindex
    have hshare : start.share past index ≤ weightOf allKeys past := share_le_total hpast index
    obtain ⟨level', hinsert, -⟩ :=
      (HeapSketch.safe height length).exists_insert unit.key hfilled hunit (by omega)
    exact ⟨level', hinsert⟩
  have hall : ∃ levels, insertTo unit.key unit.count (s.depth unit.key) s.levels = .ok levels :=
    exists_insertTo hinserts
  obtain ⟨levels, hlevels⟩ := hall
  exact ⟨{ s with levels }, Checked.bind_eq_ok.mpr ⟨levels, hlevels, rfl⟩⟩

theorem Fed.exists_insertAll (h : Fed start past s) (hunused : start.Unused)
    (hunits : ∀ u ∈ past ++ units, 0 ≤ u.count)
    (htotal : weightOf allKeys (past ++ units) ≤ Count.greatest) :
    ∃ s', Estimator.insertAll s units = .ok s' := by
  induction units generalizing past s with
  | nil => exact ⟨s, rfl⟩
  | cons unit units ih =>
    rw [List.append_cons] at hunits htotal
    have hrest : 0 ≤ weightOf allKeys units := weightOf_nonneg fun u hu =>
      hunits u (List.mem_append_right _ hu)
    obtain ⟨s₁, hi⟩ := h.exists_insert hunused (fun u hu => hunits u (List.mem_append_left _ hu))
      (by rw [weightOf_append] at htotal; omega)
    obtain ⟨s', run⟩ := ih (h.insert hi) hunits htotal
    exact ⟨s', Checked.bind_eq_ok.mpr ⟨s₁, hi, run⟩⟩

/-! ## Estimates below the bound -/

/-- A level has counted no more of a key than the weight that came to it. -/
theorem Fed.countAt_bounds (h : Fed start past s) (hunused : start.Unused)
    (hpast : ∀ unit ∈ past, 0 ≤ unit.count) (htotal : weightOf allKeys past ≤ Count.greatest)
    (key : Key) (index : Nat) :
    0 ≤ s.countAt key index ∧ s.countAt key index ≤ start.share past index := by
  have hshare : 0 ≤ start.share past index := share_nonneg hpast index
  unfold countAt
  cases hlevel : s.levels[index]? with
  | none => exact ⟨Int.le_refl 0, hshare⟩
  | some level =>
    obtain ⟨height, length, hfilled⟩ := h.exists_filled hunused hpast htotal hlevel
    rw [Option.map_some, Option.getD_some, HeapSketch.query, hfilled.wellFormed.indexed.query_eq]
    cases hheld : level.heap.held key with
    | none => exact ⟨Int.le_refl 0, hshare⟩
    | some count =>
      obtain ⟨hpos, hle⟩ := hfilled.held_bounds key count hheld
      exact ⟨Int.le_of_lt hpos, hle⟩

/-- What the levels above the deepest one can take off an estimate. -/
def deduction (share : Nat → Int) (deepest : Nat) : Int :=
  ∑ level ∈ range deepest, 2 ^ level * share level

theorem deduction_succ (share : Nat → Int) (deepest : Nat) :
    deduction share (deepest + 1) = share 0 + 2 * deduction
      (fun level => share (level + 1)) deepest := by
  rw [deduction, deduction, sum_range_succ', mul_sum, pow_zero, one_mul, add_comm]
  congr 1
  refine sum_congr rfl fun level _ => ?_
  ring

theorem deduction_nonneg {share : Nat → Int} (hshare : ∀ level, 0 ≤ share level) (deepest : Nat) :
    0 ≤ deduction share deepest :=
  sum_nonneg fun level _ => Int.mul_nonneg (Int.pow_nonneg (by decide)) (hshare level)

/-- An estimate that the levels down to the deepest can make up fits a
counter on its whole way up. -/
structure Bears (share : Nat → Int) (deepest : Nat) : Prop where
  deepest_le : 2 ^ deepest * share deepest ≤ Count.greatest
  deduction_le : deduction share deepest ≤ -Count.least

/--
**Counts within such weights are combined without an overflow**, to something between what the
levels can take off and what the deepest one stands for.  The induction goes down the levels, as the
first estimate is made at the deepest.
-/
theorem Bears.fitsUpward {share count : Nat → Int} {deepest : Nat} (h : Bears share deepest)
    (hcount : ∀ level, 0 ≤ count level ∧ count level ≤ share level) :
    FitsUpward count deepest ∧
      -deduction share deepest ≤ recombined count deepest ∧
      recombined count deepest ≤ 2 ^ deepest * share deepest := by
  induction deepest generalizing share count with
  | zero =>
    obtain ⟨hlow, hhigh⟩ := hcount 0
    refine ⟨fun level hlt => absurd hlt (Nat.not_lt_zero level), ?_, ?_⟩
    · simpa [deduction, recombined] using hlow
    · simpa [recombined] using hhigh
  | succ deepest ih =>
    obtain ⟨hdeepest, hdeduction⟩ := h
    obtain ⟨hlow, hhigh⟩ := hcount 0
    have hpow : (2 : Int) ^ (deepest + 1) * share (deepest + 1)
      = 2 * (2 ^ deepest * share (deepest + 1)) := by ring
    have hnonneg : 0 ≤ deduction (fun level => share (level + 1)) deepest :=
      deduction_nonneg (fun level => by have := hcount (level + 1); omega) deepest
    rw [deduction_succ] at hdeduction ⊢
    rw [hpow] at hdeepest ⊢
    unfold Count.least at hdeduction
    unfold Count.greatest at hdeepest
    obtain ⟨hup, hge, hle⟩ := @ih (fun level => share (level + 1)) (fun level => count (level + 1))
      ⟨by unfold Count.greatest; omega, by unfold Count.least; omega⟩
        fun level => hcount (level + 1)
    rw [fitsUpward_succ, recombined_succ]
    simp only [Count.fits_iff]
    refine ⟨⟨⟨?_, ?_⟩, hup⟩, ?_⟩ <;> omega

/-- It is enough that the weight of all keys fits as often as that of the deepest level counts. -/
theorem bears_of_total_le {share : Nat → Int} {deepest : Nat} {total : Int} (hnonneg : 0 ≤ total)
    (hshare : ∀ level, share level ≤ total) (h : 2 ^ deepest * total ≤ Count.greatest) :
    Bears share deepest := by
  have hdeduction : deduction share deepest ≤ (2 ^ deepest - 1) * total := by
    clear h
    induction deepest generalizing share with
    | zero => simp [deduction]
    | succ deepest ih =>
      have hdeeper := @ih (fun level => share (level + 1)) fun level => hshare (level + 1)
      have hfirst := hshare 0
      have hpow : ((2 : Int) ^ (deepest + 1) - 1) * total = total +
        2 * ((2 ^ deepest - 1) * total) := by ring
      rw [deduction_succ, hpow]
      omega
  refine ⟨Int.le_trans
    (Int.mul_le_mul_of_nonneg_left (hshare deepest) (Int.pow_nonneg (by decide))) h, ?_⟩
  rw [sub_mul, one_mul] at hdeduction
  unfold Count.least
  unfold Count.greatest at h
  omega

theorem Fed.exists_query (h : Fed start past s) (hlength : start.levels.length = levelCount)
    (hunused : start.Unused) (hpast : ∀ unit ∈ past, 0 ≤ unit.count)
    (htotal : weightOf allKeys past ≤ Count.greatest) (key : Key)
    (hbears : Bears (start.share past) (start.depth key - 1)) :
    ∃ answer, Estimator.query s key = .ok answer ∧
      -deduction (start.share past) (start.depth key - 1) ≤ answer ∧
      answer ≤ 2 ^ (start.depth key - 1) * start.share past (start.depth key - 1) := by
  obtain ⟨hfits, hbounds⟩ := hbears.fitsUpward (h.countAt_bounds hunused hpast htotal key)
  refine ⟨_, (query_eq_ok_iff (h.length_eq.trans hlength)).mpr ⟨?_, rfl⟩, ?_⟩
  · rwa [depth_congr h.sampler_eq]
  · rwa [depth_congr h.sampler_eq]

/-! ## Estimates above the bound -/

/-- Where the levels agree, twice their count overflows if it does not fit. -/
theorem combine_of_forall_eq {value : Int} (h : Count.greatest < 2 * value) (deeper : Nat) :
    combine (List.replicate (deeper + 2) value) = .error (.overflow .multiply) := by
  induction deeper with
  | zero =>
    show (do Count.minus (← Count.times 2 value) value) = _
    rw [show Count.times 2 value = _ from Count.narrow_of_greatest_lt h]
    rfl
  | succ deeper ih =>
    rw [List.replicate_succ, combine_cons _ (by simp), ih]
    rfl

variable {memory width : Nat} {seed : UInt64} {weight : Int}

/-- A key that comes alone is counted at every level that it enters. -/
theorem Fed.countAt_singleton (h : Fed start [⟨key, weight⟩] s)
    (built : ofBudget memory width seed = .ok start) (hweight : 1 ≤ weight)
    (hfits : weight ≤ Count.greatest) {index : Nat} (hindex : index < start.depth key) :
    s.countAt key index = weight := by
  obtain ⟨-, hlength, hlevels⟩ := ofBudget_eq_ok built
  have hlt : index < start.levels.length := by
    have := start.depth_le key
    omega
  have hfresh := List.getElem?_eq_getElem hlt
  have hbuilt := hlevels index _ hfresh
  obtain ⟨level, hlevel, run⟩ := h.level_run index _ hfresh
  rw [List.filter_cons_of_pos (by simpa using hindex), List.filter_nil] at run
  obtain ⟨-, hne, -⟩ := HeapSketch.tracks_of_ofBudget hbuilt
  have hpos : ∀ unit ∈ ([⟨key, weight⟩] : List Entry), 1 ≤ unit.count := by simpa using hweight
  obtain ⟨level', run', hexact⟩ := HeapSketch.exact_of_majority hbuilt hpos
    (by simpa [allKeys] using hfits)
      (Nat.le_trans (List.toFinset_card_le _) (HeapSketch.capacity_pos_of_ofBudget hbuilt))
  obtain rfl := Except.ok.inj (run.symm.trans run')
  have halone : HeapSketch.MostlyAlone start.levels[index].rows [⟨key, weight⟩] key := by
    have hall : start.levels[index].rows.countP (fun r => r.row.Alone [⟨key, weight⟩] key)
        = start.levels[index].rows.length :=
      List.countP_eq_length.mpr fun r _ => decide_eq_true fun unit hu _ => by
        rw [List.mem_singleton.mp hu]
    have hpos := List.length_pos_of_ne_nil hne
    unfold HeapSketch.MostlyAlone
    omega
  obtain ⟨-, hquery, -⟩ := hexact key (by simp) halone
  have hcount : level.query key = weightOf (· == key) [⟨key, weight⟩] := Except.ok.inj hquery
  rw [countAt, hlevel, Option.map_some, Option.getD_some, hcount]
  simp

/-- **A key that comes alone cannot be asked for if twice its weight does not fit**, unless
it stays on the first level. -/
theorem query_of_alone (built : ofBudget memory width seed = .ok start)
    (hdepth : 1 < start.depth key) (hlimit : Count.greatest < 2 * weight)
    (hfits : weight ≤ Count.greatest) : ∃ s, Estimator.insertAll start [⟨key, weight⟩] = .ok s ∧
      Estimator.query s key = .error (.fault (.overflow .multiply)) := by
  have hweight : 1 ≤ weight := by
    unfold Count.greatest at hlimit
    omega
  have hunits : ∀ unit ∈ [] ++ [(⟨key, weight⟩ : Entry)], 0 ≤ unit.count := by
    simp only [List.nil_append, List.mem_singleton, forall_eq]
    omega
  obtain ⟨s, run⟩ := (fed_nil start).exists_insertAll (unused_of_ofBudget built) hunits
    (by simpa [allKeys] using hfits)
  have hfed := fed_of_insertAll run
  have hlength : s.levels.length = levelCount := hfed.length_eq.trans (ofBudget_eq_ok built).2.1
  have hcounts : (s.levels.take (s.depth key)).map (·.query key)
      = List.replicate (s.depth key - 2 + 2) weight := by
    rw [depth_congr hfed.sampler_eq, counts_eq s key (hlength ▸ start.depth_le key),
      Nat.sub_add_cancel hdepth]
    refine List.eq_replicate_iff.mpr ⟨by simp, fun count hcount => ?_⟩
    obtain ⟨index, hindex, rfl⟩ := List.mem_map.mp hcount
    exact hfed.countAt_singleton built hweight hfits (List.mem_range.mp hindex)
  refine ⟨s, run, ?_⟩
  show Outcome.ofChecked (s.query key) = _
  rw [query, hcounts, combine_of_forall_eq hlimit]
  rfl

/--
**A ladder takes in all that a counter can hold, but can only be asked for what it can
still double.**  An answer has a value if the weight of each level fits as often as it
counts in the estimate; it is enough that the weight of all keys fits as often as that of
the deepest level counts.  A key that comes alone and enters a second level has none as
soon as twice its weight does not fit.
-/
theorem exists_runs_of_bears (memory width : Nat) (seed : UInt64) (start : UnivMon)
    (built : ofBudget memory width seed = .ok start) :
    (∀ units : List Entry, (∀ unit ∈ units, 0 ≤ unit.count) →
      weightOf allKeys units ≤ Count.greatest →
      ∃ s, Estimator.insertAll start units = .ok s ∧
        (∀ key, Bears (start.share units) (start.depth key - 1) → ∃ answer,
          Estimator.query s key = .ok answer ∧
          -deduction (start.share units) (start.depth key - 1) ≤ answer ∧
          answer ≤ 2 ^ (start.depth key - 1) * start.share units (start.depth key - 1)) ∧
        ∀ key, 2 ^ (start.depth key - 1) * weightOf allKeys units ≤ Count.greatest →
          ∃ answer, Estimator.query s key = .ok answer) ∧
    ∀ key weight, 1 < start.depth key → Count.greatest < 2 * weight → weight ≤ Count.greatest →
      ∃ s, Estimator.insertAll start [⟨key, weight⟩] = .ok s ∧
        Estimator.query s key = .error (.fault (.overflow .multiply)) := by
  refine ⟨fun units hunits htotal => ?_, fun key weight hdepth hlimit hfits =>
    query_of_alone built hdepth hlimit hfits⟩
  have hunused := unused_of_ofBudget built
  obtain ⟨-, hlength, -⟩ := ofBudget_eq_ok built
  obtain ⟨s, run⟩ := (fed_nil start).exists_insertAll hunused hunits htotal
  have hquery := (fed_of_insertAll run).exists_query hlength hunused hunits htotal
  have hshare : ∀ level, start.share units level ≤ weightOf allKeys units := share_le_total hunits
  refine ⟨s, run, hquery, fun key hroom => ?_⟩
  have hbears := bears_of_total_le (weightOf_nonneg hunits) hshare hroom
  obtain ⟨answer, hanswer, -⟩ := hquery key hbears
  exact ⟨answer, hanswer⟩

/-- The keys 9 and 68 enter all levels, so the greatest weight that the bound lets
in is a 2^5th of what fits. -/
theorem exists_runs_of_bears_all_levels : ∃ start, ofBudget 1024 2 5 = .ok start ∧
    (∃ s, (∀ unit ∈ ([⟨68, 67108858⟩, ⟨9, 5⟩] : List Entry), 0 ≤ unit.count) ∧
      weightOf allKeys [⟨68, 67108858⟩, ⟨9, 5⟩] ≤ Count.greatest ∧
      2 ^ (start.depth 9 - 1) * weightOf allKeys [⟨68, 67108858⟩, ⟨9, 5⟩] ≤ Count.greatest ∧
      Estimator.insertAll start [⟨68, 67108858⟩, ⟨9, 5⟩] = .ok s ∧ ∃ answer,
      Estimator.query s 9 = .ok answer) ∧
    ∃ s, 1 < start.depth 9 ∧ Count.greatest < 2 * 1073741824 ∧ 1073741824 ≤ Count.greatest ∧
      Estimator.insertAll start [⟨9, 1073741824⟩] = .ok s ∧
      Estimator.query s 9 = .error (.fault (.overflow .multiply)) := by
  have hbuilt : (do return (← ofBudget 1024 2 5).depth 9 : Outcome Nat) = .ok 6 := by decide +kernel
  obtain ⟨start, built, hstart⟩ := Checked.bind_eq_ok.mp hbuilt
  have hdepth : start.depth 9 = 6 := Checked.pure_eq_ok.mp hstart
  obtain ⟨below, above⟩ := exists_runs_of_bears 1024 2 5 start built
  obtain ⟨s, run, -, hquery⟩ := below [⟨68, 67108858⟩, ⟨9, 5⟩] (by decide) (by decide)
  have hroom : 2 ^ (start.depth 9 - 1) * weightOf allKeys [⟨68, 67108858⟩, ⟨9, 5⟩]
      ≤ Count.greatest := by
    rw [hdepth]
    decide
  obtain ⟨s', run', hquery'⟩ := above 9 1073741824 (by rw [hdepth]; decide) (by decide) (by decide)
  exact ⟨start, built, ⟨s, by decide, by decide, hroom, run, hquery 9 hroom⟩,
    s', by rw [hdepth]; decide, by decide, by decide, run', hquery'⟩

/-- An answer that overflows after some units, read off an evaluation that
leaves the ladder itself out. -/
theorem exists_query_eq_error {memory width : Nat} {seed : UInt64} {operation : Operation}
    (hrun : (do
      let start ← ofBudget memory width seed
      let s ← Outcome.ofChecked (Estimator.insertAll start units)
      return Estimator.query s key :
        Outcome (Outcome Int)) = .ok (.error (.fault (.overflow operation)))) :
    ∃ start s, ofBudget memory width seed = .ok start ∧ Estimator.insertAll start units = .ok s ∧
      Estimator.query s key = .error (.fault (.overflow operation)) := by
  obtain ⟨start, built, hrun⟩ := Checked.bind_eq_ok.mp hrun
  obtain ⟨s, run, hrun⟩ := Checked.bind_eq_ok.mp hrun
  exact ⟨start, s, built, Outcome.ofChecked_eq_ok.mp run, Checked.pure_eq_ok.mp hrun⟩

/-- **Weights that a counter can hold overflow the estimate.**  One key with half of what fits does,
and little more than a 2^5th of it is enough where the deepest level takes one key for another:
there the key 9, of which 5 came, is counted with the weight of the key 68. -/
theorem exists_overflowing_queries :
    (∃ start s, (∀ unit ∈ ([⟨1, 1073741824⟩] : List Entry), 0 ≤ unit.count) ∧
      weightOf allKeys [⟨1, 1073741824⟩] ≤ Count.greatest ∧ ofBudget 1536 4 1 = .ok start ∧
      Estimator.insertAll start [⟨1, 1073741824⟩] = .ok s ∧
      Estimator.query s 1 = .error (.fault (.overflow .multiply))) ∧
    ∃ start s, (∀ unit ∈ ([⟨68, 67108864⟩, ⟨9, 5⟩] : List Entry), 0 ≤ unit.count) ∧
      weightOf allKeys [⟨68, 67108864⟩, ⟨9, 5⟩] ≤ Count.greatest ∧ ofBudget 1024 2 5 = .ok start ∧
      Estimator.insertAll start [⟨68, 67108864⟩, ⟨9, 5⟩] = .ok s ∧
      Estimator.query s 9 = .error (.fault (.overflow .multiply)) := by
  refine ⟨?alone, ?mistaken⟩
  case alone =>
    obtain ⟨start, s, hrun⟩ :=
      @exists_query_eq_error [⟨1, 1073741824⟩] 1 1536 4 1 .multiply (by decide +kernel)
    exact ⟨start, s, by decide, by decide, hrun⟩
  case mistaken =>
    obtain ⟨start, s, hrun⟩ :=
      @exists_query_eq_error [⟨68, 67108864⟩, ⟨9, 5⟩] 9 1024 2 5 .multiply (by decide +kernel)
    exact ⟨start, s, by decide, by decide, hrun⟩

end UnivMon

end HeavyHitters
