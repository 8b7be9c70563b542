import HeavyHitters.Estimator.UnivMon
import HeavyHitters.Proofs.Estimator.Ranking
import HeavyHitters.Proofs.Hash.SeedStream
import Mathlib.Algebra.BigOperators.Ring.Finset
import Mathlib.Algebra.Order.Ring.Int
import Mathlib.Data.Nat.Find
import Mathlib.Tactic.Ring

/-!
# The ladder of universal monitoring

A ladder is six sketches that know nothing of each other.  What ties them together is the depth of a
key: a level gets the units of the keys that go as deep, an estimate is combined from the levels
that the key enters, and the ranking takes each key from the deepest level that holds it.

* `UnivMon.depth_eq` counts the levels of a key by the low bits of its sampling hash.
* `UnivMon.Fed` is the invariant of a run: every level is in the state that
  its share of the units leads to.
* `UnivMon.combine_eq_ok_iff` and `UnivMon.mem_topK_iff` give the answers in closed form.
* `UnivMon.Nested` puts the parts together, and `UnivMon.nested_of_insertAll` says that every run
  of a built ladder leads to it.
-/

namespace HeavyHitters

open Finset

namespace UnivMon

variable {start s s' : UnivMon} {levels levels' : List HeapSketch}
  {past units : List Entry} {unit : Entry} {key : Key}

/-! ## The depth of a key -/

theorem exists_testBit_eq_false (word : UInt64) : ∃ i, word.toNat.testBit i = false :=
  ⟨64, Nat.testBit_lt_two_pow word.toNat_lt⟩

/-- The number of low bits of a word that are ones, which is the position of its lowest zero. -/
def lowOnes (word : UInt64) : Nat := Nat.find (exists_testBit_eq_false word)

/-- The ones that are counted are ones, and if the limit is not reached, a zero follows. -/
theorem testBit_trailingOnes (word : UInt64) (limit : Nat) :
    (∀ i < trailingOnes word limit, word.toNat.testBit i = true) ∧
      (trailingOnes word limit < limit → word.toNat.testBit (trailingOnes word limit) = false) := by
  induction limit generalizing word with
  | zero => simp [trailingOnes]
  | succ limit ih =>
    have hlow : word &&& 1 = 1 ↔ word.toNat.testBit 0 = true := by
      rw [← UInt64.toNat_inj]
      simp
    have hhigh : ∀ i, (word >>> 1).toNat.testBit i = word.toNat.testBit (i + 1) := by
      intro i
      simp [Nat.testBit_succ, Nat.shiftRight_one]
    obtain ⟨hones, hzero⟩ := ih (word >>> 1)
    unfold trailingOnes
    split
    · rename_i hodd
      refine ⟨fun i hi => ?_, fun hlt => ?_⟩
      · cases i with
        | zero => exact hlow.mp hodd
        | succ i => rw [← hhigh, hones i (Nat.lt_of_succ_lt_succ hi)]
      · rw [← hhigh, hzero (Nat.lt_of_succ_lt_succ hlt)]
    · rename_i heven
      refine ⟨fun i hi => absurd hi (Nat.not_lt_zero i), fun _ => ?_⟩
      simpa using mt hlow.mpr heven

theorem trailingOnes_eq_min (word : UInt64) (limit : Nat) :
    trailingOnes word limit = min limit (lowOnes word) := by
  obtain ⟨hones, hzero⟩ := testBit_trailingOnes word limit
  have hle := trailingOnes_le word limit
  have hend := Nat.find_spec (exists_testBit_eq_false word)
  rcases Nat.lt_trichotomy (trailingOnes word limit) (lowOnes word) with hlt | heq | hgt
  · have hone := Nat.find_min (exists_testBit_eq_false word) hlt
    have hlimit := mt hzero hone
    omega
  · omega
  · have hone := hones _ hgt
    rw [lowOnes, hend] at hone
    cases hone

/-- A key enters one level more than its sampling hash has low ones, if there are as many. -/
theorem depth_eq (s : UnivMon) (key : Key) :
    s.depth key = 1 + min (levelCount - 1) (lowOnes (s.sampler.hash key)) := by
  rw [depth, trailingOnes_eq_min]

theorem depth_congr (h : s'.sampler = s.sampler) : s'.depth = s.depth := by
  funext key
  rw [depth, depth, h]

/-! ## Runs of the levels -/

/-- Built levels are built one by one, with seeds from one stream. -/
theorem levels_of_buildLevels {memory width level count : Nat} {seeds rest : SeedStream}
    (h : buildLevels memory width level count seeds = .ok (levels, rest)) :
    rest = (seeds.take count).2 ∧ levels.length = count ∧
      ∀ (index : Nat) (fresh : HeapSketch), levels[index]? = some fresh →
        HeapSketch.ofBudget (memory >>> (level + index + 1)) rowsPerLevel width
          (seeds.seedAt index) = .ok fresh := by
  induction count generalizing level seeds levels with
  | zero =>
    obtain ⟨rfl, rfl⟩ := Prod.mk.inj (Except.ok.inj h)
    simp [SeedStream.take]
  | succ count ih =>
    obtain ⟨first, hfirst, h⟩ := Checked.bind_eq_ok.mp h
    obtain ⟨⟨deeper, rest⟩, hdeeper, h⟩ := Checked.bind_eq_ok.mp h
    obtain ⟨rfl, rfl⟩ := Prod.mk.inj (Checked.pure_eq_ok.mp h)
    obtain ⟨hrest, hlength, hlevels⟩ := ih hdeeper
    refine ⟨?_, ?_, ?_⟩
    · rw [SeedStream.take_succ_snd]
      exact hrest
    · rw [List.length_cons, hlength]
    · intro index fresh hfresh
      cases index with
      | zero =>
        obtain rfl := Option.some.inj hfresh
        exact hfirst
      | succ index =>
        rw [SeedStream.seedAt_succ, Nat.add_comm index 1, ← Nat.add_assoc]
        exact hlevels index fresh hfresh

/-- The budget is halved from level to level, and the seed of the sampler
comes after those of the levels. -/
theorem ofBudget_eq_ok {memory width : Nat} {seed : UInt64}
    (h : ofBudget memory width seed = .ok start) :
    start.sampler = KeyHash.ofSeed (SeedStream.seedAt ⟨seed⟩ levelCount) ∧
    start.levels.length = levelCount ∧
      ∀ (index : Nat) (fresh : HeapSketch), start.levels[index]? = some fresh →
        HeapSketch.ofBudget (memory >>> (index + 1)) rowsPerLevel width
          (SeedStream.seedAt ⟨seed⟩ index)
          = .ok fresh := by
  obtain ⟨⟨levels, seeds⟩, hlevels, h⟩ := Checked.bind_eq_ok.mp h
  obtain rfl := Checked.pure_eq_ok.mp h
  obtain ⟨rfl, hlength, hfresh⟩ := levels_of_buildLevels hlevels
  refine ⟨rfl, hlength, fun index fresh hlevel => ?_⟩
  have hbuilt := hfresh index fresh hlevel
  rwa [Nat.zero_add] at hbuilt

/-- An insert down to a depth is an insert into each of the first levels, and
leaves the others as they are. -/
theorem levels_of_insertTo {depth : Nat} {weight : Int}
    (h : insertTo key weight depth levels = .ok levels') : levels'.length = levels.length ∧
      ∀ (index : Nat) (level : HeapSketch), levels[index]? = some level → ∃ level',
      levels'[index]? = some level' ∧
        if index < depth then level.insert key weight = .ok level' else level' = level := by
  induction levels generalizing depth levels' with
  | nil =>
    cases depth <;> cases h <;> simp
  | cons first deeper ih =>
    cases depth with
    | zero =>
      cases h
      exact ⟨rfl, fun index level hlevel => ⟨level, hlevel, rfl⟩⟩
    | succ depth =>
      obtain ⟨first', hfirst, h⟩ := Checked.bind_eq_ok.mp h
      obtain ⟨deeper', hdeeper, h⟩ := Checked.bind_eq_ok.mp h
      obtain rfl := Checked.pure_eq_ok.mp h
      obtain ⟨hlength, hlevels⟩ := ih hdeeper
      refine ⟨by rw [List.length_cons, List.length_cons, hlength], ?_⟩
      intro index level hlevel
      cases index with
      | zero =>
        obtain rfl := Option.some.inj hlevel
        exact ⟨first', rfl, hfirst⟩
      | succ index =>
        simpa using hlevels index level hlevel

/-- What a ladder is to the one that it was before some units: every level has got those of the
keys that enter it, in order. -/
structure Fed (start : UnivMon) (past : List Entry) (s : UnivMon) : Prop where
  sampler_eq : s.sampler = start.sampler
  length_eq : s.levels.length = start.levels.length
  level_run : ∀ (index : Nat) (fresh : HeapSketch), start.levels[index]? = some fresh → ∃ level,
    s.levels[index]? = some level ∧
      Estimator.insertAll fresh (past.filter fun unit => index < start.depth unit.key) = .ok level

theorem fed_nil (s : UnivMon) : Fed s [] s := ⟨rfl, rfl, fun _ fresh hfresh => ⟨fresh, hfresh, rfl⟩⟩

/-- One more unit comes to the levels that its key enters. -/
theorem Fed.insert (h : Fed start past s) (hi : Estimator.insert s unit.key unit.count = .ok s') :
    Fed start (past ++ [unit]) s' := by
  obtain ⟨levels, hlevels, hi⟩ := Checked.bind_eq_ok.mp hi
  obtain rfl := Checked.pure_eq_ok.mp hi
  rw [depth_congr h.sampler_eq] at hlevels
  obtain ⟨hlength, hinserts⟩ := levels_of_insertTo hlevels
  refine ⟨h.sampler_eq, hlength.trans h.length_eq, fun index fresh hfresh => ?_⟩
  obtain ⟨level, hlevel, run⟩ := h.level_run index fresh hfresh
  obtain ⟨level', hlevel', hinsert⟩ := hinserts index level hlevel
  refine ⟨level', hlevel', ?_⟩
  rw [List.filter_append, Estimator.insertAll_append]
  refine Checked.bind_eq_ok.mpr ⟨level, run, ?_⟩
  split at hinsert
  · rename_i henters
    rw [List.filter_cons_of_pos (by simpa using henters)]
    exact Checked.bind_eq_ok.mpr ⟨level', hinsert, rfl⟩
  · rename_i hstays
    rw [List.filter_cons_of_neg (by simpa using hstays), hinsert]
    rfl

/-- **After a run every level has got the units of the keys that enter it.** -/
theorem fed_of_insertAll (run : Estimator.insertAll start units = .ok s) : Fed start units s :=
  @Checked.past_foldlM _ _ _ (Fed start) (fun _ => True) _
    (fun h _ hi => h.insert hi) [] units start s
    (fed_nil start) (fun _ _ => trivial) run

/-! ## Estimates -/

/-- The estimate from the counts of some levels, of which the last is the deepest: what the deepest
level stands for, less what each other level has counted once too often. -/
def recombined (count : Nat → Int) (deepest : Nat) : Int :=
  2 ^ deepest * count deepest - ∑ level ∈ range deepest, 2 ^ level * count level

theorem recombined_succ (count : Nat → Int) (deepest : Nat) :
    recombined count (deepest + 1) = 2 * recombined
      (fun level => count (level + 1)) deepest - count 0 := by
  have hsum : ∑ level ∈ range deepest, 2 ^ (level + 1) * count (level + 1)
      = 2 * ∑ level ∈ range deepest, 2 ^ level * count (level + 1) := by
    rw [mul_sum]
    refine sum_congr rfl fun level _ => ?_
    ring
  rw [recombined, recombined, sum_range_succ', hsum]
  ring

/-- Where all levels have the same count, it is the estimate. -/
theorem recombined_of_forall_eq {count : Nat → Int} {deepest : Nat} {value : Int}
    (h : ∀ level ≤ deepest, count level = value) : recombined count deepest = value := by
  induction deepest generalizing count with
  | zero => simp [recombined, h 0]
  | succ deepest ih =>
    rw [recombined_succ, ih fun level hle => h (level + 1) (Nat.succ_le_succ hle),
      h 0 (Nat.zero_le _)]
    omega

theorem combine_cons (count : Int) {deeper : List Int} (h : deeper ≠ []) :
    combine (count :: deeper) = (do Count.minus (← Count.times 2 (← combine deeper)) count) := by
  cases deeper with
  | nil => exact absurd rfl h
  | cons => rfl

/-- On the way up from the deepest level the estimate fits, when it is doubled and when the count of
the next level is taken off. -/
def FitsUpward (count : Nat → Int) (deepest : Nat) : Prop :=
  ∀ level < deepest, Count.Fits
    (2 * recombined (fun i => count (i + (level + 1))) (deepest - (level + 1))) ∧
    Count.Fits (recombined (fun i => count (i + level)) (deepest - level))

theorem fitsUpward_succ {count : Nat → Int} {deepest : Nat} : FitsUpward count (deepest + 1) ↔
    (Count.Fits (2 * recombined (fun level => count (level + 1)) deepest) ∧
      Count.Fits (recombined count (deepest + 1))) ∧ FitsUpward (fun level =>
        count (level + 1)) deepest := by
  simp only [FitsUpward, Nat.forall_lt_succ_left, Nat.add_sub_add_right, Nat.add_zero, Nat.sub_zero,
    ← Nat.add_assoc]

theorem combine_eq_ok_iff {count : Nat → Int} {deepest : Nat} {answer : Int} :
    combine ((List.range (deepest + 1)).map count) = .ok answer ↔
      FitsUpward count deepest ∧ answer = recombined count deepest := by
  induction deepest generalizing count answer with
  | zero => simp [combine, recombined, FitsUpward, eq_comm]
  | succ deepest ih =>
    have hrange : (List.range (deepest + 1 + 1)).map count
        = count 0 :: (List.range (deepest + 1)).map fun level => count (level + 1) := by
      rw [List.range_succ_eq_map, List.map_cons, List.map_map]
      rfl
    rw [hrange, combine_cons _ (by simp), fitsUpward_succ, recombined_succ]
    simp only [Checked.bind_eq_ok, ih, Count.times_eq_ok_iff, Count.minus_eq_ok_iff]
    constructor
    · rintro ⟨_, ⟨hdeeper, rfl⟩, _, ⟨htwice, rfl⟩, hfits, rfl⟩
      exact ⟨⟨⟨htwice, hfits⟩, hdeeper⟩, rfl⟩
    · rintro ⟨⟨⟨htwice, hfits⟩, hdeeper⟩, rfl⟩
      exact ⟨_, ⟨hdeeper, rfl⟩, _, ⟨htwice, rfl⟩, hfits, rfl⟩

/-- The count of a key at a level, 0 below the last. -/
def countAt (s : UnivMon) (key : Key) (level : Nat) : Int :=
  (s.levels[level]?.map (·.query key)).getD 0

/-- The levels that a key enters give their counts to its estimate. -/
theorem counts_eq (s : UnivMon) (key : Key) {depth : Nat} (h : depth ≤ s.levels.length) :
    (s.levels.take depth).map (·.query key) = (List.range depth).map (s.countAt key) := by
  refine List.ext_getElem (by simp [h]) fun level hlevel _ => ?_
  have hlt : level < s.levels.length := by
    simp only [List.length_map, List.length_take] at hlevel
    omega
  simp [countAt, hlt]

theorem query_eq_ok_iff (h : s.levels.length = levelCount) {answer : Int} :
    Estimator.query s key = .ok answer ↔ FitsUpward (s.countAt key) (s.depth key - 1) ∧
      answer = recombined (s.countAt key) (s.depth key - 1) := by
  have hcounts : s.query key
      = combine ((List.range (s.depth key - 1 + 1)).map (s.countAt key)) := by
    rw [query, counts_eq s key (h ▸ s.depth_le key), Nat.sub_add_cancel (s.one_le_depth key)]
  show Outcome.ofChecked (s.query key) = _ ↔ _
  rw [Outcome.ofChecked_eq_ok, hcounts, combine_eq_ok_iff]

/-- Where the levels agree, an estimate has a value if the double of their
count fits, where it is needed. -/
theorem fitsUpward_iff_of_forall_eq {count : Nat → Int} {deepest : Nat} {value : Int}
    (h : ∀ level ≤ deepest, count level = value) :
    FitsUpward count deepest ↔ (0 < deepest → Count.Fits (2 * value)) := by
  have hvalue : ∀ level ≤ deepest,
      recombined (fun i => count (i + level)) (deepest - level) = value :=
    fun level hle => recombined_of_forall_eq fun i hi => h (i + level) (by omega)
  have hfits : Count.Fits (2 * value) → Count.Fits value := by
    simp only [Count.fits_iff]
    omega
  constructor
  · intro hup hpos
    have hlast := (hup 0 hpos).1
    rwa [hvalue 1 hpos] at hlast
  · intro hdouble level hlt
    have hfit := hdouble (Nat.zero_lt_of_lt hlt)
    rw [hvalue (level + 1) hlt, hvalue level (Nat.le_of_lt hlt)]
    exact ⟨hfit, hfits hfit⟩

/-! ## Rankings -/

/-- The count of a key at the deepest level that holds it. -/
def deepestHeld : List HeapSketch → Key → Option Int
  | [], _ => none
  | level :: deeper, key => (deepestHeld deeper key).or (level.heap.held key)

theorem deepestHeld_eq_none_iff :
    deepestHeld levels key = none ↔ ∀ level ∈ levels, level.heap.held key = none := by
  induction levels with
  | nil => simp [deepestHeld]
  | cons level deeper ih =>
    rw [deepestHeld, Option.or_eq_none_iff, ih, List.forall_mem_cons, and_comm]

/-- It is the count at some level, and no level below that holds the key. -/
theorem deepestHeld_eq_some_iff {count : Int} : deepestHeld levels key = some count ↔
    ∃ above level below, levels = above ++ level :: below ∧ level.heap.held key = some count ∧
      ∀ deeper ∈ below, deeper.heap.held key = none := by
  induction levels with
  | nil => simp [deepestHeld]
  | cons first levels ih =>
    rw [deepestHeld, Option.or_eq_some_iff, ih, deepestHeld_eq_none_iff]
    constructor
    · rintro (⟨above, level, below, rfl, hheld, hbelow⟩ | ⟨hbelow, hheld⟩)
      · exact ⟨first :: above, level, below, rfl, hheld, hbelow⟩
      · exact ⟨[], first, levels, rfl, hheld, hbelow⟩
    · rintro ⟨above, level, below, heq, hheld, hbelow⟩
      rcases List.cons_eq_append_iff.mp heq with ⟨rfl, hcons⟩ | ⟨above, rfl, rfl⟩
      · obtain ⟨rfl, rfl⟩ := List.cons_eq_cons.mp hcons
        exact .inr ⟨hbelow, hheld⟩
      · exact .inl ⟨above, level, below, rfl, hheld, hbelow⟩

/-- The records of the levels put together, those of deeper levels in
place of others of the same key. -/
theorem getElem?_merged (hlevels : ∀ level ∈ levels, level.heap.Indexed) {merged : Tally Key} :
    ((levels.flatMap (·.topK)).foldl (fun (t : Tally Key) r => t.insert r.key r.count) merged)[key]?
      = (deepestHeld levels key).or merged[key]? := by
  induction levels generalizing merged with
  | nil => simp [deepestHeld]
  | cons level deeper ih =>
    obtain ⟨hlevel, hdeeper⟩ := List.forall_mem_cons.mp hlevels
    have hnone : (∀ r ∈ level.heap.records, r.key ≠ key) ↔ level.heap.held key = none := by
      rw [Option.eq_none_iff_forall_ne_some]
      constructor
      · intro hne count hcount
        exact hne _ (hlevel.mem_records_iff.mpr hcount) rfl
      · rintro hne ⟨_, count⟩ hr rfl
        exact hne count (hlevel.mem_records_iff.mp hr)
    rw [List.flatMap_cons, List.foldl_append, ih hdeeper, deepestHeld, Option.or_assoc]
    congr 1
    refine Option.ext fun count => ?_
    rw [HeapSketch.topK, Tally.getElem?_foldl_insert hlevel.nodup_records,
      hlevel.mem_records_iff, hnone, Option.or_eq_some_iff]

/-- A key is ranked with the count of the deepest level that holds it. -/
theorem mem_topK_iff (hlevels : ∀ level ∈ s.levels, level.heap.Indexed) {r : Record Key} :
    r ∈ s.topK ↔ deepestHeld s.levels r.key = some r.count := by
  rw [topK, Tally.mem_ranking_iff, getElem?_merged hlevels,
    Std.TreeMap.getElem?_emptyc, Option.or_none]

/-- A ranking of the keys that some level holds, each with its count at the deepest such level. -/
structure Lists (s : UnivMon) (ranking : List (Record Key)) : Prop where
  nodup : (ranking.map (·.key)).Nodup
  pairwise : ranking.Pairwise fun r s => s.count < r.count ∨ s.count = r.count ∧ r.key < s.key
  mem_iff : ∀ r, r ∈ ranking ↔ ∃ above level below, s.levels = above ++ level :: below ∧
    level.heap.contains r.key = true ∧ level.query r.key = r.count ∧
      ∀ deeper ∈ below, deeper.heap.contains r.key = false
  key_mem_iff : ∀ key, key ∈ ranking.map (·.key) ↔ ∃ level ∈ s.levels,
    level.heap.contains key = true

theorem lists_topK (hlevels : ∀ level ∈ s.levels, level.heap.Indexed) : s.Lists s.topK where
  nodup := Tally.nodup_ranking _
  pairwise := (Tally.pairwise_ranking _).imp Record.rankCompare_eq_lt_iff.mp
  mem_iff r := by
    rw [mem_topK_iff hlevels, deepestHeld_eq_some_iff]
    constructor
    · rintro ⟨above, level, below, heq, hheld, hbelow⟩
      have hlevel : level.heap.Indexed := hlevels level (by simp [heq])
      obtain ⟨hcontains, hquery⟩ := hlevel.held_eq_some_iff_query.mp hheld
      refine ⟨above, level, below, heq, hcontains, hquery, fun deeper hd => ?_⟩
      have hdeeper : deeper.heap.Indexed := hlevels deeper (by simp [heq, hd])
      exact hdeeper.contains_eq_false_iff.mpr (hbelow deeper hd)
    · rintro ⟨above, level, below, heq, hcontains, hquery, hbelow⟩
      have hlevel : level.heap.Indexed := hlevels level (by simp [heq])
      refine ⟨above, level, below, heq, hlevel.held_eq_some_iff_query.mpr ⟨hcontains, hquery⟩,
        fun deeper hd => ?_⟩
      have hdeeper : deeper.heap.Indexed := hlevels deeper (by simp [heq, hd])
      exact hdeeper.contains_eq_false_iff.mp (hbelow deeper hd)
  key_mem_iff key := by
    have hsome : key ∈ s.topK.map (·.key) ↔ deepestHeld s.levels key ≠ none := by
      rw [List.mem_map, Option.ne_none_iff_exists']
      constructor
      · rintro ⟨r, hr, rfl⟩
        exact ⟨r.count, (mem_topK_iff hlevels).mp hr⟩
      · rintro ⟨count, hcount⟩
        exact ⟨⟨key, count⟩, (mem_topK_iff hlevels).mpr hcount, rfl⟩
    rw [hsome, ne_eq, deepestHeld_eq_none_iff]
    simp only [not_forall, exists_prop]
    refine exists_congr fun level => and_congr_right fun hlevel => ?_
    rw [(hlevels level hlevel).contains_eq_true_iff]

/-! ## As they are built -/

/-- What a built ladder has become by some units. -/
structure Nested (memory width : Nat) (seed : UInt64) (units : List Entry)
    (s : UnivMon) : Prop where
  /-- The hash that samples is made from the seed after those of the levels. -/
  sampler_eq : s.sampler = KeyHash.ofSeed (SeedStream.seedAt ⟨seed⟩ levelCount)
  depth_eq : ∀ key, s.depth key = 1 + min (levelCount - 1) (lowOnes (s.sampler.hash key))
  length_levels : s.levels.length = levelCount
  /-- A level is what a sketch of its own becomes by the units of the
  keys that enter it, in order. -/
  level_run : ∀ index < levelCount, ∃ fresh level,
    HeapSketch.ofBudget (memory >>> (index + 1)) rowsPerLevel width (SeedStream.seedAt ⟨seed⟩ index)
      = .ok fresh ∧
      s.levels[index]? = some level ∧
      Estimator.insertAll fresh (units.filter fun unit => index < s.depth unit.key) = .ok level
  /-- An answer is what the deepest level stands for, less what the levels above it have counted
  once too often.  There is one if nothing overflows on the way up. -/
  query_eq_ok_iff : ∀ key answer, Estimator.query s key = .ok answer ↔
    FitsUpward (s.countAt key) (s.depth key - 1) ∧
      answer = 2 ^ (s.depth key - 1) * s.countAt key (s.depth key - 1)
        - ∑ level ∈ range (s.depth key - 1), 2 ^ level * s.countAt key level
  /-- Where the levels agree, their count is the answer, if its double fits or is not needed. -/
  query_eq_ok_iff_of_agree : ∀ key value,
    (∀ level < s.depth key, s.countAt key level = value) → ∀ answer,
    Estimator.query s key = .ok answer ↔ (1 < s.depth key → Count.Fits (2 * value)) ∧ answer = value
  exists_ranking : ∃ ranking, Estimator.topK s = .ok ranking ∧ s.Lists ranking

/--
**The levels of a ladder are sketches of the units of fewer and fewer keys, and its
answers are combined from theirs.**
-/
theorem nested_of_insertAll {memory width : Nat} {seed : UInt64}
    (built : ofBudget memory width seed = .ok start)
    (run : Estimator.insertAll start units = .ok s) : Nested memory width seed units s := by
  obtain ⟨hsampler, hlength, hfresh⟩ := ofBudget_eq_ok built
  have hfed := fed_of_insertAll run
  have hcount : s.levels.length = levelCount := hfed.length_eq.trans hlength
  have hruns : ∀ index < levelCount, ∃ fresh level,
      HeapSketch.ofBudget (memory >>> (index + 1)) rowsPerLevel width
        (SeedStream.seedAt ⟨seed⟩ index) = .ok fresh ∧
        s.levels[index]? = some level ∧
        Estimator.insertAll fresh (units.filter fun unit => index < s.depth unit.key)
          = .ok level := by
    intro index hindex
    have hfirst : start.levels[index]? = some start.levels[index] :=
      List.getElem?_eq_getElem (hlength ▸ hindex)
    obtain ⟨level, hlevel, hrun⟩ := hfed.level_run index _ hfirst
    rw [← depth_congr hfed.sampler_eq] at hrun
    exact ⟨_, level, hfresh index _ hfirst, hlevel, hrun⟩
  have hindexed : ∀ level ∈ s.levels, level.heap.Indexed := by
    intro level hlevel
    obtain ⟨index, hindex, rfl⟩ := List.mem_iff_getElem.mp hlevel
    obtain ⟨fresh, level, hbuilt, hget, hrun⟩ := hruns index (hcount ▸ hindex)
    rw [List.getElem?_eq_getElem hindex] at hget
    rw [Option.some.inj hget]
    exact (HeapSketch.wellFormed_of_insertAll
      (HeapSketch.wellFormed_of_ofBudget hbuilt).1 hrun).indexed
  refine ⟨hfed.sampler_eq.trans hsampler, s.depth_eq, hcount, hruns, fun key answer =>
    query_eq_ok_iff hcount, ?_, s.topK, rfl, lists_topK hindexed⟩
  intro key value hagree answer
  have hdepth := s.one_le_depth key
  have hcounts : ∀ level ≤ s.depth key - 1, s.countAt key level = value :=
    fun level hle => hagree level (by omega)
  have hdeeper : 0 < s.depth key - 1 ↔ 1 < s.depth key := by omega
  rw [query_eq_ok_iff hcount, fitsUpward_iff_of_forall_eq hcounts,
    recombined_of_forall_eq hcounts, hdeeper]

/-- The keys 9 and 68 enter all levels.  The last has one counter in a row and a place for one key,
so the key 9 has a greater count there, and 68 has none. -/
theorem nested_of_insertAll_shared_counter : ∃ start s, ofBudget 1024 2 5 = .ok start ∧
    Estimator.insertAll start [⟨9, 5⟩, ⟨68, 8⟩, ⟨3, 4⟩, ⟨9, 1⟩, ⟨3, -1⟩] = .ok s ∧
    (List.range 6).map (s.countAt 9) = [6, 6, 6, 6, 6, 14] ∧ Estimator.query s 9 = .ok 262 ∧
    Estimator.topK s = .ok [⟨9, 14⟩, ⟨3, 3⟩, ⟨68, 3⟩] ∧
    Nested 1024 2 5 [⟨9, 5⟩, ⟨68, 8⟩, ⟨3, 4⟩, ⟨9, 1⟩, ⟨3, -1⟩] s := by
  have hrun : (do
      let start ← ofBudget 1024 2 5
      let s ← Outcome.ofChecked
        (Estimator.insertAll start [⟨9, 5⟩, ⟨68, 8⟩, ⟨3, 4⟩, ⟨9, 1⟩, ⟨3, -1⟩])
      return ((List.range 6).map (s.countAt 9), Estimator.query s 9, Estimator.topK s) :
      Outcome (List Int × Outcome Int × Outcome (List (Record Key))))
        = .ok ([6, 6, 6, 6, 6, 14], .ok 262, .ok [⟨9, 14⟩, ⟨3, 3⟩, ⟨68, 3⟩]) := by decide +kernel
  obtain ⟨start, built, hrun⟩ := Checked.bind_eq_ok.mp hrun
  obtain ⟨s, run, hrun⟩ := Checked.bind_eq_ok.mp hrun
  obtain ⟨hcounts, hanswers⟩ := Prod.mk.inj (Checked.pure_eq_ok.mp hrun)
  obtain ⟨hquery, hranking⟩ := Prod.mk.inj hanswers
  have run := Outcome.ofChecked_eq_ok.mp run
  exact ⟨start, s, built, run, hcounts, hquery, hranking, nested_of_insertAll built run⟩

end UnivMon

end HeavyHitters
