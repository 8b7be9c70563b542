import HeavyHitters.Proofs.Counters.Totals
import HeavyHitters.Proofs.Estimator.Ranking

/-!
# Exact counts in a heap with room

The heap of a count sketch starts counting a key with the median of its estimates and adds to it
what comes after.  So a key has its exact count if the first median was right and the key has not
lost its place.  The median is right if the key is alone in its bucket in more than half of the
rows, whatever the others show.  No key loses its place if there are no more keys than places, and
no sum overflows if the weights of all keys together fit a counter.

* `SignedRow.Takes` and `HeapSketch.insert_eq_ok_iff` give an insert in closed form.
* `HeapSketch.Tracks` is what is known of the heap in such a run, and
  `HeapSketch.Tracks.exists_insert` carries it over one more unit.
* `HeapSketch.exact_of_majority` is the result of the run.
-/

namespace HeavyHitters

/-! ## Heaps with room -/

namespace BoundedHeap

variable {h : BoundedHeap} {key : Key} {count : Int}

/-- A heap has no more entries than there are keys that it may hold. -/
theorem Indexed.size_le_card (hx : h.Indexed) {S : Finset Key}
    (hmem : ∀ key, h.held key ≠ none → key ∈ S) : h.size ≤ S.card := by
  have hkeys : (h.entries.toList.map (·.key)).toFinset ⊆ S := by
    intro key hk
    obtain ⟨e, he, rfl⟩ := List.mem_map.mp (List.mem_toFinset.mp hk)
    refine hmem e.key ?_
    rw [hx.held_eq_some_iff.mpr (Array.mem_toList_iff.mp he)]
    simp
  calc h.size = (h.entries.toList.map (·.key)).length := by simp [size]
    _ = (h.entries.toList.map (·.key)).toFinset.card :=
      (List.toFinset_card_of_nodup hx.nodup_keys).symm
    _ ≤ S.card := Finset.card_le_card hkeys

/-- A call of a heap that has room for the key loses no other key. -/
theorem Changes.of_room {map : Key → Option Int} (call : Changes h key count map)
    (room : h.held key = none → h.size < h.capacity) :
    (∃ old, h.held key = some old ∧ map = Function.update h.held key (some (old + count))) ∨
      h.held key = none ∧ (count ≤ 0 ∧ map = h.held ∨
        0 < count ∧ map = Function.update h.held key (some count)) := by
  cases call with
  | bumped tracked => exact .inl ⟨_, tracked, rfl⟩
  | ignored untracked nonpos => exact .inr ⟨untracked, .inl ⟨nonpos, rfl⟩⟩
  | added untracked pos => exact .inr ⟨untracked, .inr ⟨pos, rfl⟩⟩
  | replaced untracked pos full => exact absurd (room untracked) (Nat.not_lt.mpr full)
  | kept untracked pos full => exact absurd (room untracked) (Nat.not_lt.mpr full)

/-- Such a call has a value, unless a sum overflows. -/
theorem WellFormed.exists_of_room (hw : h.WellFormed)
    (room : h.held key = none → h.size < h.capacity) (fits : ∀ old, h.held key = some old →
      Count.Fits (old + count)) : ∃ h', h.insertOrBump key count = .ok h' ∧
      h'.WellFormed ∧ h'.capacity = h.capacity ∧
      ((∃ old, h.held key = some old ∧ h'.held = Function.update h.held key (some (old + count))) ∨
        h.held key = none ∧ (count ≤ 0 ∧ h'.held = h.held ∨
          0 < count ∧ h'.held = Function.update h.held key (some count))) := by
  rcases hw.insertOrBump_cases key count with ⟨h', hcall⟩ | ⟨old, hold, hover, -⟩
  · have hmoves := hw.moves hcall
    exact ⟨h', hcall, hmoves.wellFormed hw, hmoves.capacity_eq, (hmoves.changes hw).of_room room⟩
  · exact absurd (fits old hold) hover

end BoundedHeap

/-! ## An insert in closed form -/

/-- A row that holds some units takes a unit in and estimates its key without an overflow. -/
def SignedRow.Takes (r : SignedRow) (past : List Entry) (unit : Entry) : Prop :=
  (Count.Fits (unit.count * r.signs.sign unit.key) ∧
    Count.Fits (weightOf (r.row.shares unit.key) (r.signed past) +
      unit.count * r.signs.sign unit.key)) ∧
  Count.Fits (r.estimateOf (past ++ [unit]) unit.key)

/-- A row takes in a unit if the weights of all units together fit. -/
theorem SignedRow.takes_of_total_le {r : SignedRow} {past : List Entry} {unit : Entry}
    (hpos : ∀ u ∈ past ++ [unit], 0 ≤ u.count)
    (htotal : weightOf allKeys (past ++ [unit]) ≤ Count.greatest) : r.Takes past unit := by
  have hunit : 0 ≤ unit.count := hpos unit (by simp)
  have hle : unit.count ≤ weightOf allKeys (past ++ [unit]) := le_weightOf_of_mem hpos (by simp) rfl
  have hsum : weightOf (r.row.shares unit.key) (r.signed past) + unit.count * r.signs.sign unit.key
      = weightOf (r.row.shares unit.key) (r.signed (past ++ [unit])) := by
    rw [SignedRow.signed_append_singleton, weightOf_append_singleton, if_pos (by simp [Row.shares])]
  have hbounds := r.weightOf_signed_bounds hpos (r.row.shares unit.key)
  have hestimate := r.estimateOf_bounds hpos unit.key
  unfold Takes
  rw [hsum]
  simp only [Count.fits_iff]
  unfold Count.greatest at htotal
  rcases r.signs.sign_eq unit.key with hsign | hsign
  · rw [hsign]
    omega
  · rw [hsign]
    omega

namespace HeapSketch

variable {start s s' : HeapSketch} {rows : List SignedRow} {past units : List Entry}
  {unit : Entry} {key : Key}

/-- The median of the estimates for a key in rows that hold some units. -/
def medianOf (rows : List SignedRow) (units : List Entry) (key : Key) : Int :=
  Count.median (rows.map (·.estimateOf units key))

theorem addAndEstimate_totals_eq_ok_iff {r : SignedRow} (h : 0 < r.row.length)
    {result : SignedRow × Int} : addAndEstimate unit.key unit.count (r.totals past) = .ok result ↔
      r.Takes past unit ∧ result
        = (r.totals (past ++ [unit]), r.estimateOf (past ++ [unit]) unit.key) := by
  unfold addAndEstimate SignedRow.Takes
  simp only [Checked.bind_eq_ok, Checked.pure_eq_ok, SignedRow.add_totals_eq_ok_iff h]
  constructor
  · rintro ⟨row, ⟨hadd, rfl⟩, estimate, hestimate, rfl⟩
    rw [SignedRow.estimate_totals h] at hestimate
    obtain ⟨hfits, rfl⟩ := Count.narrow_eq_ok_iff.mp hestimate
    exact ⟨⟨hadd, hfits⟩, rfl⟩
  · rintro ⟨⟨hadd, hfits⟩, rfl⟩
    refine ⟨_, ⟨hadd, rfl⟩, _, ?_, rfl⟩
    rw [SignedRow.estimate_totals h, Count.narrow_of_fits hfits]

/-- An insert leads to rows that hold one unit more, and calls the heap with the weight if the key
is held and with the median if not. -/
theorem insert_eq_ok_iff (hrows : ∀ r ∈ rows, r.row.Vacant)
    (hs : s.rows = rows.map (·.totals past)) :
    s.insert unit.key unit.count = .ok s' ↔ (∀ r ∈ rows, r.Takes past unit) ∧
      ∃ heap, s.heap.insertOrBump unit.key
          (if s.heap.contains unit.key then unit.count else medianOf rows (past ++ [unit]) unit.key)
            = .ok heap ∧
        s' = ⟨rows.map (·.totals (past ++ [unit])), heap⟩ := by
  have hadded : ∀ added, s.rows.mapM (addAndEstimate unit.key unit.count) = .ok added ↔
      (∀ r ∈ rows, r.Takes past unit) ∧ added = rows.map fun r =>
        (r.totals (past ++ [unit]), r.estimateOf (past ++ [unit]) unit.key) := by
    intro added
    rw [hs, List.mapM_map]
    exact Checked.mapM_eq_ok_map_iff fun r hr _ =>
      addAndEstimate_totals_eq_ok_iff (hrows r hr).length_pos
  unfold HeapSketch.insert
  simp only [Checked.bind_eq_ok, Checked.pure_eq_ok, hadded]
  constructor
  · rintro ⟨_, ⟨htakes, rfl⟩, heap, hcall, rfl⟩
    rw [List.map_map] at hcall ⊢
    exact ⟨htakes, heap, hcall, rfl⟩
  · rintro ⟨htakes, heap, hcall, rfl⟩
    refine ⟨_, ⟨htakes, rfl⟩, heap, ?_, ?_⟩
    · rw [List.map_map]
      exact hcall
    · rw [List.map_map]
      rfl

/-! ## Keys that are mostly alone -/

/-- The key is alone in its bucket in more than half of the rows. -/
def MostlyAlone (rows : List SignedRow) (units : List Entry) (key : Key) : Prop :=
  rows.length < 2 * rows.countP fun r => r.row.Alone units key

instance (rows : List SignedRow) (units : List Entry) (key : Key) :
    Decidable (MostlyAlone rows units key) :=
  inferInstanceAs (Decidable (_ < _))

/-- Before further units came, a key was alone where it is alone after them. -/
theorem MostlyAlone.of_append {rest : List Entry} (h : MostlyAlone rows (past ++ rest) key) :
    MostlyAlone rows past key := by
  have hle : rows.countP (fun r => r.row.Alone (past ++ rest) key)
      ≤ rows.countP fun r => r.row.Alone past key := by
    refine List.countP_mono_left fun r _ halone => decide_eq_true fun unit hu => ?_
    exact of_decide_eq_true halone unit (List.mem_append_left rest hu)
  unfold MostlyAlone at *
  omega

/-- The median of the estimates for such a key is its weight. -/
theorem medianOf_of_mostlyAlone (h : MostlyAlone rows units key) :
    medianOf rows units key = weightOf (· == key) units := by
  have hle : rows.countP (fun r => r.row.Alone units key)
      ≤ (rows.map (·.estimateOf units key)).count (weightOf (· == key) units) := by
    rw [List.count, List.countP_map]
    refine List.countP_mono_left fun r _ halone => beq_iff_eq.mpr ?_
    exact SignedRow.estimateOf_of_alone (of_decide_eq_true halone)
  refine Count.median_eq_of_majority ?_
  rw [List.length_map]
  unfold MostlyAlone at h
  omega

/-- No median is more than the weight of all keys. -/
theorem medianOf_le (hne : rows ≠ []) (hpos : ∀ unit ∈ units, 0 ≤ unit.count) (key : Key) :
    medianOf rows units key ≤ weightOf allKeys units := by
  refine Count.median_le (fun he => hne (List.map_eq_nil_iff.mp he)) fun estimate he => ?_
  obtain ⟨r, -, rfl⟩ := List.mem_map.mp he
  exact (r.estimateOf_bounds hpos key).2

/-! ## Runs with room for all keys -/

/-- Units with weight, of which a counter can hold all weight and a heap all keys. -/
structure Moderate (capacity : Nat) (units : List Entry) : Prop where
  positive : ∀ unit ∈ units, 1 ≤ unit.count
  total_le : weightOf allKeys units ≤ Count.greatest
  keys_le : (units.map (·.key)).toFinset.card ≤ capacity

theorem Moderate.nonneg {capacity : Nat} (h : Moderate capacity units) :
    ∀ unit ∈ units, 0 ≤ unit.count :=
  fun unit hu => Int.le_trans (by decide) (h.positive unit hu)

theorem Moderate.of_append {capacity : Nat} {rest : List Entry}
    (h : Moderate capacity (past ++ rest)) : Moderate capacity past where
  positive unit hu := h.positive unit (List.mem_append_left rest hu)
  total_le := by
    have htotal := h.total_le
    have hrest : 0 ≤ weightOf allKeys rest :=
      weightOf_nonneg fun unit hu => h.nonneg unit (List.mem_append_right past hu)
    rw [weightOf_append] at htotal
    omega
  keys_le := by
    refine Nat.le_trans (Finset.card_le_card ?_) h.keys_le
    intro key hkey
    simp only [List.map_append, List.toFinset_append, Finset.mem_union]
    exact .inl hkey

theorem Moderate.weight_pos {capacity : Nat} (h : Moderate capacity (past ++ [unit])) :
    0 < weightOf (· == unit.key) (past ++ [unit]) := by
  have hunit := h.positive unit (by simp)
  have hle : unit.count ≤ weightOf (· == unit.key) (past ++ [unit]) :=
    le_weightOf_of_mem h.nonneg (by simp) (by simp)
  omega

/-- What is known of a sketch after units that leave room for all keys. -/
structure Tracks (start : HeapSketch) (past : List Entry) (s : HeapSketch) : Prop where
  rows_eq : s.rows = start.rows.map (·.totals past)
  wellFormed : s.heap.WellFormed
  capacity_eq : s.heap.capacity = start.heap.capacity
  /-- A key that is held was given, and its count is positive and no more than all weight. -/
  held_bounds : ∀ key count, s.heap.held key = some count →
    key ∈ past.map (·.key) ∧ 0 < count ∧ count ≤ weightOf allKeys past
  /-- A key that was given and is mostly alone is held with its weight. -/
  held_eq : ∀ key ∈ past.map (·.key), MostlyAlone start.rows past key →
    s.heap.held key = some (weightOf (· == key) past)

namespace Tracks

variable (h : Tracks start past s) (hm : Moderate start.heap.capacity (past ++ [unit]))

include h hm

/-- There is room for a key that is not held. -/
theorem size_lt (hheld : s.heap.held unit.key = none) : s.heap.size < s.heap.capacity := by
  have hmem : unit.key ∈ ((past ++ [unit]).map (·.key)).toFinset := by simp
  have hsize : s.heap.size ≤ (((past ++ [unit]).map (·.key)).toFinset.erase unit.key).card := by
    refine h.wellFormed.indexed.size_le_card fun key hkey => ?_
    obtain ⟨count, hcount⟩ := Option.ne_none_iff_exists'.mp hkey
    refine Finset.mem_erase.mpr ⟨?_, ?_⟩
    · rintro rfl
      exact hkey hheld
    · rw [List.mem_toFinset, List.map_append]
      exact List.mem_append_left _ (h.held_bounds key count hcount).1
  have hcard := Finset.card_pos.mpr ⟨_, hmem⟩
  have hkeys := hm.keys_le
  rw [Finset.card_erase_of_mem hmem] at hsize
  rw [h.capacity_eq]
  omega

/-- A key that is held has room for the weight of a unit. -/
theorem add_bounds {old : Int} (hheld : s.heap.held unit.key = some old) :
    0 < old + unit.count ∧ old + unit.count ≤ weightOf allKeys (past ++ [unit]) := by
  have hunit := hm.positive unit (by simp)
  obtain ⟨-, hpos, hle⟩ := h.held_bounds unit.key old hheld
  simp only [weightOf_append_singleton, allKeys, if_true]
  omega

/-- What is known after one more unit, if the heap has changed at its key
only, and there as it should. -/
theorem step {heap : BoundedHeap} (wellFormed : heap.WellFormed)
    (capacity_eq : heap.capacity = s.heap.capacity)
    (others : ∀ key, key ≠ unit.key → heap.held key = s.heap.held key)
    (bounds : ∀ count, heap.held unit.key = some count →
      0 < count ∧ count ≤ weightOf allKeys (past ++ [unit]))
    (exact : MostlyAlone start.rows (past ++ [unit]) unit.key →
      heap.held unit.key = some (weightOf (· == unit.key) (past ++ [unit]))) :
    Tracks start (past ++ [unit]) ⟨start.rows.map (·.totals (past ++ [unit])), heap⟩ where
  rows_eq := rfl
  wellFormed := wellFormed
  capacity_eq := capacity_eq.trans h.capacity_eq
  held_bounds key count hheld := by
    by_cases hkey : key = unit.key
    · subst hkey
      exact ⟨by simp, bounds count hheld⟩
    · obtain ⟨hmem, hpos, hle⟩ := h.held_bounds key count (others key hkey ▸ hheld)
      have hunit := hm.positive unit (by simp)
      refine ⟨?_, hpos, ?_⟩
      · rw [List.map_append]
        exact List.mem_append_left _ hmem
      · simp only [weightOf_append_singleton, allKeys, if_true]
        omega
  held_eq key hmem halone := by
    by_cases hkey : key = unit.key
    · subst hkey
      exact exact halone
    · have hpast : key ∈ past.map (·.key) := by simpa [hkey] using hmem
      dsimp only
      rw [others key hkey, h.held_eq key hpast halone.of_append, weightOf_append_singleton,
        if_neg (by simpa using Ne.symm hkey), Int.add_zero]

/-- A unit of a key that is held adds to its count. -/
theorem step_of_held {old : Int} (hheld : s.heap.held unit.key = some old) : ∃ heap,
    s.heap.insertOrBump unit.key unit.count = .ok heap ∧
      Tracks start (past ++ [unit]) ⟨start.rows.map (·.totals (past ++ [unit])), heap⟩ := by
  have hadd := h.add_bounds hm hheld
  -- the sum does not overflow, as it is no more than the weight of all keys
  have hfits : ∀ old, s.heap.held unit.key = some old → Count.Fits (old + unit.count) := by
    intro old hold
    have hle := h.add_bounds hm hold
    have htotal := hm.total_le
    unfold Count.greatest at htotal
    exact Count.fits_iff.mpr (by omega)
  obtain ⟨heap, hcall, hwellFormed, hcapacity, hcases⟩ :=
    h.wellFormed.exists_of_room (h.size_lt hm) hfits
  rcases hcases with ⟨old', hold, hmap⟩ | ⟨hnone, -⟩
  · obtain rfl : old = old' := Option.some.inj (hheld.symm.trans hold)
    refine ⟨heap, hcall, h.step hm hwellFormed hcapacity ?_ ?_ ?_⟩
    · intro key hkey
      rw [hmap, Function.update_of_ne hkey]
    · intro count hcount
      rw [hmap, Function.update_self] at hcount
      rwa [← Option.some.inj hcount]
    · intro halone
      have hexact := h.held_eq unit.key (h.held_bounds unit.key old hheld).1 halone.of_append
      rw [hheld] at hexact
      rw [hmap, Function.update_self, Option.some.inj hexact, weightOf_append_singleton,
        if_pos (beq_self_eq_true _)]
  · rw [hheld] at hnone
    cases hnone

/-- A unit of a key that is not held brings the key in with the median of its
estimates, if that is positive. -/
theorem step_of_not_held (hne : start.rows ≠ []) (hheld : s.heap.held unit.key = none) : ∃ heap,
    s.heap.insertOrBump unit.key (medianOf start.rows (past ++ [unit]) unit.key) = .ok heap ∧
      Tracks start (past ++ [unit]) ⟨start.rows.map (·.totals (past ++ [unit])), heap⟩ := by
  have hweight := hm.weight_pos
  obtain ⟨heap, hcall, hwellFormed, hcapacity, hcases⟩ :=
    h.wellFormed.exists_of_room (h.size_lt hm) fun old hold => by simp [hheld] at hold
  refine ⟨heap, hcall, ?_⟩
  rcases hcases with ⟨old, hold, -⟩ | ⟨-, ⟨hnonpos, hmap⟩ | ⟨hpos, hmap⟩⟩
  · rw [hheld] at hold
    cases hold
  · refine h.step hm hwellFormed hcapacity ?_ ?_ ?_
    · intro key _
      rw [hmap]
    · intro count hcount
      rw [hmap, hheld] at hcount
      cases hcount
    · intro halone
      -- the median of a key that is mostly alone is its weight, which is positive
      rw [medianOf_of_mostlyAlone halone] at hnonpos
      omega
  · refine h.step hm hwellFormed hcapacity ?_ ?_ ?_
    · intro key hkey
      rw [hmap, Function.update_of_ne hkey]
    · intro count hcount
      rw [hmap, Function.update_self] at hcount
      obtain rfl := Option.some.inj hcount
      exact ⟨hpos, medianOf_le hne hm.nonneg unit.key⟩
    · intro halone
      rw [hmap, Function.update_self, medianOf_of_mostlyAlone halone]

/-- **One more unit keeps the counts exact, and its insert does not overflow.** -/
theorem exists_insert (hvacant : ∀ r ∈ start.rows, r.row.Vacant) (hne : start.rows ≠ []) :
    ∃ s', Estimator.insert s unit.key unit.count = .ok s' ∧ Tracks start (past ++ [unit]) s' := by
  have hinsert := fun heap hcall => (insert_eq_ok_iff hvacant h.rows_eq).mpr
    ⟨fun r _ => SignedRow.takes_of_total_le hm.nonneg hm.total_le, heap, hcall, rfl⟩
  have hcontains : s.heap.contains unit.key = true ↔ s.heap.held unit.key ≠ none :=
    h.wellFormed.indexed.contains_eq_true_iff
  cases hheld : s.heap.held unit.key with
  | some old =>
    rw [if_pos (hcontains.mpr (by simp [hheld]))] at hinsert
    obtain ⟨heap, hcall, htracks⟩ := h.step_of_held hm hheld
    exact ⟨_, hinsert heap hcall, htracks⟩
  | none =>
    rw [if_neg (mt hcontains.mp (by simp [hheld]))] at hinsert
    obtain ⟨heap, hcall, htracks⟩ := h.step_of_not_held hm hne hheld
    exact ⟨_, hinsert heap hcall, htracks⟩

end Tracks

theorem Tracks.exists_insertAll (hvacant : ∀ r ∈ start.rows, r.row.Vacant) (hne : start.rows ≠ [])
    (h : Tracks start past s) (hm : Moderate start.heap.capacity (past ++ units)) :
    ∃ s', Estimator.insertAll s units = .ok s' ∧ Tracks start (past ++ units) s' := by
  induction units generalizing past s with
  | nil => exact ⟨s, rfl, by rwa [List.append_nil]⟩
  | cons unit units ih =>
    rw [List.append_cons] at hm ⊢
    obtain ⟨s₁, hi, h₁⟩ := h.exists_insert hm.of_append hvacant hne
    obtain ⟨s', run, h'⟩ := ih h₁ hm
    exact ⟨s', Checked.bind_eq_ok.mpr ⟨s₁, hi, run⟩, h'⟩

/-! ## As they are built -/

/-- A built sketch has some rows, which hold nothing, and an empty heap. -/
theorem tracks_of_ofBudget {memory rows width : Nat} {seed : UInt64}
    (h : ofBudget memory rows width seed = .ok start) :
    (∀ r ∈ start.rows, r.row.Vacant) ∧ start.rows ≠ [] ∧ Tracks start [] start := by
  have hwellFormed := (wellFormed_of_ofBudget h).1
  obtain ⟨length, hrows, hlength, -, rfl⟩ := ofBudget_eq_ok h
  have hvacant : ∀ r ∈ (SignedRow.table rows length ⟨seed⟩).1, r.row.Vacant := fun r hr =>
    SignedRow.vacant_of_mem_table hlength hr
  refine ⟨hvacant, SignedRow.table_ne_nil hrows _ _, ?_⟩
  refine ⟨(SignedRow.map_totals_nil hvacant).symm, hwellFormed, rfl, ?_, ?_⟩
  · intro key count hcount
    rw [BoundedHeap.held_empty] at hcount
    cases hcount
  · intro key hkey
    cases hkey

/--
**A key that is alone in its bucket in more than half of the rows is counted exactly**, as long as a
counter can hold all weight and the heap all keys.
-/
theorem exact_of_majority {memory rows width : Nat} {seed : UInt64}
    (built : ofBudget memory rows width seed = .ok start) (hpos : ∀ unit ∈ units, 1 ≤ unit.count)
    (htotal : weightOf allKeys units ≤ Count.greatest)
    (hkeys : (units.map (·.key)).toFinset.card ≤ start.heap.capacity) :
    ∃ s, Estimator.insertAll start units = .ok s ∧
      ∀ key ∈ units.map (·.key), MostlyAlone start.rows units key →
        s.heap.contains key = true ∧ Estimator.query s key = .ok (weightOf (· == key) units) ∧
          ∃ ranking, Estimator.topK s = .ok ranking ∧
          ⟨key, weightOf (· == key) units⟩ ∈ ranking := by
  obtain ⟨hvacant, hne, hstart⟩ := tracks_of_ofBudget built
  obtain ⟨s, run, h⟩ := hstart.exists_insertAll hvacant hne ⟨hpos, htotal, hkeys⟩
  rw [List.nil_append] at h
  refine ⟨s, run, fun key hkey halone => ?_⟩
  have hx := h.wellFormed.indexed
  have hheld := h.held_eq key hkey halone
  refine ⟨?_, ?_, _, rfl, ?_⟩
  · rw [hx.contains_eq_true_iff, hheld]
    simp
  · show Except.ok (s.heap.query key) = _
    rw [hx.query_eq, hheld, Option.getD_some]
  · exact hx.mem_records_iff.mpr hheld

/-- Three rows of three counters: the key 6 shares its counter with all other
keys in the second row only. -/
theorem exact_of_majority_three_rows : ∃ start s, ofBudget 80 3 4 2 = .ok start ∧
    (∀ unit ∈ ([⟨9, 5⟩, ⟨6, 2⟩, ⟨3, 4⟩, ⟨6, 3⟩, ⟨4, 1⟩] : List Entry), 1 ≤ unit.count) ∧
    weightOf allKeys [⟨9, 5⟩, ⟨6, 2⟩, ⟨3, 4⟩, ⟨6, 3⟩, ⟨4, 1⟩] ≤ Count.greatest ∧
    (([⟨9, 5⟩, ⟨6, 2⟩, ⟨3, 4⟩, ⟨6, 3⟩, ⟨4, 1⟩] : List Entry).map (·.key)).toFinset.card
      ≤ start.heap.capacity ∧
    Estimator.insertAll start [⟨9, 5⟩, ⟨6, 2⟩, ⟨3, 4⟩, ⟨6, 3⟩, ⟨4, 1⟩] = .ok s ∧
    MostlyAlone start.rows [⟨9, 5⟩, ⟨6, 2⟩, ⟨3, 4⟩, ⟨6, 3⟩, ⟨4, 1⟩] 6 ∧
    s.heap.contains 6 = true ∧ Estimator.query s 6 = .ok 5 ∧
    ∃ ranking, Estimator.topK s = .ok ranking ∧ ⟨6, 5⟩ ∈ ranking := by
  have hbuilt : (do
      let start ← ofBudget 80 3 4 2
      return (start.heap.capacity,
        decide (MostlyAlone start.rows [⟨9, 5⟩, ⟨6, 2⟩, ⟨3, 4⟩, ⟨6, 3⟩, ⟨4, 1⟩] 6)) :
          Outcome (Nat × Bool))
        = .ok (5, true) := by decide +kernel
  obtain ⟨start, built, hstart⟩ := Checked.bind_eq_ok.mp hbuilt
  obtain ⟨hcapacity, halone⟩ := Prod.mk.inj (Checked.pure_eq_ok.mp hstart)
  have halone := of_decide_eq_true halone
  have hpos : ∀ unit ∈ ([⟨9, 5⟩, ⟨6, 2⟩, ⟨3, 4⟩, ⟨6, 3⟩, ⟨4, 1⟩] : List Entry),
    1 ≤ unit.count := by decide
  have htotal : weightOf allKeys [⟨9, 5⟩, ⟨6, 2⟩, ⟨3, 4⟩, ⟨6, 3⟩, ⟨4, 1⟩]
    ≤ Count.greatest := by decide
  have hkeys : (([⟨9, 5⟩, ⟨6, 2⟩, ⟨3, 4⟩, ⟨6, 3⟩, ⟨4, 1⟩] : List Entry).map (·.key)).toFinset.card
      ≤ start.heap.capacity := by
    rw [hcapacity]
    decide
  obtain ⟨s, run, hexact⟩ := exact_of_majority built hpos htotal hkeys
  obtain ⟨hcontains, hquery, hranking⟩ := hexact 6 (by decide) halone
  exact ⟨start, s, built, hpos, htotal, hkeys, run, halone, hcontains, hquery, hranking⟩

end HeapSketch

end HeavyHitters
