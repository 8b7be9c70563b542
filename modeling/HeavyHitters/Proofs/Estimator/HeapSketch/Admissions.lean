import HeavyHitters.Proofs.Estimator.HeapSketch

/-!
# The counts in a heap go back to admissions

A key comes into the heap of a count sketch with the median of its estimates, which other keys of
its buckets have a share in: the median can be more than what was inserted for the key, and a key
that was inserted may have one that is not positive and stay outside.  From then on the rows no
longer matter to the count of the key, to which what is inserted for the key is added as it is,
until the key loses its place.  A key that comes back starts anew.

So the count of every key in the heap has a history: the unit that the key was last
admitted with, and the units since.  None of that depends on how the weights are
spread, as long as none is negative.

* `BoundedHeap.Changes.held_cases` says where a count comes from, and
  `BoundedHeap.Changes.exists_le` that a full heap gives no count up for a lesser one.
* `HeapSketch.Admission` is the history of one count, with one lemma for the unit that admits the
  key and one for the units after it.
* `HeapSketch.Traced` is the invariant of a run, and `HeapSketch.Traceable` is what
  can be seen of it from outside.
* `HeapSketch.traceable_of_insertAll` is the result, at every point of a run.
-/

namespace HeavyHitters

/-! ## One call of a heap -/

namespace BoundedHeap

variable {h h' h'' : BoundedHeap} {key : Key} {count : Int}

/-- A count that is held after a call was held before it and has been added to,
or has come in with the call. -/
theorem Changes.held_cases {map : Key → Option Int} (call : Changes h key count map)
    {other : Key} {c : Int} (hc : map other = some c) :
    (∃ old, h.held other = some old ∧ c = old + if key == other then count else 0) ∨
      other = key ∧ h.held key = none ∧ 0 < count ∧ c = count := by
  -- a count that the call does not touch, of a heap that does not hold the key
  have hstays : h.held key = none → h.held other = some c →
      ∃ old, h.held other = some old ∧ c = old + if key == other then count else 0 := by
    intro untracked hold
    have hne : key ≠ other := by
      rintro rfl
      cases hold.symm.trans untracked
    exact ⟨c, hold, by simp [hne]⟩
  cases call with
  | @bumped old tracked =>
    left
    by_cases hk : other = key
    · subst hk
      rw [Function.update_self] at hc
      exact ⟨old, tracked, by simpa using (Option.some.inj hc).symm⟩
    · rw [Function.update_of_ne hk] at hc
      exact ⟨c, hc, by simp [Ne.symm hk]⟩
  | ignored untracked => exact .inl (hstays untracked hc)
  | added untracked pos =>
    by_cases hk : other = key
    · subst hk
      rw [Function.update_self] at hc
      exact .inr ⟨rfl, untracked, pos, (Option.some.inj hc).symm⟩
    · rw [Function.update_of_ne hk] at hc
      exact .inl (hstays untracked hc)
  | @replaced victim least untracked pos =>
    by_cases hk : other = key
    · subst hk
      rw [Function.update_self] at hc
      exact .inr ⟨rfl, untracked, pos, (Option.some.inj hc).symm⟩
    · rw [Function.update_of_ne hk] at hc
      by_cases hv : other = victim
      · rw [hv, Function.update_self] at hc
        cases hc
      · rw [Function.update_of_ne hv] at hc
        exact .inl (hstays untracked hc)
  | kept untracked => exact .inl (hstays untracked hc)

/-- A call of a full heap leaves it as full as it was. -/
theorem Moves.size_eq_of_full (call : Moves h key count h') (full : h.size = h.capacity) :
    h'.size = h.size := by
  unfold size at *
  cases call with
  | bumped _ _ _ down up =>
    rw [(down.rearranged.trans up.rearranged).size_eq, setEntry, Array.size_setIfInBounds]
  | ignored => rfl
  | pushed _ _ room => omega
  | replaced _ _ _ _ _ down => rw [down.rearranged.size_eq, Array.size_setIfInBounds]
  | kept => rfl

/-- No count of the second heap is less than every count of the first. -/
def Dominates (h h' : BoundedHeap) : Prop :=
  ∀ key' count', h'.held key' = some count' → ∃ key count, h.held key = some count ∧ count ≤ count'

theorem Dominates.refl (h : BoundedHeap) :
    Dominates h h :=
  fun key count hc => ⟨key, count, hc, Int.le_refl count⟩

theorem Dominates.trans (h₁ : Dominates h h') (h₂ : Dominates h' h'') : Dominates h h'' := by
  intro key'' count'' hc
  obtain ⟨key', count', hc', hle'⟩ := h₂ key'' count'' hc
  obtain ⟨key, count, hc, hle⟩ := h₁ key' count' hc'
  exact ⟨key, count, hc, Int.le_trans hle hle'⟩

/-- In a full heap a new count takes the place of a lesser one. -/
theorem Changes.exists_le {map : Key → Option Int} (call : Changes h key count map)
    (full : h.size = h.capacity) (hcount : h.held key ≠ none → 0 ≤ count) {other : Key} {c : Int}
    (hc : map other = some c) : ∃ before old, h.held before = some old ∧ old ≤ c := by
  rcases call.held_cases hc with ⟨old, hold, rfl⟩ | ⟨rfl, untracked, pos, rfl⟩
  · refine ⟨other, old, hold, ?_⟩
    split
    · next hk =>
      have := hcount (by simp [eq_of_beq hk, hold])
      omega
    · omega
  · cases call with
    | bumped tracked => cases tracked.symm.trans untracked
    | ignored => omega
    | added _ _ room => omega
    | replaced _ _ _ victim_held _ lesser => exact ⟨_, _, victim_held, Int.le_of_lt lesser⟩
    | kept => cases hc.symm.trans untracked

/-- The ranking has as many records as the heap has entries. -/
theorem length_records (h : BoundedHeap) : h.records.length = h.size := by
  rw [records, (rank_perm _).length_eq, Array.length_toList]
  rfl

/-- If the counts of a heap dominate those of another, and it holds any,
its least count is no less. -/
theorem Dominates.min?_le (hdom : Dominates h h') (hx : h.Indexed) (hx' : h'.Indexed)
    (hsize : 0 < h'.size) :
    ∃ least least', (h.records.map (·.count)).min? = some least ∧
    (h'.records.map (·.count)).min? = some least' ∧
      least ≤ least' := by
  -- a record with the least count of the second heap, and one of the first that is no greater
  have hne : h'.records.map (·.count) ≠ [] := by
    rw [← List.length_pos_iff, List.length_map, length_records]
    exact hsize
  obtain ⟨least', hleast'⟩ := Option.isSome_iff_exists.mp (List.isSome_min?_of_ne_nil hne)
  obtain ⟨record', hrecord', rfl⟩ := List.mem_map.mp (List.min?_mem hleast')
  obtain ⟨key, count, hheld, hle⟩ :=
    hdom record'.key record'.count (hx'.mem_records_iff.mp hrecord')
  have hmem : count ∈ h.records.map (·.count) :=
    List.mem_map.mpr ⟨⟨key, count⟩, hx.mem_records_iff.mpr hheld, rfl⟩
  obtain ⟨least, hleast⟩ := Option.isSome_iff_exists.mp (List.isSome_min?_of_mem hmem)
  exact ⟨least, record'.count, hleast, hleast',
    Int.le_trans ((List.min?_eq_some_iff.mp hleast).2 count hmem) hle⟩

end BoundedHeap

namespace HeapSketch

variable {start before after s s' : HeapSketch}
  {past rest earlier since units : List Entry} {unit : Entry} {key : Key} {weight count : Int}

/-! ## The history of a count -/

/-- A run with one more unit. -/
theorem insertAll_concat (run : Estimator.insertAll start past = .ok s)
    (hi : Estimator.insert s unit.key unit.count = .ok s') :
    Estimator.insertAll start (past ++ [unit]) = .ok s' := by
  rw [Estimator.insertAll_append]
  exact Checked.bind_eq_ok.mpr ⟨s, run, Checked.bind_eq_ok.mpr ⟨s', hi, rfl⟩⟩

/-- The history of the count of a key in the heap: the key was not there after the earlier units, it
came in with a unit of its own, and has been there since.  Its count is the median of the estimates
that the rows then gave for it, and what was inserted for it since. -/
structure Admission (start : HeapSketch) (key : Key) (earlier : List Entry) (weight : Int)
    (since : List Entry) (count : Int) : Prop where
  absent : ∃ s, Estimator.insertAll start earlier = .ok s ∧ s.heap.contains key = false
  held : ∀ more, more <+: since → ∃ s,
    Estimator.insertAll start (earlier ++ ⟨key, weight⟩ :: more) = .ok s ∧
    s.heap.contains key = true
  count_eq : ∃ admitted estimates,
    Estimator.insertAll start (earlier ++ [⟨key, weight⟩]) = .ok admitted ∧
    admitted.rows.mapM (·.estimate key) = .ok estimates ∧
    count = Count.median estimates + weightOf (· == key) since

/-- A key that comes in starts a history. -/
theorem admission_of_insert {estimates : List Int} (run : Estimator.insertAll start past = .ok s)
    (hi : Estimator.insert s unit.key unit.count = .ok s')
    (habsent : s.heap.contains unit.key = false) (hheld : s'.heap.contains unit.key = true)
    (hestimates : s'.rows.mapM (·.estimate unit.key) = .ok estimates) :
    Admission start unit.key past unit.count [] (Count.median estimates) where
  absent := ⟨s, run, habsent⟩
  held more hmore := by
    obtain rfl := List.prefix_nil.mp hmore
    exact ⟨s', insertAll_concat run hi, hheld⟩
  count_eq := ⟨s', estimates, insertAll_concat run hi, hestimates, (Int.add_zero _).symm⟩

/-- A key that stays goes on with its history, to which a unit of the key adds its weight. -/
theorem Admission.concat (h : Admission start key earlier weight since count)
    (run : Estimator.insertAll start (earlier ++ ⟨key, weight⟩ :: (since ++ [unit])) = .ok s')
    (hheld : s'.heap.contains key = true) :
    Admission start key earlier weight (since ++ [unit])
      (count + if unit.key == key then unit.count else 0) where
  absent := h.absent
  held more hmore := by
    rcases List.prefix_concat_iff.mp hmore with rfl | hmore
    · exact ⟨s', run, hheld⟩
    · exact h.held more hmore
  count_eq := by
    obtain ⟨admitted, estimates, hrun, hestimates, rfl⟩ := h.count_eq
    refine ⟨admitted, estimates, hrun, hestimates, ?_⟩
    rw [weightOf_append_singleton, Int.add_assoc]

/-! ## Runs -/

/-- What is known of a sketch after some units. -/
structure Traced (start : HeapSketch) (past : List Entry) (s : HeapSketch) : Prop where
  run : Estimator.insertAll start past = .ok s
  rows_eq : s.rows = start.rows.map (·.totals past)
  wellFormed : s.heap.WellFormed
  positive : s.heap.Positive
  capacity_eq : s.heap.capacity = start.heap.capacity
  exists_admission : ∀ key count, s.heap.held key = some count → ∃ earlier weight since,
    past = earlier ++ ⟨key, weight⟩ :: since ∧ Admission start key earlier weight since count

/-- Rows that have taken a unit in estimate its key. -/
theorem mapM_estimate_of_takes {rows : List SignedRow} (hrows : ∀ r ∈ rows, r.row.Vacant)
    (htakes : ∀ r ∈ rows, r.Takes past unit) :
    (rows.map (·.totals (past ++ [unit]))).mapM (·.estimate unit.key)
      = .ok (rows.map (·.estimateOf (past ++ [unit]) unit.key)) := by
  rw [List.mapM_map]
  refine Checked.mapM_eq_ok_map fun r hr => ?_
  show (r.totals (past ++ [unit])).estimate unit.key = _
  rw [SignedRow.estimate_totals (hrows r hr).length_pos, Count.narrow_of_fits (htakes r hr).2]

/-- **One more unit leaves every count with a history**: it adds to the count of
its key, or brings the key in. -/
theorem Traced.insert (hvacant : ∀ r ∈ start.rows, r.row.Vacant) (h : Traced start past s)
    (hunit : 0 ≤ unit.count) (hi : Estimator.insert s unit.key unit.count = .ok s') :
    Traced start (past ++ [unit]) s' := by
  have hx := h.wellFormed.indexed
  have hrun := insertAll_concat h.run hi
  obtain ⟨htakes, heap, hcall, rfl⟩ := (insert_eq_ok_iff hvacant h.rows_eq).mp hi
  have hmoves := h.wellFormed.moves hcall
  have hchanges := hmoves.changes h.wellFormed
  have hwellFormed := hmoves.wellFormed h.wellFormed
  -- the heap is called with the weight if the key is held
  have hcount : s.heap.held unit.key ≠ none →
      (if s.heap.contains unit.key then unit.count
        else medianOf start.rows (past ++ [unit]) unit.key) = unit.count :=
    fun hheld => if_pos (hx.contains_eq_true_iff.mpr hheld)
  refine ⟨hrun, rfl, hwellFormed, ?_, hmoves.capacity_eq.trans h.capacity_eq,
    fun key count hkey => ?_⟩
  · exact hchanges.positive h.positive fun hheld => (hcount hheld).symm ▸ hunit
  have hcontains : heap.contains key = true :=
    hwellFormed.indexed.contains_eq_true_iff.mpr (by simp [hkey])
  rcases hchanges.held_cases hkey with ⟨old, hold, hsum⟩ | ⟨rfl, hnone, -, hmedian⟩
  · obtain ⟨earlier, weight, since, rfl, hadmission⟩ := h.exists_admission key old hold
    refine ⟨earlier, weight, since ++ [unit], by simp, ?_⟩
    have hadded : count = old + if unit.key == key then unit.count else 0 := by
      rw [hsum]
      by_cases hk : unit.key = key
      · rw [hcount (by simp [hk, hold])]
      · simp [hk]
    rw [hadded]
    rw [List.append_assoc, List.cons_append] at hrun
    exact hadmission.concat hrun hcontains
  · have habsent := hx.contains_eq_false_iff.mpr hnone
    rw [if_neg (by simp [habsent])] at hmedian
    rw [hmedian]
    exact ⟨past, unit.count, [], rfl,
      admission_of_insert h.run hi habsent hcontains (mapM_estimate_of_takes hvacant htakes)⟩

/-- What a built sketch is known to be after weights that are not negative. -/
theorem traced_of_insertAll {memory rows width : Nat} {seed : UInt64}
    (built : ofBudget memory rows width seed = .ok start) (hpos : ∀ unit ∈ units, 0 ≤ unit.count)
    (run : Estimator.insertAll start units = .ok s) : Traced start units s := by
  obtain ⟨hvacant, -, htracks⟩ := tracks_of_ofBudget built
  obtain ⟨hwellFormed, hpositive⟩ := wellFormed_of_ofBudget built
  have hstart : Traced start [] start := by
    refine ⟨rfl, htracks.rows_eq, hwellFormed, hpositive, rfl, fun key count hkey => ?_⟩
    cases (htracks.held_bounds key count hkey).1
  exact Checked.past_foldlM (fun h hunit hi => h.insert hvacant hunit hi) hstart hpos run

/-- A full heap, after more units: still full, and with no count less than all that it had. -/
theorem dominates_of_insertAll (hwellFormed : before.heap.WellFormed)
    (hfull : before.tracked = before.heap.capacity) (hpos : ∀ unit ∈ rest, 0 ≤ unit.count)
    (run : Estimator.insertAll before rest = .ok after) :
    after.heap.WellFormed ∧ after.tracked = before.tracked ∧
    after.heap.capacity = before.heap.capacity ∧
      BoundedHeap.Dominates before.heap after.heap := by
  refine @Checked.inv_foldlM _ _ _ (fun s : HeapSketch => s.heap.WellFormed ∧
    s.tracked = before.tracked ∧
    s.heap.capacity = before.heap.capacity ∧
    BoundedHeap.Dominates before.heap s.heap) _ _ ?_ rest before after
    ⟨hwellFormed, rfl, rfl, .refl _⟩ hpos run
  rintro s s' unit ⟨hs, hsize, hcapacity, hdom⟩ hunit hi
  obtain ⟨estimate, hcall⟩ := exists_call hi
  have hmoves := hs.moves hcall
  have hsfull : s.heap.size = s.heap.capacity := hsize.trans (hfull.trans hcapacity.symm)
  refine ⟨hmoves.wellFormed hs, (hmoves.size_eq_of_full hsfull).trans hsize,
    hmoves.capacity_eq.trans hcapacity,
    hdom.trans fun key count => (hmoves.changes hs).exists_le hsfull fun hheld => ?_⟩
  rw [if_pos (hs.indexed.contains_eq_true_iff.mpr hheld)]
  exact hunit

/-! ## Seen from outside -/

/-- What can be seen of a sketch after some units. -/
structure Traceable (start : HeapSketch) (past : List Entry) (s : HeapSketch) : Prop where
  tracked_le : s.tracked ≤ s.heap.capacity
  /-- A key in the heap was inserted. -/
  mem_keys : ∀ key, s.heap.contains key = true → key ∈ past.map (·.key)
  query_pos : ∀ key, s.heap.contains key = true → 0 < s.query key
  query_nonneg : ∀ key, 0 ≤ s.query key
  /-- The ranking lists the keys in the heap with their counts. -/
  mem_topK : ∀ record, record ∈ s.topK ↔ s.heap.contains record.key = true ∧
    s.query record.key = record.count
  /-- The count of a key in the heap goes back to the last unit that the key came in with. -/
  exists_admission : ∀ key, s.heap.contains key = true → ∃ earlier weight since,
    past = earlier ++ ⟨key, weight⟩ :: since ∧
    Admission start key earlier weight since (s.query key)

/-- The least count in the heap, if there is any. -/
def leastCount (s : HeapSketch) : Option Int := (s.topK.map (·.count)).min?

/-- The second of two sketches has a full heap as the first, and a least count that is no less. -/
structure StaysFull (before after : HeapSketch) : Prop where
  full : after.tracked = after.heap.capacity
  leastCount_le : ∃ least least', before.leastCount = some least ∧
    after.leastCount = some least' ∧ least ≤ least'

theorem Traced.traceable (h : Traced start past s) : Traceable start past s := by
  have hx := h.wellFormed.indexed
  have hheld : ∀ key, s.heap.contains key = true → s.heap.held key = some (s.query key) :=
    fun key hkey => hx.held_eq_some_iff_query.mpr ⟨hkey, rfl⟩
  refine ⟨h.wellFormed.size_le, fun key hkey => ?_, fun key hkey =>
    h.positive key _ (hheld key hkey),
    fun key => ?_, fun record => ?_, fun key hkey => h.exists_admission key _ (hheld key hkey)⟩
  · obtain ⟨earlier, weight, since, rfl, -⟩ := h.exists_admission key _ (hheld key hkey)
    simp
  · show 0 ≤ s.heap.query key
    rw [hx.query_eq]
    cases hkey : s.heap.held key with
    | none => exact Int.le_refl 0
    | some count => exact Int.le_of_lt (h.positive key count hkey)
  · exact hx.mem_records_iff.trans hx.held_eq_some_iff_query

/--
**At every point of a run every count in the heap is positive and has a history**, if no weight is
negative.  Once the heap is full it stays full, and its least count does not decrease.
-/
theorem traceable_of_insertAll {memory rows width : Nat} {seed : UInt64}
    (built : ofBudget memory rows width seed = .ok start)
    (hpos : ∀ unit ∈ past ++ rest, 0 ≤ unit.count)
    (run : Estimator.insertAll start past = .ok before)
    (later : Estimator.insertAll before rest = .ok after) :
    Traceable start past before ∧
    (before.tracked = before.heap.capacity → StaysFull before after) := by
  obtain ⟨hpast, hrest⟩ := List.forall_mem_append.mp hpos
  have hbefore := traced_of_insertAll built hpast run
  refine ⟨hbefore.traceable, fun hfull => ?_⟩
  obtain ⟨hwellFormed, hsize, hcapacity, hdom⟩ :=
    dominates_of_insertAll hbefore.wellFormed hfull hrest later
  have hafter : after.tracked = after.heap.capacity := hsize.trans (hfull.trans hcapacity.symm)
  refine ⟨hafter, hdom.min?_le hbefore.wellFormed.indexed hwellFormed.indexed ?_⟩
  show 0 < after.tracked
  rw [hafter, hcapacity, hbefore.capacity_eq]
  exact capacity_pos_of_ofBudget built

/-- Two rows of two counters and a heap of two keys: the key 2 comes in with a median that is more
than its weight, and the key 1, which was replaced, comes back with another one. -/
theorem traceable_of_insertAll_readmitted : ∃ start before after, ofBudget 32 2 4 3 = .ok start ∧
    (∀ unit ∈ ([⟨1, 5⟩, ⟨2, 3⟩, ⟨3, 9⟩, ⟨2, 2⟩, ⟨2, 4⟩] ++ [⟨1, 6⟩] : List Entry), 0 ≤ unit.count) ∧
    Estimator.insertAll start [⟨1, 5⟩, ⟨2, 3⟩, ⟨3, 9⟩, ⟨2, 2⟩, ⟨2, 4⟩] = .ok before ∧
    Estimator.insertAll before [⟨1, 6⟩] = .ok after ∧
    before.topK = [⟨2, 11⟩, ⟨3, 10⟩] ∧ after.topK = [⟨1, 15⟩, ⟨2, 11⟩] ∧
    Traceable start [⟨1, 5⟩, ⟨2, 3⟩, ⟨3, 9⟩, ⟨2, 2⟩, ⟨2, 4⟩] before ∧ StaysFull before after := by
  have hrun : (do
      let start ← ofBudget 32 2 4 3
      let before ← Outcome.ofChecked
        (Estimator.insertAll start [⟨1, 5⟩, ⟨2, 3⟩, ⟨3, 9⟩, ⟨2, 2⟩, ⟨2, 4⟩])
      let after ← Outcome.ofChecked (Estimator.insertAll before [⟨1, 6⟩])
      return (before.topK, after.topK, before.tracked, before.heap.capacity)
      : Outcome (List (Record Key) × List (Record Key) × Nat × Nat))
        = .ok ([⟨2, 11⟩, ⟨3, 10⟩], [⟨1, 15⟩, ⟨2, 11⟩], 2, 2) := by decide +kernel
  obtain ⟨start, built, hrun⟩ := Checked.bind_eq_ok.mp hrun
  obtain ⟨before, run, hrun⟩ := Checked.bind_eq_ok.mp hrun
  obtain ⟨after, later, hrun⟩ := Checked.bind_eq_ok.mp hrun
  have run := Outcome.ofChecked_eq_ok.mp run
  have later := Outcome.ofChecked_eq_ok.mp later
  have hseen := Checked.pure_eq_ok.mp hrun
  simp only [Prod.mk.injEq] at hseen
  obtain ⟨hbefore, hafter, htracked, hcapacity⟩ := hseen
  have hpos : ∀ unit ∈ ([⟨1, 5⟩, ⟨2, 3⟩, ⟨3, 9⟩, ⟨2, 2⟩, ⟨2, 4⟩] ++ [⟨1, 6⟩] : List Entry),
      0 ≤ unit.count := by
    decide
  obtain ⟨htraceable, hfull⟩ := traceable_of_insertAll built hpos run later
  exact ⟨start, before, after, built, hpos, run, later, hbefore, hafter, htraceable,
    hfull (htracked.trans hcapacity.symm)⟩

end HeapSketch

end HeavyHitters
