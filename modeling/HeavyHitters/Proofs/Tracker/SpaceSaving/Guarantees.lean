import HeavyHitters.Proofs.Tracker.SpaceSaving.Steps
import Mathlib.Algebra.Order.Group.Int
import Mathlib.Data.Finset.Card

/-!
# The guarantees of Space-Saving

A tracker of `c` counters makes three promises about a run of `n` keys: no tracked count is too low,
none is too high by more than the least count `m`, and no untracked key occurred more than `m`
times.  Since the counts add up to `n`, the least of them is at most `n / c`.

What carries the induction is that the counter of a new key goes on from the least count, which
bounds how often the key can have occurred, and that the least count never falls.

* `SpaceSaving.floor` is the least count of a full table.
* `SpaceSaving.Tracks` relates a table to the keys that led to it, and `SpaceSaving.Tracks.step` is
  its step.
* `SpaceSaving.guarantees_of_insertAll` is the whole of the promises, about every run.
-/

namespace HeavyHitters

/-! ## One key more -/

theorem toFinset_append_singleton (past : List Key) (key : Key) :
    (past ++ [key]).toFinset = insert key past.toFinset := by
  ext
  simp

theorem count_append_singleton (past : List Key) (key other : Key) :
    (past ++ [key]).count other = past.count other + if key = other then 1 else 0 := by
  rw [List.count_append, List.count_singleton]
  simp only [beq_iff_eq]

namespace SpaceSaving

variable {t t' : SpaceSaving} {key : Key} {out : Option Entry}

/-! ## The least count of a full table -/

/-- The least count if there is no free counter, else 0. -/
def floor (t : SpaceSaving) : Int :=
  if t.size < t.capacity then 0 else Count.leastOf (t.residents.map (·.count))

theorem floor_of_lt (room : t.size < t.capacity) : t.floor = 0 := if_pos room

theorem Sound.counts_ne_nil (h : t.Sound) (full : t.capacity ≤ t.size) :
    t.residents.map (·.count) ≠ [] := by
  have := h.capacity_pos
  have := h.matched.size_eq
  rw [← List.length_pos_iff_ne_nil, List.length_map]
  omega

theorem Sound.le_floor_iff (h : t.Sound) (full : t.capacity ≤ t.size) {m : Int} :
    m ≤ t.floor ↔ ∀ e ∈ t.residents, m ≤ e.count := by
  rw [floor, if_neg (Nat.not_lt.mpr full), Count.le_leastOf_iff (h.counts_ne_nil full)]
  simp

/-- The least counter of a full table has the least count. -/
theorem Sound.floor_eq (h : t.Sound) (full : t.capacity ≤ t.size) {victim : Entry}
    (least : t.order.min? = some victim) : t.floor = victim.count := by
  obtain ⟨hmem, hle⟩ := Std.TreeSet.min?_eq_some_iff_mem_and_forall.mp least
  refine Int.le_antisymm ?_ ?_
  · exact (h.le_floor_iff full).mp (Int.le_refl _) victim (SpaceSaving.mem_residents.mpr hmem)
  · exact (h.le_floor_iff full).mpr fun e he =>
      Entry.count_le_of_isLE (hle e (SpaceSaving.mem_residents.mp he))

theorem Sound.floor_nonneg (h : t.Sound) : 0 ≤ t.floor := by
  by_cases full : t.capacity ≤ t.size
  · refine (h.le_floor_iff full).mpr fun e he => ?_
    have := h.positive e he
    omega
  · rw [floor_of_lt (Nat.not_le.mp full)]

theorem Sound.floor_le (h : t.Sound) {e : Entry} (he : e ∈ t.residents) : t.floor ≤ e.count := by
  by_cases full : t.capacity ≤ t.size
  · exact (h.le_floor_iff full).mp (Int.le_refl _) e he
  · have := h.positive e he
    rw [floor_of_lt (Nat.not_le.mp full)]
    omega

/-- The counter of an untracked key goes on from the least count. -/
theorem Step.old_cases (h : t.Sound) {old : Int} (step : Step t key old t' out) :
    t.counts[key]? = some old ∨ t.counts[key]? = none ∧ old = t.floor := by
  cases step with
  | raised tracked fits => exact .inl tracked
  | admitted untracked room => exact .inr ⟨untracked, (floor_of_lt room).symm⟩
  | tookOver untracked full least fits =>
    exact .inr ⟨untracked, (h.floor_eq full least).symm⟩

theorem Step.floor_le_old (h : t.Sound) {old : Int} (step : Step t key old t' out) :
    t.floor ≤ old := by
  rcases step.old_cases h with tracked | ⟨-, hold⟩
  · exact h.floor_le (h.mem_of_getElem? tracked)
  · exact Int.le_of_eq hold.symm

/-- No insert frees a counter. -/
theorem Step.size_le (h : t.Sound) {old : Int} (step : Step t key old t' out) :
    t.size ≤ t'.size := by
  obtain ⟨taken, rest, hbefore, hafter, -, -⟩ := step.exists_rest h
  rw [h.matched.size_eq, (step.matched h).size_eq, hbefore.length_eq, hafter.length_eq,
    List.length_append, List.length_cons]
  cases taken <;> simp [Nat.add_comm]

/-- The least count never falls. -/
theorem Step.floor_le_floor (h : t.Sound) {old : Int} (step : Step t key old t' out) :
    t.floor ≤ t'.floor := by
  have h' := h.step step
  by_cases full : t.capacity ≤ t.size
  · have hsize := step.size_le h
    have hcapacity := step.capacity_eq
    refine (h'.le_floor_iff (by omega)).mpr fun e he => ?_
    rcases step.mem_residents h he with rfl | he
    · have := step.floor_le_old h
      show t.floor ≤ old + 1
      omega
    · exact h.floor_le he
  · rw [floor_of_lt (Nat.not_le.mp full)]
    exact h'.floor_nonneg

/-! ## A table and the keys that led to it -/

/-- What a table is to the keys that were inserted into an empty one. -/
structure Tracks (capacity : Nat) (past : List Key) (t : SpaceSaving) : Prop extends Sound t where
  capacity_eq : t.capacity = capacity
  total : (t.residents.map (·.count)).sum = past.length
  size_eq : t.size = min capacity past.toFinset.card
  seen : ∀ (key : Key) (count : Int), t.counts[key]? = some count → key ∈ past
  /-- A tracked count is not too low, and too high by the least count at most. -/
  tracked : ∀ (key : Key) (count : Int), t.counts[key]? = some count →
    past.count key ≤ count ∧ count ≤ past.count key + t.floor
  untracked : ∀ key, t.counts[key]? = none → past.count key ≤ t.floor

theorem tracks_empty {capacity : Nat} (hc : 0 < capacity) :
    Tracks capacity [] (empty capacity) := by
  refine { sound_empty hc with
    capacity_eq := rfl, total := ?_, size_eq := ?_, seen := ?_, tracked := ?_, untracked := ?_ }
  · rw [residents_empty]
    rfl
  · simp [size, empty]
  · simp [empty]
  · simp [empty]
  · intro key _
    exact (sound_empty hc).floor_nonneg

/-- A built table tracks what it is fed. -/
theorem tracks_of_ofBudget {memory : Nat} (h : ofBudget memory = .ok t) :
    Tracks (memory / 8) [] t := by
  obtain ⟨hcapacity, rfl⟩ := ofBudget_eq_ok h
  exact tracks_empty hcapacity

/-- The counter of the inserted key, before its unit is added, keeps to the bounds of a tracked
count. -/
theorem Tracks.old_bounds {capacity : Nat} {past : List Key}
    (h : Tracks capacity past t) {old : Int} (step : Step t key old t' out) :
    past.count key ≤ old ∧ old ≤ past.count key + t.floor := by
  rcases step.old_cases h.toSound with tracked | ⟨untracked, rfl⟩
  · exact h.tracked key old tracked
  · exact ⟨h.untracked key untracked, by omega⟩

theorem Step.getElem?_self {old : Int} (step : Step t key old t' out) :
    t'.counts[key]? = some (old + 1) := by
  cases step <;> rw [getElem?_move, if_pos rfl]; rfl

/-- Of another key, an insert leaves the counter as it is, unless it is the least one and is taken
over. -/
theorem Step.getElem?_other (h : t.Sound) {old : Int} (step : Step t key old t' out) {other : Key}
    (hne : key ≠ other) : t'.counts[other]? = t.counts[other]? ∨
      t'.counts[other]? = none ∧ t.counts[other]? = some t.floor := by
  cases step with
  | raised tracked fits => exact .inl (by rw [getElem?_move, if_neg hne])
  | admitted untracked room => exact .inl (by rw [getElem?_move, if_neg hne])
  | @tookOver victim untracked full least fits =>
    rw [getElem?_move, if_neg hne, getElem?_drop]
    by_cases hv : victim.key = other
    · rw [if_pos hv, h.floor_eq full least, ← hv]
      exact .inr ⟨rfl, (h.matched _ _).mp (mem_of_min? least)⟩
    · exact .inl (if_neg hv)

theorem Step.sum_eq (h : t.Sound) {old : Int} (step : Step t key old t' out) :
    (t'.residents.map (·.count)).sum = (t.residents.map (·.count)).sum + 1 := by
  obtain ⟨taken, rest, hbefore, hafter, rfl, -⟩ := step.exists_rest h
  rw [(hbefore.map _).sum_eq, (hafter.map _).sum_eq, List.map_append,
    List.sum_append, List.map_cons, List.sum_cons]
  cases taken with
  | none => simp [Int.add_comm]
  | some e =>
    simp only [Option.toList_some, Option.elim_some, List.map_cons,
      List.map_nil, List.sum_singleton]
    omega

theorem Tracks.size_step {capacity : Nat} {past : List Key} (h : Tracks capacity past t) {old : Int}
    (step : Step t key old t' out) : t'.size = min capacity (past ++ [key]).toFinset.card := by
  have hsize := h.size_eq
  have hcapacity := h.capacity_eq
  rw [toFinset_append_singleton, (step.matched h.toSound).size_eq]
  cases step with
  | raised tracked fits =>
    obtain ⟨rest, hbefore, hafter⟩ := h.matched.residents_move_of_tracked tracked (old + 1)
    have hmem : key ∈ past.toFinset := List.mem_toFinset.mpr (h.seen key old tracked)
    rw [Finset.card_insert_of_mem hmem, ← hsize, h.matched.size_eq, hbefore.length_eq,
      hafter.length_eq]
    rfl
  | admitted untracked room =>
    -- while there is room, a key without a counter is a new one
    have hfloor := h.untracked key untracked
    rw [floor_of_lt room] at hfloor
    have hnew : key ∉ past.toFinset := by
      rw [List.mem_toFinset, ← List.count_eq_zero]
      omega
    rw [Finset.card_insert_of_notMem hnew,
      (h.matched.residents_move_of_untracked untracked 0 1).length_eq, List.length_cons,
      ← h.matched.size_eq]
    omega
  | @tookOver victim untracked full least fits =>
    have hmem := mem_of_min? least
    have hdropped : (t.drop victim).counts[key]? = none := by
      rw [getElem?_drop, untracked, ite_self]
    have hcard := Finset.card_le_card (Finset.subset_insert key past.toFinset)
    have hlength := (residents_drop hmem).length_eq
    rw [((h.matched.drop hmem).residents_move_of_untracked hdropped _ _).length_eq,
      List.length_cons]
    rw [List.length_cons, ← h.matched.size_eq] at hlength
    omega

/-- **One insert keeps a table in step with the keys that led to it.** -/
theorem Tracks.step {capacity : Nat} {past : List Key} (h : Tracks capacity past t) {old : Int}
    (step : Step t key old t' out) : Tracks capacity (past ++ [key]) t' := by
  have hs := h.toSound
  have hold := h.old_bounds step
  have hfloor := step.floor_le_floor hs
  refine { hs.step step with
    capacity_eq := step.capacity_eq.trans h.capacity_eq, total := ?_, size_eq := h.size_step step,
    seen := ?_, tracked := ?_, untracked := ?_ }
  · rw [step.sum_eq hs, h.total, List.length_append]
    rfl
  · intro other count hcount
    by_cases hk : key = other
    · simp [hk]
    · rcases step.getElem?_other hs hk with heq | ⟨hnone, -⟩
      · exact List.mem_append_left _ (h.seen other count (heq ▸ hcount))
      · exact nomatch hnone.symm.trans hcount
  · intro other count hcount
    rw [count_append_singleton]
    by_cases hk : key = other
    · subst hk
      obtain rfl := Option.some.inj (step.getElem?_self.symm.trans hcount)
      rw [if_pos rfl]
      omega
    · rcases step.getElem?_other hs hk with heq | ⟨hnone, -⟩
      · have := h.tracked other count (heq ▸ hcount)
        rw [if_neg hk]
        omega
      · exact nomatch hnone.symm.trans hcount
  · intro other hcount
    have hk : key ≠ other := by
      rintro rfl
      exact nomatch step.getElem?_self.symm.trans hcount
    rw [count_append_singleton, if_neg hk]
    rcases step.getElem?_other hs hk with heq | ⟨-, hleast⟩
    · have := h.untracked other (heq ▸ hcount)
      omega
    · -- the key has just lost the least counter
      have := (h.tracked other _ hleast).1
      omega

theorem Tracks.feed {capacity : Nat} {past keys : List Key} (h : Tracks capacity past t)
    (run : Tracker.feed t keys = .ok t') : Tracks capacity (past ++ keys) t' := by
  refine @Checked.past_foldlM _ _ _ (Tracks capacity) (fun _ => True) _ ?_ past keys t t' h
    (fun _ _ => trivial) run
  intro past t t' key h _ hi
  obtain ⟨⟨after, out⟩, hinsert, rfl⟩ := Checked.map_eq_ok.mp hi
  obtain ⟨old, step⟩ := h.toSound.step_of_insert hinsert
  exact h.step step

/-- An insert has a value as long as fewer keys were inserted than a count can hold. -/
theorem Tracks.exists_step {capacity : Nat} {past : List Key} (h : Tracks capacity past t)
    (key : Key) (hn : (past.length : Int) + 1 ≤ Count.greatest) :
    ∃ old t' out, t.insert key = .ok (t', out) ∧ Step t key old t' out := by
  -- the counts add up to the number of inserts, so none of them passes it
  have hle : ∀ e ∈ t.residents, e.count + 1 ≤ Count.greatest := by
    intro e he
    have hsum : e.count ≤ (t.residents.map (·.count)).sum :=
      List.single_le_sum (fun c hc => by
        obtain ⟨f, hf, rfl⟩ := List.mem_map.mp hc
        have := h.positive f hf
        omega) _ (List.mem_map.mpr ⟨e, he, rfl⟩)
    rw [h.total] at hsum
    omega
  obtain ⟨t', out, hi⟩ := h.toSound.exists_insert key hle
  obtain ⟨old, step⟩ := h.toSound.step_of_insert hi
  exact ⟨old, t', out, hi, step⟩

/-- A run has a value, and the table it leads to tracks all the keys. -/
theorem Tracks.exists_insertAll {capacity : Nat} {past keys : List Key} (h : Tracks capacity past t)
    (hn : ((past.length + keys.length : Nat) : Int) ≤ Count.greatest) :
    ∃ t' outs, Tracker.insertAll t keys = .ok (t', outs) ∧ Tracks capacity (past ++ keys) t' := by
  induction keys generalizing past t with
  | nil => exact ⟨t, [], rfl, by rwa [List.append_nil]⟩
  | cons key keys ih =>
    rw [List.length_cons] at hn
    obtain ⟨old, t₁, out, hi, step⟩ := h.exists_step key (by omega)
    obtain ⟨t', outs, run, h'⟩ := ih (h.step step) (by
      rw [List.length_append, List.length_singleton]
      omega)
    refine ⟨t', out :: outs, ?_, by rwa [List.append_assoc] at h'⟩
    exact Tracker.insertAll_cons_eq_ok.mpr ⟨t₁, out, outs, hi, run, rfl⟩

/-! ## The guarantees -/

/-- What a table of `capacity` counters promises about the keys that were inserted into it. -/
structure Guarantees (capacity : Nat) (keys : List Key) (t : SpaceSaving) : Prop where
  /-- The ordered set and the map hold the same counters. -/
  matched : t.Matched
  size_order : t.order.size = min capacity keys.toFinset.card
  size_counts : t.counts.size = min capacity keys.toFinset.card
  total : (t.residents.map (·.count)).sum = keys.length
  tracked : ∀ key ∈ t.counts, keys.count key ≤ t.query key ∧ t.query key ≤ keys.count key + t.floor
  untracked : ∀ key ∉ t.counts, t.query key = 0 ∧ keys.count key ≤ t.floor
  /-- The least count is at most the mean of all counters. -/
  floor_mul_le : t.floor * capacity ≤ keys.length
  mem_of_heavy : ∀ key, keys.length < keys.count key * capacity → key ∈ t.counts
  /-- As long as a count can hold the number of keys, the next insert has a value.
  It carries a unit out just if the key has no counter and there is no free one, and
  this unit is the least counter. -/
  next : (keys.length : Int) < Count.greatest → ∀ key, ∃ t' out, t.insert key = .ok (t', out) ∧
    (out = none ↔ key ∈ t.counts ∨ t.counts.size < capacity) ∧
    ∀ victim ∈ out, victim ∈ t.order ∧ ∀ e ∈ t.order,
      victim.count < e.count ∨ victim.count = e.count ∧ victim.key ≤ e.key

theorem mem_counts_iff : key ∈ t.counts ↔ ∃ count, t.counts[key]? = some count := by
  rw [Std.TreeMap.mem_iff_isSome_getElem?, Option.isSome_iff_exists]

theorem not_mem_counts_iff : key ∉ t.counts ↔ t.counts[key]? = none := by
  rw [Std.TreeMap.mem_iff_isSome_getElem?, Option.not_isSome_iff_eq_none]

theorem query_of_tracked {count : Int} (tracked : t.counts[key]? = some count) :
    t.query key = count := by
  rw [query, Std.TreeMap.getD_eq_getD_getElem?, tracked, Option.getD_some]

theorem query_of_untracked (untracked : t.counts[key]? = none) : t.query key = 0 := by
  rw [query, Std.TreeMap.getD_eq_getD_getElem?, untracked, Option.getD_none]

theorem Sound.floor_mul_length_le (h : t.Sound) :
    t.floor * t.residents.length ≤ (t.residents.map (·.count)).sum := by
  have hle : ∀ c ∈ t.residents.map (·.count), t.floor ≤ c := by
    intro c hc
    obtain ⟨e, he, rfl⟩ := List.mem_map.mp hc
    exact h.floor_le he
  have := List.card_nsmul_le_sum _ _ hle
  rw [List.length_map, Int.nsmul_eq_mul] at this
  rwa [Int.mul_comm]

theorem Tracks.floor_mul_le {capacity : Nat} {keys : List Key} (h : Tracks capacity keys t) :
    t.floor * capacity ≤ keys.length := by
  by_cases room : t.size < t.capacity
  · rw [floor_of_lt room, Int.zero_mul]
    exact Int.natCast_nonneg _
  · have hsize := h.size_eq
    have hcapacity := h.capacity_eq
    have hlength : t.residents.length = capacity := by
      rw [← h.matched.size_eq]
      omega
    have := h.floor_mul_length_le
    rwa [h.total, hlength] at this

/-- What the next insert carries out. -/
theorem Step.out_eq_none_iff {old : Int} (step : Step t key old t' out) :
    out = none ↔ key ∈ t.counts ∨ t.size < t.capacity := by
  cases step with
  | raised tracked fits => simp [mem_counts_iff.mpr ⟨_, tracked⟩]
  | admitted untracked room => simp [room]
  | tookOver untracked full least fits =>
    have := not_mem_counts_iff.mpr untracked
    simp only [reduceCtorEq, this, false_or, false_iff]
    omega

theorem Step.out_least {old : Int} (step : Step t key old t' out) : ∀ victim ∈ out,
    victim ∈ t.order ∧ ∀ e ∈ t.order,
      victim.count < e.count ∨ victim.count = e.count ∧ victim.key ≤ e.key := by
  intro victim hv
  cases step with
  | raised => cases hv
  | admitted => cases hv
  | tookOver untracked full least fits =>
    cases hv
    obtain ⟨hmem, hle⟩ := Std.TreeSet.min?_eq_some_iff_mem_and_forall.mp least
    exact ⟨hmem, fun e he => Entry.sizeCompare_isLE_iff.mp (hle e he)⟩

theorem Tracks.guarantees {capacity : Nat} {keys : List Key} (h : Tracks capacity keys t) :
    Guarantees capacity keys t where
  matched := h.matched
  size_order := by rw [← Std.TreeSet.length_toList, ← h.size_eq, h.matched.size_eq, residents]
  size_counts := h.size_eq
  total := h.total
  tracked key hkey := by
    obtain ⟨count, hcount⟩ := mem_counts_iff.mp hkey
    rw [query_of_tracked hcount]
    exact h.tracked key count hcount
  untracked key hkey := by
    have hcount := not_mem_counts_iff.mp hkey
    exact ⟨query_of_untracked hcount, h.untracked key hcount⟩
  floor_mul_le := h.floor_mul_le
  mem_of_heavy key hheavy := by
    by_contra hkey
    have hle := h.untracked key (not_mem_counts_iff.mp hkey)
    have hmul := Int.mul_le_mul_of_nonneg_right hle (Int.natCast_nonneg capacity)
    have hlt := Int.ofNat_lt.mpr hheavy
    rw [Int.natCast_mul] at hlt
    have := h.floor_mul_le
    omega
  next hn key := by
    obtain ⟨old, t', out, hi, step⟩ := h.exists_step key (by omega)
    exact ⟨t', out, hi, h.capacity_eq ▸ step.out_eq_none_iff, step.out_least⟩

/-- **Space-Saving keeps its promises**: no run of as many keys as a count can hold faults, and what
it leads to guarantees the bounds on every count. -/
theorem guarantees_of_insertAll {capacity : Nat} {keys : List Key} (hc : 0 < capacity)
    (hn : (keys.length : Int) ≤ Count.greatest) : ∃ t outs,
      Tracker.insertAll (empty capacity) keys = .ok (t, outs) ∧ Guarantees capacity keys t := by
  have hn : (((([] : List Key).length + keys.length : Nat)) : Int) ≤ Count.greatest := by
    simpa using hn
  obtain ⟨t, outs, run, h⟩ := (tracks_empty hc).exists_insertAll hn
  exact ⟨t, outs, run, h.guarantees⟩

/-- A table of two counters, which has to give one up to a third key and another one to the key that
lost it. -/
theorem guarantees_of_insertAll_two_counters : ∃ t outs,
    Tracker.insertAll (empty 2) [7, 7, 1, 2, 1, 1] = .ok (t, outs) ∧
      outs = [none, none, none, some ⟨1, 1⟩, some ⟨2, 2⟩, none] ∧
      Guarantees 2 [7, 7, 1, 2, 1, 1] t := by
  have hrun : ((fun (_, outs) => outs) <$> Tracker.insertAll (empty 2)
    [7, 7, 1, 2, 1, 1] : Checked _)
      = .ok [none, none, none, some ⟨1, 1⟩, some ⟨2, 2⟩, none] := by cbv
  obtain ⟨t, outs, run, h⟩ := @guarantees_of_insertAll 2 [7, 7, 1, 2, 1, 1] (by decide) (by decide)
  rw [run] at hrun
  exact ⟨t, outs, run, Except.ok.inj hrun, h⟩

end SpaceSaving

end HeavyHitters
