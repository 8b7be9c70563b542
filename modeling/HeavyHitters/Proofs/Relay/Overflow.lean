import HeavyHitters.Proofs.Estimator.CountMin
import HeavyHitters.Proofs.Relay
import HeavyHitters.Proofs.Tracker.SpaceSaving.Guarantees
import Mathlib.Algebra.BigOperators.Intervals

/-!
# How much weight Space-Saving hands over

A counter that is taken over leaves the table with its whole count, and the new key goes on from
that count, so the same weight may be handed over again and again.  What leaves a table of `c`
counters after `n` keys is the least count, at most `n / c`, and just that if all keys are
different.  So the weight handed over grows with the square of the number of keys, and a counter
behind the table that all of it comes to overflows long before the number of keys does.

* `SpaceSaving.handedOver` is the sum of these means, and
  `SpaceSaving.Tracks.weightOf_outs` is the induction that bounds by it what a run hands
  over.  `SpaceSaving.Even` is what different keys keep a table.
* `CountMin.HasRoom` says that the counters of a sketch can hold some units, and
  `CountMin.Vacant.insertAll_cases` that this decides if a run has a value.
* `Relay.feed_of_insertAll` reads the run of a relay off those of its parts, and
  `Relay.Handover` is such a run.
* `Relay.feed_of_handedOver` is what follows for Space-Saving in front of a count-min sketch, and
  `Relay.exists_overflowing_feed` is a run that overflows.
-/

namespace HeavyHitters

open Finset

/-! ## The weight that a run hands over -/

namespace SpaceSaving

variable {capacity : Nat} {t t' : SpaceSaving} {past keys : List Key} {key : Key}
  {out : Option Entry} {outs : List (Option Entry)} {old : Int}

/-- The mean of `capacity` counters after each of some first keys, added up. -/
def handedOver (capacity keys : Nat) : Nat := ∑ index ∈ range keys, index / capacity

theorem handedOver_succ (capacity keys : Nat) :
    handedOver capacity (keys + 1) = handedOver capacity keys + keys / capacity :=
  sum_range_succ _ _

/-- A key that has no counter makes the table hand over the least count. -/
theorem Step.weightOf_out (h : t.Sound) (step : Step t key old t' out) :
    weightOf allKeys out.toList = if t.counts[key]? = none then t.floor else 0 := by
  cases step with
  | raised tracked fits =>
    rw [if_neg (by simp [tracked])]
    rfl
  | admitted untracked room =>
    rw [if_pos untracked, floor_of_lt room]
    rfl
  | @tookOver victim untracked full least fits =>
    rw [if_pos untracked, h.floor_eq full least]
    exact Int.add_zero victim.count

theorem Tracks.floor_le_div (h : Tracks capacity past t) :
    t.floor ≤ (past.length / capacity : Nat) := by
  have hpos := h.capacity_pos
  rw [h.capacity_eq] at hpos
  rw [Int.natCast_ediv]
  exact (Int.le_ediv_iff_mul_le (by omega)).mpr h.floor_mul_le

/-! ### Different keys -/

/-- No counter is further than one above the least count. -/
def Even (t : SpaceSaving) : Prop := ∀ e ∈ t.residents, e.count ≤ t.floor + 1

theorem even_of_residents_eq_nil (h : t.residents = []) : t.Even := by
  intro e he
  rw [h] at he
  cases he

/-- A new key leaves an even table even, as its counter goes on from the least count. -/
theorem Step.even (h : t.Sound) (heven : t.Even) (untracked : t.counts[key]? = none)
    (step : Step t key old t' out) : t'.Even := by
  have hfloor := step.floor_le_floor h
  intro e he
  rcases step.mem_residents h he with rfl | he
  · rcases step.old_cases h with tracked | ⟨-, rfl⟩
    · cases untracked.symm.trans tracked
    · dsimp only
      omega
  · have hle := heven e he
    omega

/-- The counters of an even table are not all above the least count, as one has it or is free. -/
theorem Sound.total_lt_of_even (h : t.Sound) (heven : t.Even) (hsize : t.size ≤ t.capacity) :
    (t.residents.map (·.count)).sum < (t.floor + 1) * t.capacity := by
  by_cases room : t.size < t.capacity
  · have hsum := List.sum_le_card_nsmul (t.residents.map (·.count)) (t.floor + 1)
      (List.forall_mem_map.mpr fun e he => heven e he)
    rw [List.length_map, ← h.matched.size_eq, floor_of_lt room, Int.nsmul_eq_mul] at hsum
    rw [floor_of_lt room]
    omega
  · have hfloor : t.floor = Count.leastOf (t.residents.map (·.count)) := if_neg room
    have hleast := Count.leastOf_mem (h.counts_ne_nil (Nat.le_of_not_lt room))
    rw [← hfloor] at hleast
    have hperm := List.perm_cons_erase hleast
    have hrest := List.sum_le_card_nsmul ((t.residents.map (·.count)).erase t.floor) (t.floor + 1)
        fun count hc => by
        obtain ⟨e, he, rfl⟩ := List.mem_map.mp (List.mem_of_mem_erase hc)
        exact heven e he
    have hlength := hperm.length_eq
    rw [List.length_map, ← h.matched.size_eq, List.length_cons] at hlength
    have hcapacity : t.capacity = t.size := by omega
    rw [hperm.sum_eq, List.sum_cons, hcapacity, hlength, Nat.cast_succ, mul_add, mul_one]
    rw [Int.nsmul_eq_mul, mul_comm] at hrest
    omega

/-- The least count of an even table is the mean. -/
theorem Tracks.floor_eq_div (h : Tracks capacity past t) (heven : t.Even) :
    t.floor = (past.length / capacity : Nat) := by
  have hpos := h.capacity_pos
  have hcapacity := h.capacity_eq
  have hsize := h.size_eq
  have hlt := h.toSound.total_lt_of_even heven (by omega)
  rw [h.total, hcapacity] at hlt
  have hdiv : ((past.length / capacity : Nat) : Int) < t.floor + 1 := by
    rw [Int.natCast_ediv]
    exact Int.ediv_lt_of_lt_mul (by omega) hlt
  exact Int.le_antisymm h.floor_le_div (by omega)

/-- **What a run hands over** is no more than the mean of the counters with each key, and just that
if the keys are new and different. -/
theorem Tracks.weightOf_outs (h : Tracks capacity past t)
    (run : Tracker.insertAll t keys = .ok (t', outs)) :
    weightOf allKeys outs.reduceOption + handedOver capacity past.length
        ≤ handedOver capacity (past.length + keys.length) ∧
      (t.Even → (past ++ keys).Nodup →
        weightOf allKeys outs.reduceOption + handedOver capacity past.length
        = handedOver capacity (past.length + keys.length)) := by
  induction keys generalizing past t outs with
  | nil =>
    cases run
    exact ⟨Int.le_of_eq (Int.zero_add _), fun _ _ => Int.zero_add _⟩
  | cons key keys ih =>
    obtain ⟨t₁, out, outs₁, hi, hr, rfl⟩ := Tracker.insertAll_cons_eq_ok.mp run
    obtain ⟨old, step⟩ := h.toSound.step_of_insert hi
    obtain ⟨hle, heq⟩ := ih (h.step step) hr
    have hout := step.weightOf_out h.toSound
    have hfloor := h.floor_le_div
    have hnonneg := h.toSound.floor_nonneg
    have hlength : (past ++ [key]).length = past.length + 1 := by simp
    have hsum : past.length + (key :: keys).length = past.length + 1 + keys.length := by
      rw [List.length_cons]
      omega
    rw [hlength, handedOver_succ, Nat.cast_add] at hle heq
    rw [weightOf_reduceOption_cons, hsum, hout]
    refine ⟨by split <;> omega, fun heven hnodup => ?_⟩
    rw [List.append_cons] at hnodup
    have hnew : key ∉ past := fun hmem =>
      (List.nodup_append.mp hnodup.of_append_left).2.2 key hmem key (by simp) rfl
    have huntracked : t.counts[key]? = none :=
      Option.eq_none_iff_forall_ne_some.mpr fun count hcount =>
      hnew (h.seen key count hcount)
    rw [if_pos huntracked, h.floor_eq_div heven]
    have := heq (step.even h.toSound heven huntracked) hnodup
    omega

end SpaceSaving

/-! ## The weight that the counters can hold -/

namespace CountMin

variable {start : CountMin} {past units : List Entry} {unit : Entry}

/-- No counter gets more weight of some units than it can hold. -/
def HasRoom (s : CountMin) (units : List Entry) : Prop :=
  ∀ row ∈ s.rows, ∀ key, weightOf (row.shares key) units ≤ Count.greatest

theorem HasRoom.of_append (h : start.HasRoom (past ++ units)) (hunits : ∀ u ∈ units, 0 ≤ u.count) :
    start.HasRoom past := by
  intro row hr key
  have hle := h row hr key
  have hmore : 0 ≤ weightOf (row.shares key) units := weightOf_nonneg hunits
  rw [weightOf_append] at hle
  omega

/-- A sketch takes a unit in if its counters have room for it, and else a sum overflows. -/
theorem Vacant.insert_cases (h : start.Vacant) (hpos : ∀ u ∈ past ++ [unit], 0 ≤ u.count)
    (hroom : start.HasRoom past) : start.HasRoom (past ++ [unit]) ∧
        (start.totals past).insert unit.key unit.count = .ok (start.totals (past ++ [unit])) ∨
      ¬start.HasRoom (past ++ [unit]) ∧
        (start.totals past).insert unit.key unit.count = .error (.overflow .add) := by
  have hsum : ∀ row ∈ start.rows, weightOf (row.shares unit.key) (past ++ [unit])
      = weightOf (row.shares unit.key) past + unit.count := fun row _ => by
    rw [weightOf_append_singleton, if_pos (by simp [Row.shares])]
  have hok : ∀ row ∈ start.rows, weightOf (row.shares unit.key) (past ++ [unit]) ≤ Count.greatest →
      (row.totals past).update unit.key (Count.plus · unit.count)
        = .ok (row.totals (past ++ [unit])) := by
    intro row hr hle
    have hnonneg : 0 ≤ weightOf (row.shares unit.key) (past ++ [unit]) := weightOf_nonneg hpos
    rw [hsum row hr] at hle hnonneg
    refine (Row.update_totals_eq_ok_iff (h.rows_vacant row hr).length_pos).mpr ⟨?_, rfl⟩
    exact Count.fits_of_bounds (by unfold Count.greatest; omega) hle
  have herror : ∀ row ∈ start.rows,
    Count.greatest < weightOf (row.shares unit.key) (past ++ [unit]) →
      (row.totals past).update unit.key (Count.plus · unit.count) = .error (.overflow .add) := by
    intro row hr hlt
    rw [hsum row hr] at hlt
    exact Row.update_totals_eq_error (h.rows_vacant row hr).length_pos hlt
  rw [insert, totals, List.mapM_map]
  by_cases hnext : start.HasRoom (past ++ [unit])
  · refine .inl ⟨hnext, ?_⟩
    have hrows := Checked.mapM_eq_ok_map fun row hr => hok row hr (hnext row hr unit.key)
    exact Checked.bind_eq_ok.mpr ⟨_, hrows, rfl⟩
  · refine .inr ⟨hnext, ?_⟩
    refine congrArg (· >>= fun rows => pure (⟨rows⟩ : CountMin))
      (Checked.mapM_eq_error (fun row hr => ?each) ?full)
    case each =>
      by_cases hle : weightOf (row.shares unit.key) (past ++ [unit]) ≤ Count.greatest
      · exact .inl ⟨_, hok row hr hle⟩
      · exact .inr (herror row hr (Int.not_le.mp hle))
    case full =>
      unfold HasRoom at hnext
      push Not at hnext
      obtain ⟨row, hr, key, hlt⟩ := hnext
      -- the counter that is too small for the units is the one that the last of them comes to
      have hshare : row.position unit.key = row.position key := by
        by_contra hne
        rw [weightOf_append_singleton, if_neg (by simpa [Row.shares] using hne),
          Int.add_zero] at hlt
        exact absurd (hroom row hr key) (Int.not_le.mpr hlt)
      have hsame : row.shares unit.key = row.shares key := by
        funext other
        simp only [Row.shares, hshare]
      exact ⟨row, hr, herror row hr (hsame ▸ hlt)⟩

/-- **A run of a sketch has a value just if no counter gets more than it can hold.** -/
theorem Vacant.insertAll_cases (h : start.Vacant) (hpos : ∀ u ∈ past ++ units, 0 ≤ u.count)
    (hroom : start.HasRoom past) :
    start.HasRoom (past ++ units) ∧
        Estimator.insertAll (start.totals past) units = .ok (start.totals (past ++ units)) ∨
      ¬start.HasRoom (past ++ units) ∧
      Estimator.insertAll (start.totals past) units = .error (.overflow .add) := by
  induction units generalizing past with
  | nil =>
    rw [List.append_nil]
    exact .inl ⟨hroom, rfl⟩
  | cons unit units ih =>
    rw [List.append_cons] at hpos ⊢
    rw [Estimator.insertAll_cons]
    have hrest : ∀ u ∈ units, 0 ≤ u.count := fun u hu => hpos u (List.mem_append_right _ hu)
    rcases h.insert_cases (fun u hu => hpos u (List.mem_append_left _ hu)) hroom
      with ⟨hnext, hi⟩ | ⟨hfull, hi⟩
    · rw [show Estimator.insert (start.totals past) unit.key unit.count = _ from hi]
      exact ih hpos hnext
    · rw [show Estimator.insert (start.totals past) unit.key unit.count = _ from hi]
      exact .inr ⟨fun hall => hfull (hall.of_append hrest), rfl⟩

end CountMin

/-! ## Relays -/

namespace Relay

/-- Once the tracker of a relay has taken keys in, its estimator decides if the relay has. -/
theorem feed_of_insertAll {τ ε : Type} [Tracker τ] [Estimator ε] {r : Relay τ ε}
    {t : τ} {keys : List Key} {outs : List (Option Entry)}
    (run : Tracker.insertAll r.tracker keys = .ok (t, outs)) :
    r.feed keys = (⟨t, ·, r.forwarded + weightOf allKeys outs.reduceOption⟩) <$>
      Estimator.insertAll r.estimator outs.reduceOption := by
  obtain ⟨tracker, estimator, forwarded⟩ := r
  induction keys generalizing tracker estimator forwarded outs with
  | nil =>
    cases run
    show (Except.ok ⟨tracker, estimator, forwarded⟩ : Checked (Relay τ ε))
      = .ok ⟨tracker, estimator, forwarded + 0⟩
    rw [Int.add_zero]
  | cons key keys ih =>
    obtain ⟨t₁, out, outs₁, hi, hr, rfl⟩ := Tracker.insertAll_cons_eq_ok.mp run
    rw [feed, List.foldlM_cons, insert, hi]
    cases out with
    | none =>
      rw [List.reduceOption_cons_of_none]
      exact ih _ _ _ hr
    | some unit =>
      rw [List.reduceOption_cons_of_some, Estimator.insertAll_cons, weightOf_cons, ← Int.add_assoc]
      cases he : Estimator.insert estimator unit.key unit.count with
      | error fault => simp [bind, Except.bind, he, Functor.map, Except.map]
      | ok estimator₁ =>
        simp only [bind, Except.bind, he]
        exact ih _ _ _ hr

section SpaceSavingCountMin

open SpaceSaving (handedOver)

variable {tracker t : SpaceSaving} {estimator : CountMin} {keys : List Key}
  {outs : List (Option Entry)}

/-- With one counter in each row, that counter gets all that is handed over. -/
theorem not_hasRoom_of_lt (h : estimator.Vacant) (hone : ∀ row ∈ estimator.rows, row.length = 1)
    {units : List Entry} (hlt : Count.greatest < weightOf allKeys units) :
    ¬estimator.HasRoom units := by
  intro hroom
  obtain ⟨row, hr⟩ := List.exists_mem_of_ne_nil _ h.rows_ne_nil
  have hshares : row.shares 0 = allKeys := by
    funext other
    simp [Row.shares, Row.position, hone row hr, Nat.mod_one, allKeys]
  have hle := hroom row hr 0
  rw [hshares] at hle
  omega

/-- A query adds a tracked count to no more than what was handed over. -/
theorem exists_query_of_total_le (h : estimator.Vacant) {past : List Key}
    {capacity : Nat} {forwarded : Int} {units : List Entry}
    (ht : SpaceSaving.Tracks capacity past t) (hunits : ∀ u ∈ units, 0 ≤ u.count)
    (hle : weightOf allKeys units + past.length ≤ Count.greatest) (key : Key) :
    ∃ answer, (⟨t, estimator.totals units, forwarded⟩ : Relay SpaceSaving CountMin).query
      key = .ok answer := by
  obtain ⟨hge, hbound⟩ := h.bounds hunits key
  have hnonneg : 0 ≤ weightOf (· == key) units := weightOf_nonneg hunits
  have htracked : 0 ≤ t.query key ∧ t.query key ≤ past.length := by
    rw [← ht.toSound.weightOf_residents key, ← ht.total, ← weightOf_allKeys]
    have hpos : ∀ e ∈ t.residents, 0 ≤ e.count := fun e he => by
      have := ht.positive e he
      omega
    exact ⟨weightOf_nonneg hpos, weightOf_le_all hpos⟩
  have hfits : Count.Fits (t.query key + Count.leastOf (estimator.bucketWeights units key)) :=
    Count.fits_of_bounds (by unfold Count.greatest; omega) (by omega)
  refine ⟨t.query key + Count.leastOf (estimator.bucketWeights units key), ?_⟩
  rw [query_eq_plus (show Tracker.query t key = .ok (t.query key) from rfl)
    (h.query_totals units key)]
  exact Outcome.ofChecked_eq_ok.mpr (Count.narrow_of_fits hfits)

/-- A run of a relay told by what its table hands over. -/
structure Handover (tracker : SpaceSaving) (estimator : CountMin)
    (keys : List Key) (t : SpaceSaving) (outs : List (Option Entry)) : Prop where
  run : Tracker.insertAll tracker keys = .ok (t, outs)
  tracks : SpaceSaving.Tracks tracker.capacity keys t
  nonneg : ∀ unit ∈ outs.reduceOption, 0 ≤ unit.count
  total_le : weightOf allKeys outs.reduceOption ≤ handedOver tracker.capacity keys.length
  total_eq : keys.Nodup →
    weightOf allKeys outs.reduceOption = handedOver tracker.capacity keys.length
  feed_of_room : estimator.HasRoom outs.reduceOption → (ofParts tracker estimator).feed keys
    = .ok ⟨t, estimator.totals outs.reduceOption, weightOf allKeys outs.reduceOption⟩
  feed_of_not_room : ¬estimator.HasRoom outs.reduceOption →
    (ofParts tracker estimator).feed keys = .error (.overflow .add)

theorem exists_handover {memory : Nat} (built : SpaceSaving.ofBudget memory = .ok tracker)
    (h : estimator.Vacant) (hlength : (keys.length : Int) ≤ Count.greatest) :
    ∃ t outs, Handover tracker estimator keys t outs := by
  obtain ⟨hsound, hempty⟩ := SpaceSaving.fresh_of_ofBudget built
  have hstart := SpaceSaving.tracks_of_ofBudget built
  rw [← hstart.capacity_eq] at hstart
  have hcount : ((([] : List Key).length + keys.length : Nat) : Int) ≤ Count.greatest := by
    simpa using hlength
  obtain ⟨t, outs, run, ht⟩ := hstart.exists_insertAll hcount
  obtain ⟨hle, heq⟩ := hstart.weightOf_outs run
  have hnone : (handedOver tracker.capacity 0 : Int) = 0 := rfl
  simp only [List.length_nil, Nat.zero_add, List.nil_append, hnone, Int.add_zero] at hle heq ht
  have hpos : ∀ unit ∈ outs.reduceOption, 0 ≤ unit.count := fun unit hu =>
    Int.le_trans (by decide) (SpaceSaving.retains.outs_positive hsound run unit hu)
  have hfeed : (ofParts tracker estimator).feed keys
    = (⟨t, ·, 0 + weightOf allKeys outs.reduceOption⟩) <$>
      Estimator.insertAll estimator outs.reduceOption := feed_of_insertAll run
  have hnothing : estimator.HasRoom [] := fun row _ key => by
    rw [weightOf_nil]
    decide
  have hcases := @CountMin.Vacant.insertAll_cases estimator [] outs.reduceOption h hpos hnothing
  rw [List.nil_append, h.totals_nil] at hcases
  rw [Int.zero_add] at hfeed
  refine ⟨t, outs, run, ht, hpos, hle, heq (SpaceSaving.even_of_residents_eq_nil hempty),
    fun hroom => ?_, fun hfull => ?_⟩
  · rw [hfeed, (hcases.resolve_right fun hc => hc.1 hroom).2]
    rfl
  · rw [hfeed, (hcases.resolve_left fun hc => hfull hc.1).2]
    rfl

/-- Different keys whose means cannot be counted together overflow a single counter. -/
theorem Handover.feed_of_lt (h : Handover tracker estimator keys t outs)
    (hvacant : estimator.Vacant) (hnodup : keys.Nodup)
    (hone : ∀ row ∈ estimator.rows, row.length = 1)
    (hover : Count.greatest < (handedOver tracker.capacity keys.length : Int)) :
    (ofParts tracker estimator).feed keys = .error (.overflow .add) := by
  refine h.feed_of_not_room (not_hasRoom_of_lt hvacant hone ?_)
  rwa [h.total_eq hnodup]

/--
**Space-Saving in front of a count-min sketch overflows just if a counter gets more than it can
hold.**  A run has no such counter if the means of the counters in the table, one for each key, can
be counted together; then its queries have values too, as far as the number of keys can be added.
Where a row is one counter and the keys are all different, that is also the limit.
-/
theorem feed_of_handedOver (memory budget rows width : Nat) (seed : UInt64) (tracker : SpaceSaving)
    (estimator : CountMin) (builtTracker : SpaceSaving.ofBudget memory = .ok tracker)
    (builtEstimator : CountMin.ofBudget budget rows width seed = .ok estimator) (keys : List Key)
    (hlength : (keys.length : Int) ≤ Count.greatest) :
    (∃ t outs, Tracker.insertAll tracker keys = .ok (t, outs) ∧
      (estimator.HasRoom outs.reduceOption ∧ (∃ r, (ofParts tracker estimator).feed keys = .ok r) ∨
        ¬estimator.HasRoom outs.reduceOption ∧
          (ofParts tracker estimator).feed keys = .error (.overflow .add))) ∧
    ((handedOver tracker.capacity keys.length : Int) ≤ Count.greatest →
      ∃ r, (ofParts tracker estimator).feed keys = .ok r ∧
        r.forwarded ≤ (handedOver tracker.capacity keys.length : Int) ∧
        ((handedOver tracker.capacity keys.length : Int) + keys.length ≤ Count.greatest →
          ∀ key, ∃ answer, r.query key = .ok answer)) ∧
    (keys.Nodup → (∀ row ∈ estimator.rows, row.length = 1) →
      Count.greatest < (handedOver tracker.capacity keys.length : Int) →
      (ofParts tracker estimator).feed keys = .error (.overflow .add)) := by
  have hvacant := CountMin.vacant_of_ofBudget builtEstimator
  obtain ⟨t, outs, h⟩ := exists_handover builtTracker hvacant hlength
  refine ⟨⟨t, outs, h.run, ?cases⟩, fun hmeans => ?below, h.feed_of_lt hvacant⟩
  case cases =>
    by_cases hroom : estimator.HasRoom outs.reduceOption
    · exact .inl ⟨hroom, _, h.feed_of_room hroom⟩
    · exact .inr ⟨hroom, h.feed_of_not_room hroom⟩
  case below =>
    have hroom : estimator.HasRoom outs.reduceOption := fun row _ key =>
      Int.le_trans (weightOf_le_all h.nonneg) (Int.le_trans h.total_le hmeans)
    refine ⟨_, h.feed_of_room hroom, h.total_le, fun hsum key => ?_⟩
    have htotal := h.total_le
    exact exists_query_of_total_le hvacant h.tracks h.nonneg (by omega) key

/-- Two counters in front of a single one, which gets 1, 1, 2, 2 and 3 of seven different keys. -/
theorem feed_of_handedOver_two_counters :
    ∃ tracker estimator r, SpaceSaving.ofBudget 16 = .ok tracker ∧
    CountMin.ofBudget 4 1 4 1 = .ok estimator ∧
    (([1, 2, 3, 4, 5, 6, 7] : List Key).length : Int) ≤ Count.greatest ∧
    (handedOver tracker.capacity 7 : Int) + 7 ≤ Count.greatest ∧
    (ofParts tracker estimator).feed [1, 2, 3, 4, 5, 6, 7] = .ok r ∧ r.forwarded ≤ 9 ∧
    ∃ answer, r.query 3 = .ok answer := by
  have hbuilt : (do return (← SpaceSaving.ofBudget 16).capacity : Outcome Nat) = .ok 2 := by
    decide +kernel
  obtain ⟨tracker, builtTracker, hcapacity⟩ := Checked.bind_eq_ok.mp hbuilt
  obtain hcapacity : tracker.capacity = 2 := Checked.pure_eq_ok.mp hcapacity
  have hbuilt : (do return (← CountMin.ofBudget 4 1 4 1).width : Outcome Nat) = .ok 1 := by
    decide +kernel
  obtain ⟨estimator, builtEstimator, -⟩ := Checked.bind_eq_ok.mp hbuilt
  have hmeans : (handedOver tracker.capacity 7 : Int) = 9 := by
    rw [hcapacity]
    decide
  have hroom : (handedOver tracker.capacity 7 : Int) + 7 ≤ Count.greatest := by
    rw [hmeans]
    decide
  obtain ⟨-, below, -⟩ :=
    feed_of_handedOver 16 4 1 4 1 tracker estimator builtTracker builtEstimator
    [1, 2, 3, 4, 5, 6, 7] (by decide)
  simp only [List.length_cons, List.length_nil, Nat.zero_add, Nat.reduceAdd, hmeans] at below
  obtain ⟨r, run, hforwarded, hquery⟩ := below (by decide)
  exact ⟨tracker, estimator, r, builtTracker, builtEstimator, by decide, hroom, run, hforwarded,
    hquery (by decide) 3⟩

theorem handedOver_one (keys : Nat) : handedOver 1 keys = keys * (keys - 1) / 2 := by
  simp [handedOver, sum_range_id]

/-- **Little more than 2^16 different keys overflow** a single counter behind a single counter, as
the weight handed over grows with the square of their number. -/
theorem exists_overflowing_feed : ∃ tracker estimator, SpaceSaving.ofBudget 8 = .ok tracker ∧
    CountMin.ofBudget 4 1 4 1 = .ok estimator ∧
    (((List.range 65537).map UInt32.ofNat).length : Int) ≤ Count.greatest ∧
    (ofParts tracker estimator).feed ((List.range 65537).map UInt32.ofNat)
      = .error (.overflow .add) := by
  have hbuilt : (do return (← SpaceSaving.ofBudget 8).capacity : Outcome Nat) = .ok 1 := by
    decide +kernel
  obtain ⟨tracker, builtTracker, hcapacity⟩ := Checked.bind_eq_ok.mp hbuilt
  obtain hcapacity : tracker.capacity = 1 := Checked.pure_eq_ok.mp hcapacity
  have hbuilt : (do return (← CountMin.ofBudget 4 1 4 1).rows.map Row.length : Outcome (List Nat))
      = .ok [1] := by
    decide +kernel
  obtain ⟨estimator, builtEstimator, hrows⟩ := Checked.bind_eq_ok.mp hbuilt
  obtain hrows : estimator.rows.map Row.length = [1] := Checked.pure_eq_ok.mp hrows
  have hlength : ((List.range 65537).map UInt32.ofNat).length = 65537 := by simp
  have hnodup : ((List.range 65537).map UInt32.ofNat).Nodup := by
    refine List.nodup_range.map_on fun a ha b hb heq => ?_
    have := congrArg UInt32.toNat heq
    rwa [UInt32.toNat_ofNat_of_lt' (Nat.lt_trans (List.mem_range.mp ha) (by decide)),
      UInt32.toNat_ofNat_of_lt' (Nat.lt_trans (List.mem_range.mp hb) (by decide))] at this
  have hone : ∀ row ∈ estimator.rows, row.length = 1 := fun row hr =>
    List.mem_singleton.mp (hrows ▸ List.mem_map_of_mem hr)
  have hcount : (((List.range 65537).map UInt32.ofNat).length : Int) ≤ Count.greatest := by
    rw [hlength]
    decide
  have hvacant := CountMin.vacant_of_ofBudget builtEstimator
  obtain ⟨t, outs, h⟩ := exists_handover builtTracker hvacant hcount
  refine ⟨tracker, estimator, builtTracker, builtEstimator, hcount,
    h.feed_of_lt hvacant hnodup hone ?_⟩
  rw [hlength, hcapacity, handedOver_one]
  decide

end SpaceSavingCountMin

end Relay

end HeavyHitters
