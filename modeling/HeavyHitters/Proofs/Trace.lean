import HeavyHitters.Proofs.Ranking
import HeavyHitters.Trace

/-!
# Traces and the sizes of their flows

A trace is its packets and, for each flow, the number of its packets.  There is one for every
sequence of keys that is not empty, unless a flow has more packets than a count can hold.

* `packetUnits` are the packets as units of weight, so that numbers of packets are weights.
* `Trace.Counts` is what a trace is to its keys, and `Trace.ofKeys_cases` says when there is one.
* `Trace.Counts.weightOf_records` says that the records of the flows weigh what the packets weigh.
-/

namespace HeavyHitters

/-! ## Packets as units -/

/-- One unit for each packet. -/
def packetUnits (keys : List Key) : List Entry := keys.map (⟨·, 1⟩)

theorem weightOf_packetUnits (select : Key → Bool) (keys : List Key) :
    weightOf select (packetUnits keys) = keys.countP select := by
  induction keys with
  | nil => rfl
  | cons key keys ih =>
    rw [packetUnits, List.map_cons, weightOf_cons, ← packetUnits, ih, List.countP_cons]
    dsimp only
    split <;> omega

theorem exists_mem_packetUnits_iff {keys : List Key} {P : Key → Prop} :
    (∃ unit ∈ packetUnits keys, P unit.key) ↔ ∃ key ∈ keys, P key := by
  simp [packetUnits]

theorem count_of_mem_packetUnits {keys : List Key} {unit : Entry} (h : unit ∈ packetUnits keys) :
    unit.count = 1 := by
  obtain ⟨key, -, rfl⟩ := List.mem_map.mp h
  rfl

/-! ## Traces of keys -/

namespace Trace

/-- The packets of a trace are these, and its flows have been counted. -/
structure Counts (keys : List Key) (t : Trace) : Prop where
  keys_eq : t.keys.toList = keys
  sums : t.counts.Sums id (packetUnits keys)
  fits : ∀ key, (keys.count key : Int) ≤ Count.greatest

variable {keys : Array Key} {t : Trace}

/-- A trace has the tally of its packets as units. -/
theorem ofKeys_eq (hne : keys.toList ≠ []) : ofKeys keys = Trace.mk keys <$> Outcome.ofChecked
    (Tally.ofRecords ((packetUnits keys.toList).map fun unit => ⟨id unit.key, unit.count⟩)) := by
  have hsome : keys.isEmpty = false := by simpa [Array.isEmpty_iff] using hne
  unfold ofKeys
  rw [hsome, map_record_id]
  rfl

theorem ofKeys_of_empty (h : keys.toList = []) : ofKeys keys = refuse .emptyTrace := by
  have hempty : keys.isEmpty = true := by simpa [Array.isEmpty_iff] using h
  unfold ofKeys
  rw [hempty]
  rfl

/-- There is a trace of some keys unless a flow has too many packets. -/
theorem ofKeys_cases (hne : keys.toList ≠ []) :
    ((∃ t, ofKeys keys = .ok t) ∧ ∀ key, (keys.toList.count key : Int) ≤ Count.greatest) ∨
      ofKeys keys = .error (.fault (.overflow .add)) ∧
        ∃ key, Count.greatest < (keys.toList.count key : Int) := by
  have hpos : ∀ unit ∈ packetUnits keys.toList, 0 ≤ unit.count := fun unit hu =>
    (count_of_mem_packetUnits hu).symm ▸ Int.one_nonneg
  have hweight : ∀ key, weightOf (id · == key) (packetUnits keys.toList) = keys.toList.count key :=
    fun key => weightOf_packetUnits _ _
  have hcases := Tally.ofRecords_cases id hpos
  simp only [hweight] at hcases
  rw [ofKeys_eq hne]
  rcases hcases with ⟨⟨counts, hcounts⟩, hfits⟩ | ⟨herror, hkey⟩
  · exact .inl ⟨⟨⟨keys, counts⟩, by rw [hcounts]; rfl⟩, hfits⟩
  · exact .inr ⟨by rw [herror]; rfl, hkey⟩

/-- A trace that was made is that of its keys, of which there is one. -/
theorem ofKeys_eq_ok (h : ofKeys keys = .ok t) :
    keys.toList ≠ [] ∧ t.keys = keys ∧ Counts keys.toList t := by
  have hne : keys.toList ≠ [] := fun hnil => by
    rw [ofKeys_of_empty hnil] at h
    cases h
  have hfits : ∀ key, (keys.toList.count key : Int) ≤ Count.greatest := by
    rcases ofKeys_cases hne with ⟨-, hfits⟩ | ⟨herror, -⟩
    · exact hfits
    · cases herror.symm.trans h
  rw [ofKeys_eq hne] at h
  obtain ⟨counts, hcounts, rfl⟩ := Checked.map_eq_ok.mp h
  exact ⟨hne, rfl, rfl, Tally.sums_of_ofRecords (Outcome.ofChecked_eq_ok.mp hcounts), hfits⟩

namespace Counts

variable {keys : List Key}

theorem exactCount_eq (h : Counts keys t) (key : Key) : t.exactCount key = keys.count key :=
  (h.sums.count_eq key).trans (weightOf_packetUnits _ _)

theorem mem_counts_iff (h : Counts keys t) (key : Key) : key ∈ t.counts ↔ key ∈ keys := by
  rw [h.sums.mem_iff, @exists_mem_packetUnits_iff keys (id · = key)]
  simp

theorem getElem?_eq (h : Counts keys t) (key : Key) :
    t.counts[key]? = if key ∈ keys then some (keys.count key : Int) else none := by
  split
  · next hkey =>
    rw [Tally.getElem?_eq_some_of_mem ((h.mem_counts_iff key).mpr hkey), ← h.exactCount_eq]
    rfl
  · next hkey => exact Std.TreeMap.getElem?_eq_none (mt (h.mem_counts_iff key).mp hkey)

theorem flows_eq (h : Counts keys t) :
    t.flows = keys.toFinset.card :=
  Tally.size_eq_card h.mem_counts_iff

/-! ### The records of the flows -/

theorem exists_mem_records_iff (h : Counts keys t) {P : Key → Prop} :
    (∃ r ∈ t.counts.records, P r.key) ↔ ∃ key ∈ keys, P key := by
  constructor
  · rintro ⟨r, hr, hP⟩
    have hmem : r.key ∈ t.counts := by
      rw [Std.TreeMap.mem_iff_isSome_getElem?, Tally.mem_records_iff.mp hr, Option.isSome_some]
    exact ⟨r.key, (h.mem_counts_iff r.key).mp hmem, hP⟩
  · rintro ⟨key, hkey, hP⟩
    have hget := Tally.getElem?_eq_some_of_mem ((h.mem_counts_iff key).mpr hkey)
    exact ⟨⟨key, _⟩, Tally.mem_records_iff.mpr hget, hP⟩

theorem counts_nonneg (h : Counts keys t) (key : Key) : 0 ≤ t.counts.count key := by
  rw [h.sums.count_eq, weightOf_packetUnits]
  exact Int.natCast_nonneg _

theorem records_nonneg (h : Counts keys t) : ∀ r ∈ t.counts.records, 0 ≤ r.count := by
  intro r hr
  have hcount : t.counts.count r.key = r.count := by
    rw [Tally.count_eq, Tally.mem_records_iff.mp hr, Option.getD_some]
  exact hcount ▸ h.counts_nonneg r.key

/-- The records of the flows weigh what the packets weigh. -/
theorem weightOf_records (h : Counts keys t) (select : Key → Bool) :
    weightOf select t.counts.records = keys.countP select := by
  rw [← weightOf_packetUnits]
  refine weightOf_congr fun key => ?_
  rw [← weightOf_perm (rank_perm _)]
  exact ((Tally.rankingOf h.counts_nonneg).weightOf_eq key).trans (h.sums.count_eq key)

end Counts

end Trace

end HeavyHitters
