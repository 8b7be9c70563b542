import HeavyHitters.Estimator.CocoSketch
import HeavyHitters.Estimator.HeapSketch
import HeavyHitters.Proofs.BoundedHeap.Refinement
import HeavyHitters.Proofs.Estimator.VoteSketch
import HeavyHitters.Proofs.Median
import HeavyHitters.Proofs.Ranking

/-!
# Estimators that rank what they answer

Three estimators can enumerate their keys.  Each of them reads the ranking off all that it holds,
and answers a query from the few places where the key can be.  The two agree after any inserts of
positive weight: in an elastic sketch because residents sit in the buckets of their keys, in the
heap of a count sketch because no key is held twice, and in a Coco sketch because a key has at most
one bucket in a row, so that a row's sum for a key is what the query finds there.

* `Estimator.Enumerates` is an invariant under which ranking and answers belong together.
* `VoteSketch.enumerates`, `HeapSketch.enumerates` and
  `CocoSketch.enumerates` are the three invariants.
* `FreshEnumerator` lists the three as they are built.
-/

namespace HeavyHitters

/-- What an estimator adds up by key for its answers and its ranking, and may not be able to: an
elastic sketch the votes in its buckets, the others nothing. -/
inductive Estimator.Addends : {ε : Type} → ε → List Entry → Prop where
  | vote (s : VoteSketch) : Addends s (tableResidents s.rows)
  | heap (s : HeapSketch) : Addends s []
  | coco {ρ : Type} (s : CocoSketch ρ) : Addends s []

/-- An invariant of an estimator under which its ranking belongs to its answers, as far as its sums
fit. -/
structure Estimator.Enumerates {ε : Type} [Estimator ε] (Inv : ε → Prop) : Prop where
  inv_insert : ∀ {e e' : ε} {unit : Record Key}, Inv e → 1 ≤ unit.count →
    Estimator.insert e unit.key unit.count = .ok e' → Inv e'
  exists_addsUp : ∀ {e : ε}, Inv e → ∃ addends, Addends e addends ∧
    AddsUp addends (query e) (topK e)

/-! ## Elastic sketches -/

namespace VoteSketch

theorem enumerates : Estimator.Enumerates fun s : VoteSketch => TablePlaced s.rows where
  inv_insert hs hunit hi := by
    obtain ⟨out, takeovers, hpassage⟩ := exists_passage hi
    exact hpassage.placed hs hunit
  exists_addsUp {s} hs := by
    have hquery : Estimator.query s = fun key =>
        Outcome.ofChecked (Count.narrow .add (weightOf (· == key) (tableResidents s.rows))) :=
      funext fun key => congrArg Outcome.ofChecked (hs.weight_eq key)
    rw [hquery]
    refine ⟨_, .vote s, addsUp_of_sums fun e he => ?_⟩
    exact Int.le_trans (by decide) (hs.positive e he)

theorem placed_of_ofBudget {memory width : Nat} {seed : UInt64} {s : VoteSketch}
    (h : ofBudget memory width seed = .ok s) : TablePlaced s.rows := by
  obtain ⟨length, hlength, rfl⟩ := ofBudget_eq_ok h
  exact (tablePlaced_table _ hlength rfl).1

end VoteSketch

/-! ## Heaps -/

namespace BoundedHeap

variable {h : BoundedHeap} {key : Key} {count : Int}

/-- A heap that holds only positive counts. -/
def Positive (h : BoundedHeap) : Prop := ∀ key count, h.held key = some count → 0 < count

/-- What holds of all counts before a call and of the count that it leads to
holds of all counts after it. -/
theorem Changes.forall_held {map : Key → Option Int} {P : Int → Prop}
    (call : Changes h key count map) (hold : ∀ other c, h.held other = some c → P c)
    (hbumped : ∀ old, h.held key = some old → P (old + count))
    (hadded : h.held key = none → 0 < count → P count) : ∀ other c, map other = some c → P c := by
  intro other c hc
  cases call with
  | bumped tracked =>
    rw [Function.update_apply] at hc
    split at hc
    · exact Option.some.inj hc ▸ hbumped _ tracked
    · exact hold other c hc
  | ignored => exact hold other c hc
  | added untracked pos =>
    rw [Function.update_apply] at hc
    split at hc
    · exact Option.some.inj hc ▸ hadded untracked pos
    · exact hold other c hc
  | replaced untracked pos =>
    rw [Function.update_apply] at hc
    split at hc
    · exact Option.some.inj hc ▸ hadded untracked pos
    · rw [Function.update_apply] at hc
      split at hc
      · cases hc
      · exact hold other c hc
  | kept => exact hold other c hc

/-- A call keeps counts positive, if it does not take from a key that is held. -/
theorem Changes.positive {map : Key → Option Int}
    (call : Changes h key count map) (hpos : h.Positive) (hcount : h.held key ≠ none → 0 ≤ count) :
    ∀ other c, map other = some c → 0 < c := by
  refine call.forall_held hpos (fun old hold => ?_) fun _ pos => pos
  have hpositive := hpos key old hold
  have hadd := hcount (by simp [hold])
  omega

theorem Indexed.contains_eq_true_iff (hx : h.Indexed) :
    h.contains key = true ↔ h.held key ≠ none := by
  rw [ne_eq, hx.held_eq_none_iff, contains, Std.TreeMap.contains_eq_isSome_getElem?,
    Option.isSome_iff_ne_none]

theorem Indexed.contains_eq_false_iff (hx : h.Indexed) :
    h.contains key = false ↔ h.held key = none := by
  rw [← Bool.not_eq_true, hx.contains_eq_true_iff, not_ne_iff]

theorem Indexed.held_eq_some_iff_query (hx : h.Indexed) :
    h.held key = some count ↔ h.contains key = true ∧ h.query key = count := by
  rw [hx.contains_eq_true_iff, hx.query_eq]
  cases h.held key <;> simp

theorem Indexed.mem_records_iff (hx : h.Indexed) :
    ⟨key, count⟩ ∈ h.records ↔ h.held key = some count := by
  rw [records, (rank_perm _).mem_iff, Array.mem_toList_iff, hx.held_eq_some_iff]

theorem Indexed.nodup_records (hx : h.Indexed) : (h.records.map (·.key)).Nodup :=
  ((rank_perm h.entries.toList).map _).nodup_iff.mpr hx.nodup_keys

/-- The entries by rank belong to the answers of a heap. -/
theorem WellFormed.rankingOf (hw : h.WellFormed) (hpos : h.Positive) :
    RankingOf h.query h.records := by
  have hx := hw.indexed
  have hheld : ∀ r ∈ h.entries.toList, h.held r.key = some r.count := fun r hr =>
    hx.held_eq_some_iff.mpr (Array.mem_toList_iff.mp hr)
  refine rankingOf_rank hx.nodup_keys (fun r hr => ?_) (fun r hr => ?_) fun key hkey => ?_
  · exact Int.le_of_lt (hpos r.key r.count (hheld r hr))
  · rw [hx.query_eq, hheld r hr, Option.getD_some]
  · rw [hx.query_eq]
    cases hc : h.held key with
    | none => rfl
    | some count =>
      exact absurd rfl (hkey _ (Array.mem_toList_iff.mpr (hx.held_eq_some_iff.mp hc)))

theorem ofBudget_eq_ok {subject : String} {memory : Nat} (hb : ofBudget subject memory = .ok h) :
    memory / 8 ≠ 0 ∧ h = empty (memory / 8) := by
  unfold ofBudget at hb
  dsimp only at hb
  split at hb
  · exact absurd hb refuse_bind_ne_ok
  next hcapacity =>
  obtain ⟨-, -, hb⟩ := Checked.bind_eq_ok.mp hb
  obtain ⟨-, -, hb⟩ := Checked.bind_eq_ok.mp hb
  exact ⟨hcapacity, (Checked.pure_eq_ok.mp hb).symm⟩

theorem held_empty (capacity : Nat) (key : Key) :
    (empty capacity).held key = none := by simp [held, empty]

end BoundedHeap

namespace HeapSketch

/-- An insert is a call of the heap, with the weight if the key is held
and with an estimate if not. -/
theorem exists_call {s s' : HeapSketch} {key : Key} {weight : Int}
    (h : s.insert key weight = .ok s') :
    ∃ estimate, s.heap.insertOrBump key (if s.heap.contains key then weight else estimate)
      = .ok s'.heap := by
  obtain ⟨added, -, h⟩ := Checked.bind_eq_ok.mp h
  obtain ⟨heap, hcall, h⟩ := Checked.bind_eq_ok.mp h
  obtain rfl := Checked.pure_eq_ok.mp h
  exact ⟨_, hcall⟩

/-- A heap stays well formed, whatever the weights are. -/
theorem wellFormed_of_insertAll {s s' : HeapSketch} {units : List Entry} (h : s.heap.WellFormed)
    (run : Estimator.insertAll s units = .ok s') : s'.heap.WellFormed := by
  refine Checked.kept_foldlM (fun s : HeapSketch => s.heap.WellFormed)
    (fun {s s' unit} hs hi => ?_) h run
  obtain ⟨estimate, hcall⟩ := exists_call hi
  exact (hs.moves hcall).wellFormed hs

theorem enumerates :
    Estimator.Enumerates fun s : HeapSketch => s.heap.WellFormed ∧ s.heap.Positive where
  inv_insert {s s' unit} hs hunit hi := by
    obtain ⟨estimate, hcall⟩ := exists_call hi
    have hmoves := hs.1.moves hcall
    refine ⟨hmoves.wellFormed hs.1, (hmoves.changes hs.1).positive hs.2 fun hheld => ?_⟩
    rw [if_pos (hs.1.indexed.contains_eq_true_iff.mpr hheld)]
    omega
  exists_addsUp {s} hs := by
    have hranks : Ranks (Estimator.query s) (Estimator.topK s) :=
      ⟨_, _, fun _ => rfl, rfl, hs.1.rankingOf hs.2⟩
    exact ⟨[], .heap s, hranks.addsUp_nil⟩

/-- A built sketch has vacant rows and an empty heap, each in a half of the budget. -/
theorem ofBudget_eq_ok {memory rows width : Nat} {seed : UInt64} {s : HeapSketch}
    (h : ofBudget memory rows width seed = .ok s) :
    ∃ length, rows ≠ 0 ∧ length ≠ 0 ∧ rows * length < blockLimit ∧
      s = ⟨(SignedRow.table rows length ⟨seed⟩).1, BoundedHeap.empty (memory / 2 / 8)⟩ := by
  obtain ⟨length, hl, h⟩ := Checked.bind_eq_ok.mp h
  obtain ⟨heap, hheap, h⟩ := Checked.bind_eq_ok.mp h
  obtain ⟨⟨⟩, hreserve, h⟩ := Checked.bind_eq_ok.mp h
  obtain ⟨hrows, -, hlength, -⟩ := rowLength_eq_ok hl
  obtain ⟨-, rfl⟩ := BoundedHeap.ofBudget_eq_ok hheap
  have hblock := (reserveRows_eq_ok_iff.mp (Outcome.ofChecked_eq_ok.mp hreserve)).2
  unfold Count.width at hblock
  exact ⟨length, hrows, hlength, by omega, (Checked.pure_eq_ok.mp h).symm⟩

/-- A heap has room for a key at least. -/
theorem capacity_pos_of_ofBudget {memory rows width : Nat} {seed : UInt64} {s : HeapSketch}
    (h : ofBudget memory rows width seed = .ok s) : 0 < s.heap.capacity := by
  obtain ⟨_, -, h⟩ := Checked.bind_eq_ok.mp h
  obtain ⟨heap, hheap, h⟩ := Checked.bind_eq_ok.mp h
  obtain ⟨-, -, h⟩ := Checked.bind_eq_ok.mp h
  obtain rfl := Checked.pure_eq_ok.mp h
  obtain ⟨hcapacity, rfl⟩ := BoundedHeap.ofBudget_eq_ok hheap
  exact Nat.pos_of_ne_zero hcapacity

theorem wellFormed_of_ofBudget {memory rows width : Nat} {seed : UInt64} {s : HeapSketch}
    (h : ofBudget memory rows width seed = .ok s) : s.heap.WellFormed ∧ s.heap.Positive := by
  obtain ⟨length, -, -, -, rfl⟩ := ofBudget_eq_ok h
  refine ⟨BoundedHeap.wellFormed_empty _, fun key count hcount => ?_⟩
  rw [BoundedHeap.held_empty] at hcount
  cases hcount

end HeapSketch

/-! ## Coco sketches -/

namespace Row

/-- A bound of all residents is a bound of what a placed row holds of a
key, as that is one of them. -/
theorem Placed.weightOf_le {α : Type} [Cell α] {row : Row α} {bound : Int} (h : row.Placed)
    (hbound : 0 ≤ bound) (hle : ∀ i, ∀ e ∈ row.residentAt i, e.count ≤ bound) (key : Key) :
    weightOf (· == key) row.residents ≤ bound := by
  obtain ⟨cell, hget⟩ := row.exists_get_eq_ok key h.length_pos
  have hweight := h.weight_eq key
  rw [weight, hget] at hweight
  cases hr : Cell.resident cell with
  | none =>
    simp only [bind, Except.bind, hr, pure, Except.pure, Except.ok.injEq] at hweight
    omega
  | some e =>
    have := hle _ e (residentAt_of_get hget ▸ hr)
    simp only [bind, Except.bind, hr, pure, Except.pure, Except.ok.injEq] at hweight
    split at hweight <;> omega

end Row

namespace CocoSketch

variable {ρ : Type}

/-- A placed row of which every count fits. -/
structure Owned (row : Row Entry) : Prop extends row.Placed where
  fits : ∀ i, ∀ e ∈ row.residentAt i, e.count ≤ Count.greatest

theorem owned_fill {length : Nat} (hlength : length ≠ 0) (hash : KeyHash) :
    Owned (Row.fill length Entry.empty hash) where
  toPlaced := Row.placed_fill hlength rfl hash
  fits i e he := by
    have hmem : e ∈ (Row.fill length Entry.empty hash).residents := Row.mem_residents.mpr ⟨i, he⟩
    rw [Row.residents_fill rfl] at hmem
    cases hmem

/-- Weight that comes to a bucket leaves a resident with a count that fits; the first weight that
comes to an empty bucket brings its key, whatever is drawn. -/
theorem resident_of_absorb {key : Key} {weight : Int} {draw : Float} {old new : Entry}
    (hweight : 1 ≤ weight) (hold : ∀ e ∈ Cell.resident old, 1 ≤ e.count)
    (h : absorb key weight draw old = .ok new) : ∀ e ∈ Cell.resident new,
      (1 ≤ e.count ∧ (e.key = key ∨ ∃ e₀ ∈ Cell.resident old, e.key = e₀.key)) ∧
        e.count ≤ Count.greatest := by
  intro e he
  obtain ⟨count, hplus, h⟩ := Checked.bind_eq_ok.mp h
  obtain ⟨hfits, rfl⟩ := Count.plus_eq_ok_iff.mp hplus
  obtain rfl := Checked.pure_eq_ok.mp h
  obtain ⟨-, rfl⟩ := Entry.resident_eq_some_iff.mp he
  by_cases hempty : old.count = 0
  · have htakes : takesOver weight (old.count + weight) draw = true := by
      rw [hempty, Int.zero_add, takesOver, if_pos rfl]
      exact decide_eq_true (by omega)
    rw [htakes]
    exact ⟨⟨by dsimp only; omega, .inl rfl⟩, hfits.2⟩
  · have hres : Cell.resident old = some old := Entry.resident_eq_some_iff.mpr ⟨hempty, rfl⟩
    have hcount := hold old hres
    refine ⟨⟨by dsimp only; omega, ?_⟩, hfits.2⟩
    dsimp only
    split
    · exact .inl rfl
    · exact .inr ⟨old, hres, rfl⟩

theorem Owned.update {row row' : Row Entry} {key : Key} {weight : Int} {draw : Float}
    (hrow : Owned row) (hweight : 1 ≤ weight)
    (h : row.update key (absorb key weight draw) = .ok row') : Owned row' := by
  obtain ⟨old, new, hget, habsorb, rfl⟩ := Row.update_eq_ok_iff.mp h
  have hresident := resident_of_absorb hweight
    (fun e he => hrow.positive _ e (Row.residentAt_of_get hget ▸ he)) habsorb
  refine ⟨hrow.set_resident hget fun e he => (hresident e he).1, fun i e he => ?_⟩
  rw [Row.residentAt_set hrow.length_pos] at he
  split at he
  · exact (hresident e he).2
  · exact hrow.fits i e he

/-- Every row afterwards comes from a row that absorbed the weight by some draw. -/
theorem exists_update_of_mem [RandomSource ρ] {key : Key} {weight : Int}
    {rows rows' : List (Row Entry)} {source source' : ρ}
    (h : absorbAll key weight rows source = .ok (rows', source')) {row' : Row Entry}
    (hr : row' ∈ rows') :
    ∃ row ∈ rows, ∃ draw, row.update key (absorb key weight draw) = .ok row' := by
  induction rows generalizing rows' source source' with
  | nil =>
    cases h
    cases hr
  | cons row rows ih =>
    rw [absorbAll] at h
    obtain ⟨first, hupdate, h⟩ := Checked.bind_eq_ok.mp h
    obtain ⟨⟨rest, source''⟩, hall, h⟩ := Checked.bind_eq_ok.mp h
    obtain ⟨rfl, -⟩ := Prod.mk.inj (Checked.pure_eq_ok.mp h)
    rcases List.mem_cons.mp hr with rfl | hr
    · exact ⟨row, List.mem_cons_self, _, hupdate⟩
    · obtain ⟨other, ho, hupdate⟩ := ih hall hr
      exact ⟨other, List.mem_cons_of_mem row ho, hupdate⟩

/-- The rows stay owned, whatever is drawn. -/
theorem owned_of_absorbAll [RandomSource ρ] {key : Key} {weight : Int}
    {rows rows' : List (Row Entry)} {source source' : ρ} (hrows : ∀ row ∈ rows, Owned row)
    (hweight : 1 ≤ weight) (h : absorbAll key weight rows source = .ok (rows', source')) :
    ∀ row ∈ rows', Owned row := by
  intro row' hr
  obtain ⟨row, hrow, draw, hupdate⟩ := exists_update_of_mem h hr
  exact (hrows row hrow).update hweight hupdate

/-! ### Medians of tallies -/

section Medians

variable {κ : Type} [Ord κ] [Std.TransOrd κ] [Std.LawfulEqOrd κ]

/-- A value is put in for every key that is not there yet. -/
theorem getElem?_foldl_insert (value : κ → Int) (keys : List κ) {merged : Tally κ}
    (hmerged : ∀ key count, merged[key]? = some count → count = value key) (key : κ) (count : Int) :
    (keys.foldl (fun merged key =>
        if merged.contains key then merged
          else merged.insert key (value key)) merged)[key]? = some count ↔
      count = value key ∧ (key ∈ keys ∨ key ∈ merged) := by
  induction keys generalizing merged with
  | nil =>
    simp only [List.foldl_nil, List.not_mem_nil, false_or]
    constructor
    · intro h
      exact ⟨hmerged key count h, Std.TreeMap.mem_iff_isSome_getElem?.mpr (by rw [h]; rfl)⟩
    · rintro ⟨rfl, hmem⟩
      obtain ⟨found, hfound⟩ := Option.isSome_iff_exists.mp
        (Std.TreeMap.mem_iff_isSome_getElem?.mp hmem)
      rw [hfound, hmerged key found hfound]
  | cons first keys ih =>
    rw [List.foldl_cons, List.mem_cons]
    by_cases hfirst : first ∈ merged
    · rw [if_pos (Std.TreeMap.mem_iff_contains.mp hfirst), ih hmerged]
      refine and_congr_right fun _ => ⟨fun h => h.imp_left .inr, ?_⟩
      rintro ((rfl | hkey) | hkey)
      · exact .inr hfirst
      · exact .inl hkey
      · exact .inr hkey
    · rw [if_neg (mt Std.TreeMap.mem_iff_contains.mpr hfirst), ih, Tally.mem_insert]
      · refine and_congr_right fun _ => ?_
        rw [or_left_comm, or_assoc, eq_comm (a := first)]
      · intro key count h
        simp only [Std.TreeMap.getElem?_insert, Std.LawfulEqCmp.compare_eq_iff_eq] at h
        split at h
        · next heq => rw [← Option.some.inj h, Std.LawfulEqOrd.eq_of_compare heq]
        · exact hmerged key count h

variable {tallies : List (Tally κ)} {key : κ}

theorem getElem?_medians {count : Int} : (medians tallies)[key]? = some count ↔
    count = Count.median (tallies.map (·.count key)) ∧ ∃ t ∈ tallies, key ∈ t := by
  unfold medians
  rw [getElem?_foldl_insert (fun key => Count.median (tallies.map (·.count key)))]
  · simp [List.mem_flatMap]
  · intro key count h
    simp at h

/-- The medians of all keys, those in no tally having the median 0. -/
theorem count_medians (tallies : List (Tally κ)) (key : κ) :
    (medians tallies).count key = Count.median (tallies.map (·.count key)) := by
  rw [Tally.count_eq]
  by_cases hkey : ∃ t ∈ tallies, key ∈ t
  · rw [getElem?_medians.mpr ⟨rfl, hkey⟩, Option.getD_some]
  · have hnone : (medians tallies)[key]? = none := by
      refine Option.eq_none_iff_forall_ne_some.mpr fun count hc => hkey (getElem?_medians.mp hc).2
    rw [hnone, Option.getD_none, Count.median_eq_zero]
    intro c hc
    obtain ⟨t, ht, rfl⟩ := List.mem_map.mp hc
    rw [Tally.count_eq, Std.TreeMap.getElem?_eq_none fun hmem =>
      hkey ⟨t, ht, hmem⟩, Option.getD_none]

end Medians

/-! ### Answers -/

/-- What the rows hold of a key. -/
def weights (rows : List (Row Entry)) (key : Key) : List Int :=
  rows.map fun row => weightOf (· == key) row.residents

theorem query_eq {s : CocoSketch ρ} (hs : ∀ row ∈ s.rows, Owned row) (key : Key) :
    s.query key = .ok (Count.median (weights s.rows key)) := by
  unfold query
  rw [Checked.mapM_eq_ok_map fun row hr => (hs row hr).weight_eq key]
  rfl

/-- A tally of each row has what the row holds of a key. -/
theorem count_tallies {rows : List (Row Entry)} {tallies : List (Tally Key)}
    (h : rows.mapM (fun row => Tally.ofRecords (row.residents.map fun r => ⟨id r.key, r.count⟩)) =
      .ok tallies) (key : Key) : tallies.map (·.count key) = weights rows key := by
  have hsums := Checked.mapM_eq_ok.mp h
  clear h
  induction hsums with
  | nil => rfl
  | cons ht _ ih =>
    rw [List.map_cons, ih, (Tally.sums_of_ofRecords ht).count_eq]
    rfl

/-- There is a map of the medians, in which a key has what a query answers. -/
theorem exists_estimates {s : CocoSketch ρ} (hs : ∀ row ∈ s.rows, Owned row) : ∃ tally : Tally Key,
    s.estimates id = .ok tally ∧ ∀ key, tally.count key = Count.median (weights s.rows key) := by
  have hrow : ∀ row ∈ s.rows, ∃ t : Tally Key,
      Tally.ofRecords (row.residents.map fun r => ⟨id r.key, r.count⟩) = .ok t := by
    intro row hr
    have hnonneg : ∀ e ∈ row.residents, 0 ≤ e.count := fun e he =>
      Int.le_trans (by decide) ((hs row hr).residents_positive e he)
    rcases Tally.ofRecords_cases id hnonneg with ⟨ht, -⟩ | ⟨-, key, hlt⟩
    · exact ht
    · have hle := (hs row hr).weightOf_le (by decide) (hs row hr).fits key
      have hlt : Count.greatest < weightOf (· == key) row.residents := hlt
      omega
  obtain ⟨tallies, htallies⟩ := Checked.exists_mapM hrow
  refine ⟨medians tallies, Checked.bind_eq_ok.mpr ⟨tallies, htallies, rfl⟩, fun key => ?_⟩
  rw [count_medians, count_tallies htallies]

theorem enumerates [RandomSource ρ] :
    Estimator.Enumerates fun s : CocoSketch ρ => ∀ row ∈ s.rows, Owned row where
  inv_insert {s s' unit} hs hunit hi := by
    obtain ⟨⟨rows, source⟩, hall, hi⟩ := Checked.bind_eq_ok.mp hi
    obtain rfl := Checked.pure_eq_ok.mp hi
    exact owned_of_absorbAll hs hunit hall
  exists_addsUp {s} hs := by
    obtain ⟨tally, hestimates, hcount⟩ := exists_estimates hs
    refine ⟨[], .coco s, Ranks.addsUp_nil ?_⟩
    refine ⟨tally.count, tally.ranking, fun key => ?_, ?_, Tally.rankingOf fun key => ?_⟩
    · rw [hcount]
      exact congrArg Outcome.ofChecked (query_eq hs key)
    · show Outcome.ofChecked (Tally.ranking <$> s.estimates id) = _
      rw [hestimates]
      rfl
    · rw [hcount]
      refine Count.median_nonneg fun c hc => ?_
      obtain ⟨row, hr, rfl⟩ := List.mem_map.mp hc
      exact weightOf_nonneg fun e he =>
        Int.le_trans (by decide) ((hs row hr).residents_positive e he)

theorem owned_of_ofBudget {source : UInt64 → ρ} {memory rows : Nat}
    {seed : UInt64} {s : CocoSketch ρ} (h : ofBudget source memory rows seed = .ok s) :
    ∀ row ∈ s.rows, Owned row := by
  obtain ⟨length, -, hlength, -, rfl⟩ := exists_length_of_budget h
  intro row hr
  obtain ⟨hash, rfl⟩ := mem_table hr
  exact owned_fill hlength hash

end CocoSketch

/-! ## As they are built -/

/-- An estimator that can enumerate its keys, as it is built; a Coco
sketch with any source of coins. -/
inductive FreshEnumerator : (ε : Type) → [Estimator ε] → ε → Prop where
  | vote {memory width : Nat} {seed : UInt64} {e : VoteSketch}
      (built : VoteSketch.ofBudget memory width seed = .ok e) : FreshEnumerator VoteSketch e
  | heap {memory rows width : Nat} {seed : UInt64} {e : HeapSketch}
      (built : HeapSketch.ofBudget memory rows width seed = .ok e) : FreshEnumerator HeapSketch e
  | coco {ρ : Type} [RandomSource ρ] {source : UInt64 → ρ} {memory rows : Nat} {seed : UInt64}
      {e : CocoSketch ρ} (built : CocoSketch.ofBudget source memory rows seed = .ok e) :
      FreshEnumerator (CocoSketch ρ) e

/-- A built enumerator has an invariant under which its ranking belongs to its answers. -/
theorem FreshEnumerator.enumerates {ε : Type} [Estimator ε] {start : ε}
    (h : FreshEnumerator ε start) : ∃ Inv : ε → Prop, Estimator.Enumerates Inv ∧ Inv start := by
  cases h with
  | vote built => exact ⟨_, VoteSketch.enumerates, VoteSketch.placed_of_ofBudget built⟩
  | heap built => exact ⟨_, HeapSketch.enumerates, HeapSketch.wellFormed_of_ofBudget built⟩
  | coco built => exact ⟨_, CocoSketch.enumerates, CocoSketch.owned_of_ofBudget built⟩

end HeavyHitters
