import HeavyHitters.Proofs.Checked
import HeavyHitters.Proofs.Weight
import HeavyHitters.Tally

/-!
# Sums by key and their ranking

A tally of grouped records has for each group the weight of its keys, and has no other group.  Its
ranking lists each of its keys once, the greater sums first and equal sums by ascending key.

* `Tally.Sums` is what a tally is to the records that were added; `Tally.sums_of_ofRecords` says
  that every tally is so, and `Tally.exists_ofRecords` that there is one if the total fits a count.
* `Tally.nodup_ranking`, `Tally.pairwise_ranking` and `Tally.mem_ranking_iff` say what
  the ranking of any tally is, and `eq_of_perm_of_ranked` that no other list of its
  records is in the order of rank.
-/

namespace HeavyHitters

/-! ## The order of rank -/

namespace Record

variable {κ : Type} [Ord κ]

instance instTransCmpRankCompare [Std.TransOrd κ] : Std.TransCmp (@rankCompare κ _) :=
  have : Std.TransCmp fun r s : Record κ => compare s.count r.count :=
    @Std.TransCmp.opposite _ (compareOn Record.count) _
  inferInstanceAs (Std.TransCmp (compareLex _ (compareOn Record.key)))

theorem key_eq_of_rankCompare [Std.LawfulEqOrd κ] {r s : Record κ} (h : rankCompare r s = .eq) :
    r.key = s.key :=
  Std.LawfulEqCmp.compare_eq_iff_eq.mp (Ordering.then_eq_eq.mp h).2

/-- The greater count comes first, then the smaller key. -/
theorem rankCompare_eq_lt_iff [LT κ] [LE κ] [Std.LawfulOrderOrd κ] [Std.LawfulOrderLT κ]
    {r s : Record κ} :
    rankCompare r s = .lt ↔ s.count < r.count ∨ s.count = r.count ∧ r.key < s.key := by
  rw [rankCompare, Ordering.then_eq_lt, Std.compare_eq_lt, Std.compare_eq_lt,
    Std.LawfulEqCmp.compare_eq_iff_eq]

end Record

section

variable {κ : Type} [Ord κ] [Std.TransOrd κ] {records : List (Record κ)}

theorem pairwise_rank (records : List (Record κ)) :
    (rank records).Pairwise fun r s => (Record.rankCompare r s).isLE := by
  rw [rank, Sorting.sort_eq]
  refine List.pairwise_mergeSort (fun r s t hrs hst => ?_) (fun r s => ?_) records
  · exact Std.TransCmp.isLE_trans hrs hst
  · by_cases h : (Record.rankCompare r s).isLE
    · simp [h]
    · have hlt := Std.OrientedCmp.lt_of_not_isLE h
      simp [hlt]

/-- Records of different keys have different ranks. -/
theorem pairwise_rank_of_nodup [Std.LawfulEqOrd κ] (h : (records.map (·.key)).Nodup) :
    (rank records).Pairwise fun r s => Record.rankCompare r s = .lt := by
  have hkeys : ((rank records).map (·.key)).Nodup :=
    ((rank_perm records).map _).nodup_iff.mpr h
  refine ((pairwise_rank records).and (List.pairwise_map.mp hkeys)).imp ?_
  rintro r s ⟨hle, hne⟩
  -- of equal rank are only records of one key
  rcases Ordering.isLE_iff_eq_lt_or_eq_eq.mp hle with hlt | heq
  · exact hlt
  · exact absurd (Record.key_eq_of_rankCompare heq) hne

variable {others : List (Record κ)}

/-- Records in the order of rank are the only such list of them. -/
theorem eq_of_perm_of_ranked (hperm : records.Perm others)
    (h : records.Pairwise fun r s => Record.rankCompare r s = .lt)
    (h' : others.Pairwise fun r s => Record.rankCompare r s = .lt) : records = others := by
  refine hperm.eq_of_pairwise ?_ h h'
  exact fun r s _ _ hrs hsr => absurd hsr (Std.OrientedCmp.not_lt_of_lt hrs)

/-- Records of pairwise distinct keys are ranked alike from whatever order. -/
theorem rank_eq_of_perm [Std.LawfulEqOrd κ] (hnodup : (records.map (·.key)).Nodup)
    (h : records.Perm others) : rank records = rank others :=
  eq_of_perm_of_ranked ((rank_perm records).trans (h.trans (rank_perm others).symm))
    (pairwise_rank_of_nodup hnodup) (pairwise_rank_of_nodup ((h.map _).nodup_iff.mp hnodup))

end

/-! ## Tallies -/

namespace Tally

variable {κ : Type} [Ord κ] [Std.TransOrd κ]

theorem count_eq (t : Tally κ) (key : κ) : t.count key = t[key]?.getD 0 :=
  Std.TreeMap.getD_eq_getD_getElem?

theorem getElem?_eq_some_of_mem {t : Tally κ} {key : κ} (h : key ∈ t) :
    t[key]? = some (t.count key) := by
  obtain ⟨count, hcount⟩ := Option.isSome_iff_exists.mp (Std.TreeMap.mem_iff_isSome_getElem?.mp h)
  rw [count_eq, hcount, Option.getD_some]

variable [Std.LawfulEqOrd κ] {t t' : Tally κ}

theorem count_insert [BEq κ] [LawfulBEq κ] (t : Tally κ) (key other : κ) (count : Int) :
    Tally.count (t.insert key count) other = if key == other then count else t.count other := by
  rw [Tally.count, Std.TreeMap.getD_insert]
  by_cases h : key = other
  · rw [if_pos (Std.LawfulEqCmp.compare_eq_iff_eq.mpr h), if_pos (beq_iff_eq.mpr h)]
  · rw [if_neg (mt Std.LawfulEqCmp.compare_eq_iff_eq.mp h), if_neg (mt beq_iff_eq.mp h)]
    rfl

theorem mem_insert {key other : κ} {count : Int} :
    other ∈ t.insert key count ↔ key = other ∨ other ∈ t := by
  rw [Std.TreeMap.mem_insert, Std.LawfulEqCmp.compare_eq_iff_eq]

/-- Records of pairwise distinct keys that are put into a tally take the place of what was there. -/
theorem getElem?_foldl_insert {records : List (Record κ)}
    (hnodup : (records.map (·.key)).Nodup) {key : κ} {count : Int} :
    (records.foldl (fun (t : Tally κ) r => t.insert r.key r.count) t)[key]? = some count ↔
      ⟨key, count⟩ ∈ records ∨ (∀ r ∈ records, r.key ≠ key) ∧ t[key]? = some count := by
  induction records generalizing t with
  | nil => simp
  | cons first records ih =>
    obtain ⟨other, found⟩ := first
    obtain ⟨hfirst, hnodup⟩ := List.nodup_cons.mp hnodup
    rw [List.foldl_cons, ih hnodup, Std.TreeMap.getElem?_insert]
    by_cases hkey : other = key
    · subst hkey
      -- the key has no other record
      have hrest : ∀ r ∈ records, other ≠ r.key := by
        intro r hr hk
        exact hfirst (List.mem_map.mpr ⟨r, hr, hk.symm⟩)
      have hnone : ⟨other, count⟩ ∉ records := fun hr => hrest _ hr rfl
      simpa [hnone, eq_comm] using fun _ => hrest
    · simp [hkey, Ne.symm hkey]

/-! ### Rankings -/

theorem mem_records_iff {r : Record κ} : r ∈ t.records ↔ t[r.key]? = some r.count := by
  unfold records
  rw [← Std.TreeMap.mem_toList_iff_getElem?_eq_some, List.mem_map]
  constructor
  · rintro ⟨⟨key, count⟩, hmem, rfl⟩
    exact hmem
  · intro hmem
    exact ⟨(r.key, r.count), hmem, rfl⟩

theorem nodup_records (t : Tally κ) : (t.records.map (·.key)).Nodup := by
  unfold records
  rw [List.map_map]
  refine List.pairwise_map.mpr ?_
  refine Std.TreeMap.distinct_keys_toList.imp fun {a b} hne heq => ?_
  exact hne (Std.LawfulEqCmp.compare_eq_iff_eq.mpr heq)

/-- A tally has as many keys as there are in a list of them, each counted once. -/
theorem size_eq_card [DecidableEq κ] {keys : List κ} (h : ∀ key, key ∈ t ↔ key ∈ keys) :
    t.size = keys.toFinset.card := by
  have hnodup : t.keys.Nodup :=
    t.distinct_keys.imp fun hne heq => hne (Std.LawfulEqCmp.compare_eq_iff_eq.mpr heq)
  have hkeys : t.keys.toFinset = keys.toFinset := by
    ext key
    rw [List.mem_toFinset, List.mem_toFinset, Std.TreeMap.mem_keys, h]
  rw [← Std.TreeMap.length_keys, ← List.toFinset_card_of_nodup hnodup, hkeys]

omit [Std.TransOrd κ] [Std.LawfulEqOrd κ] in
theorem length_ranking (t : Tally κ) : t.ranking.length = t.size := by
  rw [ranking, (rank_perm t.records).length_eq, records, List.length_map, Std.TreeMap.length_toList]

theorem mem_ranking_iff {r : Record κ} : r ∈ t.ranking ↔ t[r.key]? = some r.count := by
  rw [ranking, (rank_perm t.records).mem_iff, mem_records_iff]

theorem nodup_ranking (t : Tally κ) : (t.ranking.map (·.key)).Nodup :=
  ((rank_perm t.records).map _).nodup_iff.mpr t.nodup_records

/-- A ranking is strict. -/
theorem pairwise_ranking (t : Tally κ) :
    t.ranking.Pairwise fun r s => Record.rankCompare r s = .lt :=
  pairwise_rank_of_nodup t.nodup_records

theorem count_of_mem_ranking {r : Record κ} (h : r ∈ t.ranking) : t.count r.key = r.count := by
  rw [count_eq, mem_ranking_iff.mp h, Option.getD_some]

theorem mem_of_mem_ranking {r : Record κ} (h : r ∈ t.ranking) : r.key ∈ t := by
  rw [Std.TreeMap.mem_iff_isSome_getElem?, mem_ranking_iff.mp h, Option.isSome_some]

/-- What the ranking does not list has no sum. -/
theorem count_eq_zero {key : κ} (h : ∀ r ∈ t.ranking, r.key ≠ key) : t.count key = 0 := by
  rw [count_eq]
  cases hkey : t[key]? with
  | none => rfl
  | some count => exact absurd rfl (h ⟨key, count⟩ (mem_ranking_iff.mpr hkey))

/-! ### Sums of groups -/

/-- A tally has for each group of keys the weight of its units, and only groups of units. -/
structure Sums [BEq κ] (group : Key → κ) (units : List Entry) (t : Tally κ) : Prop where
  count_eq : ∀ key, t.count key = weightOf (group · == key) units
  mem_iff : ∀ key, key ∈ t ↔ ∃ unit ∈ units, group unit.key = key

omit [Std.LawfulEqOrd κ] in
theorem sums_empty [BEq κ] (group : Key → κ) : Sums group [] (∅ : Tally κ) where
  count_eq key := Std.TreeMap.getD_emptyc
  mem_iff key := by simp

variable [BEq κ] [LawfulBEq κ] {group : Key → κ} {units : List Entry} {unit : Entry}

theorem Sums.add (h : Sums group units t) (ha : t.add ⟨group unit.key, unit.count⟩ = .ok t') :
    Sums group (units ++ [unit]) t' := by
  obtain ⟨sum, hplus, ha⟩ := Checked.bind_eq_ok.mp ha
  obtain ⟨-, rfl⟩ := Count.plus_eq_ok_iff.mp hplus
  obtain rfl := Checked.pure_eq_ok.mp ha
  dsimp only
  rw [h.count_eq]
  refine ⟨fun key => ?_, fun key => ?_⟩
  · rw [count_insert, weightOf_append, weightOf_cons, weightOf_nil, h.count_eq]
    split
    · next hkey => rw [eq_of_beq hkey, Int.add_zero]
    · rw [Int.add_zero, Int.add_zero]
  · rw [mem_insert, h.mem_iff]
    simp only [List.mem_append, List.mem_singleton, or_and_right, exists_or, exists_eq_left]
    exact or_comm

theorem Sums.addAll {more : List Entry} (h : Sums group units t)
    (run : (more.map fun unit => ⟨group unit.key, unit.count⟩).foldlM Tally.add t = .ok t') :
    Sums group (units ++ more) t' := by
  rw [List.foldlM_map] at run
  exact Checked.past_foldlM (fun h _ ha => h.add ha) h (fun _ _ => trivial) run

/-- **Every tally of grouped records has the weights of the groups.** -/
theorem sums_of_ofRecords
    (h : ofRecords (units.map fun unit => ⟨group unit.key, unit.count⟩) = .ok t) :
    Sums group units t :=
  (sums_empty group).addAll h

/-- A unit can be added as long as the weight of all keys fits a count. -/
theorem Sums.exists_add (h : Sums group units t) (hpos : ∀ other ∈ units ++ [unit], 0 ≤ other.count)
    (htotal : weightOf allKeys (units ++ [unit]) ≤ Count.greatest) :
    ∃ t', t.add ⟨group unit.key, unit.count⟩ = .ok t' := by
  have hunit := hpos unit (List.mem_append_right units List.mem_cons_self)
  have hgroup : 0 ≤ weightOf (group · == group unit.key) units :=
    weightOf_nonneg fun other ho => hpos other (List.mem_append_left [unit] ho)
  -- the new sum is the weight of a group, which is part of the weight of all keys
  have hle := @weightOf_le_all (group · == group unit.key) _ hpos
  rw [weightOf_append, weightOf_cons, weightOf_nil, if_pos (beq_self_eq_true _)] at hle
  have hfits : Count.Fits (t.count (group unit.key) + unit.count) := by
    rw [h.count_eq, Count.fits_iff]
    unfold Count.greatest at htotal
    omega
  exact ⟨_, Checked.bind_eq_ok.mpr ⟨_, Count.plus_eq_ok_iff.mpr ⟨hfits, rfl⟩, rfl⟩⟩

theorem Sums.exists_addAll {more : List Entry} (h : Sums group units t)
    (hpos : ∀ unit ∈ units ++ more, 0 ≤ unit.count)
    (htotal : weightOf allKeys (units ++ more) ≤ Count.greatest) :
    ∃ t', (more.map fun unit => ⟨group unit.key, unit.count⟩).foldlM Tally.add t = .ok t' := by
  induction more generalizing units t with
  | nil => exact ⟨t, rfl⟩
  | cons unit more ih =>
    rw [List.append_cons] at hpos htotal
    have hmore : 0 ≤ weightOf allKeys more :=
      weightOf_nonneg fun other ho => hpos other (List.mem_append_right _ ho)
    have hpast : weightOf allKeys (units ++ [unit]) ≤ Count.greatest := by
      rw [weightOf_append] at htotal
      omega
    obtain ⟨t₁, ha⟩ := h.exists_add
      (fun other ho => hpos other (List.mem_append_left more ho)) hpast
    obtain ⟨t', run⟩ := ih (h.add ha) hpos htotal
    exact ⟨t', Checked.bind_eq_ok.mpr ⟨t₁, ha, run⟩⟩

/-- There is a tally if the weight of all keys fits a count. -/
theorem exists_ofRecords (group : Key → κ) (hpos : ∀ unit ∈ units, 0 ≤ unit.count)
    (htotal : weightOf allKeys units ≤ Count.greatest) :
    ∃ t, ofRecords (units.map fun unit => ⟨group unit.key, unit.count⟩) = .ok t :=
  (sums_empty group).exists_addAll hpos htotal

/-- A tally of units with weight has only positive sums. -/
theorem Sums.count_pos (h : Sums group units t) (hpos : ∀ unit ∈ units, 1 ≤ unit.count) {key : κ}
    (hkey : key ∈ t) : 0 < t.count key := by
  obtain ⟨unit, hu, rfl⟩ := (h.mem_iff key).mp hkey
  have hnonneg : ∀ other ∈ units, 0 ≤ other.count := fun other ho =>
    Int.le_trans (by decide) (hpos other ho)
  have hle : unit.count ≤ weightOf (group · == group unit.key) units :=
    le_weightOf_of_mem hnonneg hu (beq_self_eq_true _)
  have := hpos unit hu
  rw [h.count_eq]
  omega

omit [Std.TransOrd κ] [Std.LawfulEqOrd κ] [LawfulBEq κ] in
/-- Other units that weigh the same in every group and leave no group out have the same sums. -/
theorem Sums.congr {others : List Entry} (h : Sums group units t)
    (hweight : ∀ key, weightOf (group · == key) units = weightOf (group · == key) others)
    (hmem : ∀ key, (∃ unit ∈ units, group unit.key = key) ↔ ∃ unit ∈ others, group unit.key = key) :
    Sums group others t :=
  ⟨fun key => (h.count_eq key).trans (hweight key), fun key => (h.mem_iff key).trans (hmem key)⟩

omit [LawfulBEq κ] in
theorem Sums.mem_ranking_keys_iff (h : Sums group units t) {key : κ} :
    key ∈ t.ranking.map (·.key) ↔ ∃ unit ∈ units, group unit.key = key := by
  rw [← h.mem_iff, List.mem_map]
  constructor
  · rintro ⟨r, hr, rfl⟩
    exact mem_of_mem_ranking hr
  · intro hkey
    exact ⟨⟨key, t.count key⟩, mem_ranking_iff.mpr (getElem?_eq_some_of_mem hkey), rfl⟩

/-- The sums of all groups are the weight of all keys. -/
theorem Sums.sum_ranking (h : Sums group units t) :
    (t.ranking.map (·.count)).sum = weightOf allKeys units := by
  have hcounts : t.ranking.map (·.count)
      = (t.ranking.map (·.key)).map fun value => weightOf (group · == value) units := by
    rw [List.map_map]
    exact List.map_congr_left fun r hr => (count_of_mem_ranking hr).symm.trans (h.count_eq r.key)
  rw [hcounts, sum_map_weightOf group t.nodup_ranking]
  -- every unit is in a group that is listed
  exact weightOf_congr_left fun unit hu =>
    List.contains_iff_mem.mpr (h.mem_ranking_keys_iff.mpr ⟨unit, hu, rfl⟩)

end Tally

/-- Units grouped by their keys are the units. -/
theorem map_record_id (units : List Entry) :
    (units.map fun unit => ⟨id unit.key, unit.count⟩) = units :=
  List.map_id units

/-- Merging ranks the tally in which every key is its own group. -/
theorem mergeRanked_eq_ok_iff {units ranking : List Entry} :
    mergeRanked units = .ok ranking ↔ ∃ t : Tally Key,
      Tally.ofRecords (units.map fun unit => ⟨id unit.key, unit.count⟩) = .ok t ∧
        t.ranking = ranking := by
  rw [map_record_id]
  exact Checked.map_eq_ok

end HeavyHitters
