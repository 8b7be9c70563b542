import HeavyHitters.Estimator.Basic
import HeavyHitters.Proofs.Counts
import HeavyHitters.Proofs.Tally
import Mathlib.Data.List.Nodup

/-!
# Rankings of what is answered

A ranking and the answers to queries belong together if the ranking lists each key with its answer
and leaves out only keys with the answer 0.  Where records are added up by key, either all sums fit,
and then this is so, or the sum of some key does not fit, and then there is no ranking.

* `RankingOf` is a ranking that belongs to answers, and `rankingOf_rank` makes one by sorting.
* `mergeRanked_cases` is the alternative for records that are added up.
* `Ranks` and `Overflows` are the two cases as a caller sees them, and
  `AddsUp` says when each of them comes.
-/

namespace HeavyHitters

/-- A ranking that lists each key once, by descending count and then by ascending key, with the
count that is answered for it; all other keys have the answer 0. -/
structure RankingOf (answer : Key → Int) (ranking : List (Record Key)) : Prop where
  nodup : (ranking.map (·.key)).Nodup
  pairwise : ranking.Pairwise fun r s => s.count < r.count ∨ s.count = r.count ∧ r.key < s.key
  nonneg : ∀ r ∈ ranking, 0 ≤ r.count
  answer_eq_count : ∀ r ∈ ranking, answer r.key = r.count
  answer_eq_zero : ∀ key, (∀ r ∈ ranking, r.key ≠ key) → answer key = 0

/-- Records of pairwise distinct keys become a ranking of their counts. -/
theorem rankingOf_rank {answer : Key → Int} {records : List (Record Key)}
    (hnodup : (records.map (·.key)).Nodup) (hnonneg : ∀ r ∈ records, 0 ≤ r.count)
    (hcount : ∀ r ∈ records, answer r.key = r.count)
    (hzero : ∀ key, (∀ r ∈ records, r.key ≠ key) → answer key = 0) :
    RankingOf answer (rank records) := by
  have hmem : ∀ {r}, r ∈ rank records ↔ r ∈ records := (rank_perm records).mem_iff
  refine ⟨((rank_perm records).map _).nodup_iff.mpr hnodup, ?_, ?_, ?_, ?_⟩
  · exact (pairwise_rank_of_nodup hnodup).imp Record.rankCompare_eq_lt_iff.mp
  · exact fun r hr => hnonneg r (hmem.mp hr)
  · exact fun r hr => hcount r (hmem.mp hr)
  · exact fun key hkey => hzero key fun r hr => hkey r (hmem.mpr hr)

/-- The ranking of a tally belongs to its sums. -/
theorem Tally.rankingOf {t : Tally Key} (hnonneg : ∀ key, 0 ≤ t.count key) :
    RankingOf t.count t.ranking where
  nodup := t.nodup_ranking
  pairwise := t.pairwise_ranking.imp Record.rankCompare_eq_lt_iff.mp
  nonneg r hr := by
    rw [← count_of_mem_ranking hr]
    exact hnonneg r.key
  answer_eq_count _ hr := count_of_mem_ranking hr
  answer_eq_zero _ hkey := count_eq_zero hkey

/-- In a ranking a key weighs what is answered for it. -/
theorem RankingOf.weightOf_eq {answer : Key → Int} {ranking : List (Record Key)}
    (h : RankingOf answer ranking) (key : Key) : weightOf (· == key) ranking = answer key := by
  by_cases hlisted : ∃ r ∈ ranking, r.key = key
  · obtain ⟨r, hr, rfl⟩ := hlisted
    obtain ⟨before, after, rfl⟩ := List.append_of_mem hr
    have hnodup := h.nodup
    rw [List.map_append, List.map_cons, List.nodup_middle, List.nodup_cons,
      ← List.map_append] at hnodup
    -- the key has no other record
    have hrest : weightOf (· == r.key) (before ++ after) = 0 := by
      refine weightOf_eq_zero fun s hs => ?_
      refine beq_eq_false_iff_ne.mpr fun heq => hnodup.1 ?_
      exact heq ▸ List.mem_map_of_mem hs
    rw [weightOf_append] at hrest
    rw [weightOf_append, weightOf_cons, if_pos (beq_self_eq_true _), h.answer_eq_count r hr]
    omega
  · have hne : ∀ r ∈ ranking, r.key ≠ key := fun r hr hk => hlisted ⟨r, hr, hk⟩
    rw [h.answer_eq_zero key hne]
    exact weightOf_eq_zero fun r hr => beq_eq_false_iff_ne.mpr (hne r hr)

/-! ## Sums that fit or do not -/

namespace Tally

variable {κ : Type} [Ord κ] [Std.TransOrd κ] [Std.LawfulEqOrd κ] [BEq κ] [LawfulBEq κ]
  {group : Key → κ} {t : Tally κ} {units more : List Entry}

/-- Units are added as long as the sum of every group fits; the first sum
that does not fit ends the run. -/
theorem Sums.addAll_cases (h : Sums group units t) (hpos : ∀ unit ∈ units ++ more, 0 ≤ unit.count)
    (hfits : ∀ key, weightOf (group · == key) units ≤ Count.greatest) :
    ((∃ t', (more.map fun unit => ⟨group unit.key, unit.count⟩).foldlM Tally.add t = .ok t') ∧
        ∀ key, weightOf (group · == key) (units ++ more) ≤ Count.greatest) ∨
      (more.map fun unit => ⟨group unit.key, unit.count⟩).foldlM Tally.add t
          = .error (.overflow .add) ∧
        ∃ key, Count.greatest < weightOf (group · == key) (units ++ more) := by
  induction more generalizing units t with
  | nil => exact .inl ⟨⟨t, rfl⟩, by rwa [List.append_nil]⟩
  | cons unit more ih =>
    rw [List.append_cons] at hpos ⊢
    rw [List.map_cons, List.foldlM_cons]
    have hunits : ∀ other ∈ units, 0 ≤ other.count := fun other ho =>
      hpos other (List.mem_append_left more (List.mem_append_left [unit] ho))
    have hunit : 0 ≤ unit.count :=
      hpos unit (List.mem_append_left more (List.mem_append_right units List.mem_cons_self))
    have hsum : 0 ≤ weightOf (group · == group unit.key) units := weightOf_nonneg hunits
    by_cases hadd : weightOf (group · == group unit.key) units + unit.count ≤ Count.greatest
    · -- the sum of the unit's group fits, and no other sum has changed
      have hplus : Count.Fits (t.count (group unit.key) + unit.count) := by
        rw [h.count_eq, Count.fits_iff]
        unfold Count.greatest at hadd
        omega
      have ha : t.add ⟨group unit.key, unit.count⟩ = .ok (t.insert (group unit.key) _) :=
        Checked.bind_eq_ok.mpr ⟨_, Count.plus_eq_ok_iff.mpr ⟨hplus, rfl⟩, rfl⟩
      rw [ha]
      refine ih (h.add ha) hpos fun key => ?_
      rw [weightOf_append, weightOf_cons, weightOf_nil]
      split
      · next hkey =>
        rw [← eq_of_beq hkey]
        omega
      · have := hfits key
        omega
    · refine .inr ⟨?_, group unit.key, ?_⟩
      · have hplus : Count.plus (t.count (group unit.key)) unit.count
            = .error (.overflow .add) := by
          rw [h.count_eq]
          exact Count.narrow_of_greatest_lt (by omega)
        have ha : t.add ⟨group unit.key, unit.count⟩ = .error (.overflow .add) := by
          unfold Tally.add
          dsimp only
          rw [hplus]
          rfl
        rw [ha]
        rfl
      · have hmore : 0 ≤ weightOf (group · == group unit.key) more :=
          weightOf_nonneg fun other ho => hpos other (List.mem_append_right _ ho)
        rw [weightOf_append, weightOf_append, weightOf_cons, weightOf_nil,
          if_pos (beq_self_eq_true _)]
        omega

/-- There is a tally exactly if the weight of every group fits a count. -/
theorem ofRecords_cases (group : Key → κ) (hpos : ∀ unit ∈ units, 0 ≤ unit.count) :
    ((∃ t, ofRecords (units.map fun unit => ⟨group unit.key, unit.count⟩) = .ok t) ∧
        ∀ key, weightOf (group · == key) units ≤ Count.greatest) ∨
      ofRecords (units.map fun unit => ⟨group unit.key, unit.count⟩) = .error (.overflow .add) ∧
        ∃ key, Count.greatest < weightOf (group · == key) units :=
  (sums_empty group).addAll_cases hpos fun _ => by
    rw [weightOf_nil]
    decide

end Tally

/-- **Records are added up to a ranking of the weights**, unless the
weight of a key does not fit. -/
theorem mergeRanked_cases {units : List Entry} (hpos : ∀ unit ∈ units, 0 ≤ unit.count) :
    (∃ ranking, mergeRanked units = .ok ranking ∧
        RankingOf (fun key => weightOf (· == key) units) ranking ∧
        ∀ key, weightOf (· == key) units ≤ Count.greatest) ∨
      mergeRanked units = .error (.overflow .add) ∧
        ∃ key, Count.greatest < weightOf (· == key) units := by
  rcases Tally.ofRecords_cases id hpos with ⟨⟨t, ht⟩, hfits⟩ | ⟨herror, hkey⟩
  · have hsums : t.Sums id units := Tally.sums_of_ofRecords ht
    have hcount : t.count = fun key => weightOf (· == key) units := funext hsums.count_eq
    refine .inl ⟨t.ranking, mergeRanked_eq_ok_iff.mpr ⟨t, ht, rfl⟩, ?_, hfits⟩
    rw [← hcount]
    refine Tally.rankingOf fun key => ?_
    rw [hcount]
    exact weightOf_nonneg hpos
  · refine .inr ⟨?_, hkey⟩
    rw [map_record_id] at herror
    unfold mergeRanked
    rw [herror]
    rfl

/-! ## What a caller sees -/

/-- The failure of a sum that does not fit. -/
def sumOverflow : Failure := .fault (.overflow .add)

/-- All queries are answered, and the ranking belongs to the answers. -/
def Ranks (query : Key → Outcome Int) (topK : Outcome (List (Record Key))) : Prop :=
  ∃ answer ranking, (∀ key, query key = .ok (answer key)) ∧ topK = .ok ranking ∧
    RankingOf answer ranking

/-- A sum does not fit, and neither the ranking nor the query of its key has a value. -/
def Overflows (query : Key → Outcome Int) (topK : Outcome (List (Record Key))) : Prop :=
  topK = .error sumOverflow ∧ ∃ key, query key = .error sumOverflow

theorem ofChecked_narrow_of_le {n : Int} (hn : 0 ≤ n) (h : n ≤ Count.greatest) :
    Outcome.ofChecked (Count.narrow .add n) = .ok n := by
  rw [Count.narrow_of_fits ⟨Int.le_trans (by decide) hn, h⟩, Outcome.ofChecked_ok]

theorem ofChecked_narrow_of_lt {n : Int} (h : Count.greatest < n) :
    Outcome.ofChecked (Count.narrow .add n) = .error sumOverflow := by
  rw [Count.narrow_of_greatest_lt h]
  rfl

/-- A query and a ranking that add the same units up by key.  They belong together if every sum
fits, and overflow if the sum of some key does not. -/
def AddsUp (units : List Entry) (query : Key → Outcome Int)
    (topK : Outcome (List (Record Key))) : Prop :=
  Ranks query topK ∧ (∀ key, weightOf (· == key) units ≤ Count.greatest) ∨
    Overflows query topK ∧ ∃ key, Count.greatest < weightOf (· == key) units

theorem AddsUp.ranks_or_overflows {units : List Entry} {query : Key → Outcome Int}
    {topK : Outcome (List (Record Key))} (h : AddsUp units query topK) :
    Ranks query topK ∨ Overflows query topK :=
  h.imp And.left And.left

theorem addsUp_of_sums {units : List Entry} (hpos : ∀ unit ∈ units, 0 ≤ unit.count) :
    AddsUp units (fun key => Outcome.ofChecked (Count.narrow .add (weightOf (· == key) units)))
      (Outcome.ofChecked (mergeRanked units)) := by
  rcases mergeRanked_cases hpos with ⟨ranking, hmerge, hranking, hfits⟩ | ⟨hmerge, key, hlt⟩
  · refine .inl ⟨⟨_, ranking, fun key => ?_, by rw [hmerge, Outcome.ofChecked_ok], hranking⟩, hfits⟩
    exact ofChecked_narrow_of_le (weightOf_nonneg hpos) (hfits key)
  · exact .inr ⟨⟨by rw [hmerge]; rfl, key, ofChecked_narrow_of_lt hlt⟩, key, hlt⟩

/-- What ranks its answers without an addition. -/
theorem Ranks.addsUp_nil {query : Key → Outcome Int} {topK : Outcome (List (Record Key))}
    (h : Ranks query topK) : AddsUp [] query topK :=
  .inl ⟨h, fun _ => by rw [weightOf_nil]; decide⟩

end HeavyHitters
