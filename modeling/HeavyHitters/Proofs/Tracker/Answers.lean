import HeavyHitters.Proofs.Tally
import HeavyHitters.Proofs.Tracker.Conservation
import HeavyHitters.Proofs.Tracker.SpaceSaving.Steps
import HeavyHitters.Proofs.VoteBucket
import HeavyHitters.Tracker.VoteTracker
import Mathlib.Algebra.BigOperators.Group.Finset.Piecewise
import Mathlib.Data.FinEnum

/-!
# Queries, rankings and sums by network

A query looks at one cell for a key in each part of a tracker, the ranking and the sums by network
are read off all residents.  The answers agree nevertheless: a listed key has the listed count as
its answer, all others have 0, and the sum of a network is that of the answers for its keys.

* `Tracker.Reads` is an invariant under which the answers of a tracker are about its residents, and
  `FreshTracker.reads` says that every tracker has one as it is built.
* `Tracker.Consistent` is the agreement of the answers, and `Tracker.consistent_of_insertAll`
  says that every run leads to it.
-/

namespace HeavyHitters

/-- The weight of a group of keys is that of its keys one by one. -/
theorem sum_weightOf {κ : Type} [DecidableEq κ] (group : Key → κ) (value : κ) (units : List Entry) :
    ∑ key with group key = value,
    weightOf (· == key) units = weightOf (group · == value) units := by
  rw [weightOf_eq_sum fun unit _ => Finset.mem_univ unit.key]
  simp only [beq_iff_eq]

namespace Tracker

variable {τ : Type} [Tracker τ] {t t' : τ} {Inv : τ → Prop}

/-- An invariant of a tracker under which its answers are about its residents. -/
structure Reads (Inv : τ → Prop) : Prop where
  positive : ∀ {t : τ}, Inv t → ∀ e ∈ residents t, 1 ≤ e.count
  query_eq : ∀ {t : τ}, Inv t → ∀ key,
    query t key = Count.narrow .add (weightOf (· == key) (residents t))
  networks_eq : ∀ {t : τ}, Inv t → networks t = networkTally (residents t)
  inv_insert : ∀ {t t' : τ} {key : Key} {out : Option Entry}, Inv t →
    insert t key = .ok (t', out) → Inv t'

/-- A tracker that keeps an account has such an invariant. -/
theorem Accounts.reads {R : Int → Int → Prop} (h : Accounts R Inv)
    (hnetworks : ∀ t : τ, networks t = networkTally (residents t)) : Reads Inv where
  positive := h.positive
  query_eq := h.query_eq
  networks_eq {t} _ := hnetworks t
  inv_insert := h.inv_insert

/-- A query has the weight of the key as its answer, if the resident weight fits a count. -/
theorem Reads.query_eq_ok (h : Reads Inv) (ht : Inv t)
    (hfits : weightOf allKeys (residents t) ≤ Count.greatest) (key : Key) :
    query t key = .ok (weightOf (· == key) (residents t)) := by
  have hnonneg : ∀ e ∈ residents t, 0 ≤ e.count := fun e he =>
    Int.le_trans (by decide) (h.positive ht e he)
  have hlow : 0 ≤ weightOf (· == key) (residents t) := weightOf_nonneg hnonneg
  have hhigh := @weightOf_le_all (· == key) _ hnonneg
  rw [h.query_eq ht key]
  refine Count.narrow_of_fits ⟨?_, by omega⟩
  unfold Count.least
  omega

/-- What a tracker answers to queries, as a ranking and as sums by network. -/
structure Consistent (t : τ) (answer : Key → Int) (ranking : List (Record Key))
    (tally : Tally Network) : Prop where
  query_eq : ∀ key, query t key = .ok (answer key)
  topK_eq : topK t = .ok ranking
  /-- The sums are those of the first request. -/
  networkTally_eq : ∀ o : ObservedTracker τ, o.state = t → o.answer = none →
    o.networkTally = .ok (tally, { o with answer := some tally })
  /-- No key is listed twice. -/
  nodup_ranking : (ranking.map (·.key)).Nodup
  ranking_positive : ∀ r ∈ ranking, 0 < r.count
  /-- The greater counts are listed first, and equal ones by ascending key. -/
  pairwise_ranking : ranking.Pairwise fun r s =>
    s.count < r.count ∨ s.count = r.count ∧ r.key < s.key
  /-- A listed key has the listed count as its answer. -/
  answer_eq_count : ∀ r ∈ ranking, answer r.key = r.count
  /-- All others have 0. -/
  answer_eq_zero : ∀ key, (∀ r ∈ ranking, r.key ≠ key) → answer key = 0
  /-- The networks are those of the residents. -/
  mem_tally_iff : ∀ network, network ∈ tally ↔ ∃ e ∈ residents t, networkOf e.key = network
  /-- The sum of a network is that of the answers for its keys. -/
  tally_count_eq : ∀ network, tally.count network = ∑ key with networkOf key = network, answer key

theorem networkTally_eq_of_networks {tally : Tally Network} (h : networks t = .ok tally)
    (o : ObservedTracker τ) (hstate : o.state = t) (hanswer : o.answer = none) :
    o.networkTally = .ok (tally, { o with answer := some tally }) := by
  unfold ObservedTracker.networkTally Observed.ask
  rw [hanswer]
  dsimp only
  rw [hstate, h]
  rfl

/-- **Under such an invariant the answers agree**, if the resident weight fits a count. -/
theorem Reads.exists_consistent (h : Reads Inv) (ht : Inv t)
    (hfits : ((residents t).map (·.count)).sum ≤ Count.greatest) :
    ∃ answer ranking tally, Consistent t answer ranking tally := by
  have hpos := h.positive ht
  have hnonneg : ∀ e ∈ residents t, 0 ≤ e.count := fun e he =>
    Int.le_trans (by decide) (hpos e he)
  rw [← weightOf_allKeys] at hfits
  -- the same residents are tallied twice, by key and by network
  obtain ⟨merged, hmerged⟩ := Tally.exists_ofRecords id hnonneg hfits
  obtain ⟨tally, htally⟩ := Tally.exists_ofRecords networkOf hnonneg hfits
  have hmergedSums : merged.Sums id (residents t) := Tally.sums_of_ofRecords hmerged
  have hsums : tally.Sums networkOf (residents t) := Tally.sums_of_ofRecords htally
  have hanswer : ∀ key, merged.count key = weightOf (· == key) (residents t) := hmergedSums.count_eq
  refine ⟨merged.count, merged.ranking, tally, ?_, ?_, ?_, merged.nodup_ranking, ?_, ?_, ?_, ?_,
    hsums.mem_iff, ?_⟩
  · intro key
    rw [h.query_eq_ok ht hfits key, hanswer key]
  · exact mergeRanked_eq_ok_iff.mpr ⟨merged, hmerged, rfl⟩
  · exact networkTally_eq_of_networks ((h.networks_eq ht).trans htally)
  · intro r hr
    rw [← Tally.count_of_mem_ranking hr]
    exact hmergedSums.count_pos hpos (Tally.mem_of_mem_ranking hr)
  · exact merged.pairwise_ranking.imp Record.rankCompare_eq_lt_iff.mp
  · exact fun r hr => Tally.count_of_mem_ranking hr
  · exact fun key hkey => Tally.count_eq_zero hkey
  · intro network
    rw [hsums.count_eq, ← sum_weightOf]
    exact Finset.sum_congr rfl fun key _ => (hanswer key).symm

end Tracker

/-- A tracker of which nothing was asked does not become observed by inserts. -/
theorem ObservedTracker.insertAll_fresh {τ : Type} [Tracker τ] {t t' : τ} {keys : List Key}
    {outs : List (Option Entry)} (run : Tracker.insertAll t keys = .ok (t', outs)) :
    Tracker.insertAll (Observed.fresh t : ObservedTracker τ) keys
      = .ok (Observed.fresh t', outs) := by
  induction keys generalizing t outs with
  | nil =>
    obtain ⟨rfl, rfl⟩ := Prod.mk.inj (Except.ok.inj run)
    rfl
  | cons key keys ih =>
    obtain ⟨t₁, out, rest, hinsert, hrest, rfl⟩ := Tracker.insertAll_cons_eq_ok.mp run
    have hobserved : Tracker.insert (Observed.fresh t : ObservedTracker τ) key
        = .ok (Observed.fresh t₁, out) := by
      show Observed.run _ _ = _
      rw [Observed.run_eq]
      show (Tracker.insert t key).map _ = _
      rw [hinsert]
      rfl
    exact Tracker.insertAll_cons_eq_ok.mpr ⟨_, out, rest, hobserved, ih hrest, rfl⟩

/-! ## As they are built -/

namespace VoteTracker

theorem reads : Tracker.Reads fun t : VoteTracker => TablePlaced t.rows where
  positive ht := ht.positive
  query_eq ht := ht.weight_eq
  networks_eq _ := rfl
  inv_insert ht hi := by
    obtain ⟨⟨rows, out, more⟩, hoffer, h⟩ := Checked.bind_eq_ok.mp hi
    obtain ⟨rfl, -⟩ := Prod.mk.inj (Checked.pure_eq_ok.mp h)
    exact VoteBucket.placed_of_offerAll ht (Int.le_refl 1) hoffer

theorem placed_of_ofBudget {memory : Nat} {seed : UInt64} {t : VoteTracker}
    (h : ofBudget memory seed = .ok t) : TablePlaced t.rows := by
  obtain ⟨length, -, hlength, -, rfl⟩ := exists_length_of_budget h
  exact (tablePlaced_table _ hlength rfl).1

end VoteTracker

/-- A tracker of one of the five kinds, as it is built from a budget and a seed. -/
inductive FreshTracker : (τ : Type) → [Tracker τ] → τ → Prop where
  | pipeline {τ : Type} [Tracker τ] {t : τ} (fresh : FreshPipeline τ t) : FreshTracker τ t
  | vote {memory : Nat} {seed : UInt64} {t : VoteTracker}
      (built : VoteTracker.ofBudget memory seed = .ok t) : FreshTracker VoteTracker t
  | spaceSaving {memory : Nat} {t : SpaceSaving} (built : SpaceSaving.ofBudget memory = .ok t) :
      FreshTracker SpaceSaving t

/-- Every pipeline sums its residents up by network. -/
theorem FreshPipeline.networks_eq {τ : Type} [Tracker τ] {start : τ} (h : FreshPipeline τ start)
    (t : τ) : Tracker.networks t = networkTally (Tracker.residents t) := by
  cases h <;> rfl

/-- A built tracker has an invariant under which its answers are about its residents. -/
theorem FreshTracker.reads {τ : Type} [Tracker τ] {start : τ} (h : FreshTracker τ start) :
    ∃ Inv : τ → Prop, Tracker.Reads Inv ∧ Inv start := by
  cases h with
  | pipeline fresh =>
    obtain ⟨Inv, hc, hstart, -⟩ := fresh.conserves
    exact ⟨Inv, hc.reads fresh.networks_eq, hstart⟩
  | vote built => exact ⟨_, VoteTracker.reads, VoteTracker.placed_of_ofBudget built⟩
  | spaceSaving built =>
    exact ⟨_, SpaceSaving.retains.reads fun _ => rfl, (SpaceSaving.fresh_of_ofBudget built).1⟩

namespace Tracker

variable {τ : Type} [Tracker τ]

/-- **Queries, ranking and sums by network agree** after every run whose
resident weight fits a count. -/
theorem consistent_of_insertAll {start t : τ} {keys : List Key} {outs : List (Option Entry)}
    (fresh : FreshTracker τ start) (run : insertAll start keys = .ok (t, outs))
    (hfits : ((residents t).map (·.count)).sum ≤ Count.greatest) :
    ∃ answer ranking tally, Consistent t answer ranking tally := by
  obtain ⟨Inv, hreads, hstart⟩ := fresh.reads
  exact hreads.exists_consistent (inv_insertAll hreads.inv_insert hstart run) hfits

/-- A vote tracker with one bucket in each row: the key 65537 takes the first one over from 7 and
keeps the second, so it is resident twice. -/
theorem consistent_of_insertAll_vote : ∃ (start t : VoteTracker) (outs : List (Option Entry)),
    FreshTracker VoteTracker start ∧
      insertAll start (7 :: List.replicate 31 65537 ++ [7, 7]) = .ok (t, outs) ∧
      residents t = [⟨65537, 2⟩, ⟨65537, 30⟩, ⟨7, 3⟩] ∧
      ((residents t).map (·.count)).sum ≤ Count.greatest ∧
      ∃ answer ranking tally, Consistent t answer ranking tally := by
  have hrun : (do
      let start ← VoteTracker.ofBudget 48 1
      let result ← Outcome.ofChecked (insertAll start (7 :: List.replicate 31 65537 ++ [7, 7]))
      return residents result.1 : Outcome (List Entry))
        = .ok [⟨65537, 2⟩, ⟨65537, 30⟩, ⟨7, 3⟩] := by decide +kernel
  obtain ⟨start, built, hrun⟩ := Checked.bind_eq_ok.mp hrun
  obtain ⟨⟨t, outs⟩, run, hrun⟩ := Checked.bind_eq_ok.mp hrun
  have run := Outcome.ofChecked_eq_ok.mp run
  have hresidents := Checked.pure_eq_ok.mp hrun
  have hfits : ((residents t).map (·.count)).sum ≤ Count.greatest := by
    rw [hresidents]
    decide
  exact ⟨start, t, outs, .vote built, run, hresidents, hfits,
    consistent_of_insertAll (.vote built) run hfits⟩

end Tracker

end HeavyHitters
