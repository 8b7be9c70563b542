import HeavyHitters.Proofs.Scoring
import HeavyHitters.Proofs.Trace.Rankings
import HeavyHitters.Proofs.Tracker.Answers

/-!
# Tables with room for all keys

A Space-Saving table that has a counter for every key it meets never gives one up, and counts
exactly.  Fed with a trace, a new table of that size holds the records of the trace, so what is read
off it is the truth: queries, both rankings, and the scores.  The ranking of the networks adds
counters up, so this one holds as far as the sums fit.

What carries the induction is that the table is full only when it holds as many keys as will ever
come.

* `SpaceSaving.Exact` is an exact table, and `SpaceSaving.Exact.exists_insertAll` is the run that
  leads to it.
* `SpaceSaving.Exact.residents_perm` compares the counters with the records of the flows.
* `SpaceSaving.Reproduces` is the agreement with a trace, and `SpaceSaving.reproduces_of_feed` says
  that it is reached from a new table with room for the trace.
* `SpaceSaving.exists_unsummable` is where the sums end: two flows that fit their counters, in a
  network that does not fit one.
-/

namespace HeavyHitters

namespace SpaceSaving

variable {t t' : SpaceSaving} {key : Key} {past keys : List Key}

/-! ## Exact tables -/

/-- A table that has the number of units of every key that was inserted, and no other key. -/
structure Exact (past : List Key) (t : SpaceSaving) : Prop extends Sound t where
  getElem?_eq : ∀ key, t.counts[key]? = if key ∈ past then some (past.count key : Int) else none

theorem exact_empty {capacity : Nat} (hc : 0 < capacity) : Exact [] (empty capacity) :=
  { sound_empty hc with getElem?_eq := fun key => by simp [empty] }

theorem Exact.query_eq (h : Exact past t) (key : Key) : t.query key = past.count key := by
  rw [query, Std.TreeMap.getD_eq_getD_getElem?, h.getElem?_eq]
  split
  · rw [Option.getD_some]
  · next hkey => rw [Option.getD_none, List.count_eq_zero.mpr hkey, Int.natCast_zero]

/-- An exact table has one counter for each key. -/
theorem Exact.size_eq (h : Exact past t) : t.size = past.toFinset.card := by
  refine Tally.size_eq_card fun key => ?_
  rw [mem_counts_iff, h.getElem?_eq]
  by_cases hkey : key ∈ past <;> simp [hkey]

/-- With room for the key an insert carries nothing out, and the key's counter
goes on from its exact count. -/
theorem Exact.exists_step (h : Exact past t) (hroom : (past ++ [key]).toFinset.card ≤ t.capacity)
    (hfits : (past.count key : Int) + 1 ≤ Count.greatest) :
    ∃ t', t.insert key = .ok (t', none) ∧ Step t key (past.count key) t' none := by
  have hget := h.getElem?_eq key
  by_cases hkey : key ∈ past
  · rw [if_pos hkey] at hget
    have hplus := h.plus_one (h.mem_of_getElem? hget) hfits
    dsimp only at hplus
    exact ⟨_, by rw [insert, hget]; dsimp only; rw [hplus]; rfl, .raised hget hfits⟩
  · rw [if_neg hkey] at hget
    have hcount : past.count key = 0 := List.count_eq_zero.mpr hkey
    -- the key is a new one, so there are fewer counters than there will be keys
    have hfree : t.size < t.capacity := by
      rw [toFinset_append_singleton, Finset.card_insert_of_notMem (by simpa using hkey)] at hroom
      rw [h.size_eq]
      omega
    rw [hcount]
    exact ⟨_, by rw [insert, hget]; exact if_pos hfree, .admitted hget hfree⟩

theorem Exact.step (h : Exact past t) {old : Int} (hold : old = past.count key)
    (step : Step t key old t' none) : Exact (past ++ [key]) t' := by
  refine { h.toSound.step step with getElem?_eq := fun other => ?_ }
  rw [count_append_singleton]
  by_cases hk : key = other
  · subst hk
    rw [step.getElem?_self, hold]
    simp
  · have hother : t'.counts[other]? = t.counts[other]? := by
      cases step <;> rw [getElem?_move, if_neg hk]
    rw [hother, h.getElem?_eq]
    simp [hk, Ne.symm hk]

/-- **A table with room for all keys stays exact**, and no insert carries anything out. -/
theorem Exact.exists_insertAll (h : Exact past t)
    (hroom : (past ++ keys).toFinset.card ≤ t.capacity)
    (hfits : ∀ key, ((past ++ keys).count key : Int) ≤ Count.greatest) :
    ∃ t' outs, Tracker.insertAll t keys = .ok (t', outs) ∧ (∀ out ∈ outs, out = none) ∧
    Exact (past ++ keys) t' := by
  induction keys generalizing past t with
  | nil => exact ⟨t, [], rfl, by simp, by rwa [List.append_nil]⟩
  | cons key keys ih =>
    rw [List.append_cons] at hroom hfits ⊢
    have hnext : (past ++ [key]).toFinset.card ≤ t.capacity := by
      refine (Finset.card_le_card fun other ho => ?_).trans hroom
      rw [List.mem_toFinset] at ho ⊢
      exact List.mem_append_left keys ho
    have hkey : (past.count key : Int) + 1 ≤ Count.greatest := by
      have := hfits key
      rw [List.count_append, count_append_singleton, if_pos rfl] at this
      omega
    obtain ⟨t₁, hi, step⟩ := h.exists_step hnext hkey
    obtain ⟨t', outs, run, hnone, h'⟩ := ih (h.step rfl step) (step.capacity_eq.symm ▸ hroom) hfits
    refine ⟨t', none :: outs,
      Tracker.insertAll_cons_eq_ok.mpr ⟨t₁, none, outs, hi, run, rfl⟩, ?_, h'⟩
    exact List.forall_mem_cons.mpr ⟨rfl, hnone⟩

/-! ## Agreement with a trace -/

section

variable {trace : Trace}

/-- The counters of an exact table are the records of the flows. -/
theorem Exact.residents_perm (h : Exact keys t) (counted : trace.Counts keys) :
    t.residents.Perm trace.counts.records := by
  refine h.matched.residents_perm.trans ?_
  refine (List.perm_ext_iff_of_nodup (Tally.nodup_records _).of_map
    (Tally.nodup_records _).of_map).mpr fun r => ?_
  rw [Tally.mem_records_iff, Tally.mem_records_iff, h.getElem?_eq, counted.getElem?_eq]

theorem Exact.topK_eq (h : Exact keys t) (counted : trace.Counts keys) :
    Tracker.topK t = .ok trace.ranking :=
  counted.mergeRanked_eq (h.residents_perm counted)

/-- The networks of an exact table have the sums of the trace, or neither has sums that fit. -/
theorem Exact.networkTally_eq (h : Exact keys t) (counted : trace.Counts keys) :
    Tally.ranking <$> networkTally t.residents = trace.networkRanking :=
  counted.regroup_eq (h.residents_perm counted) networkOf

theorem Exact.undercount_eq (h : Exact keys t) (counted : trace.Counts keys) :
    undercount t trace = .ok 0 := by
  have hperm := h.residents_perm counted
  have hweight : ∀ select, weightOf select (Tracker.residents t) = keys.countP select :=
    fun select => (weightOf_perm hperm).trans (counted.weightOf_records select)
  rw [HeavyHitters.undercount_eq counted]
  · rw [← Tracker.weightOf_tracks, hweight, Int.sub_self]
  · exact fun e he => counted.records_nonneg e (hperm.mem_iff.mp he)
  · exact fun key => (hweight _).symm ▸ counted.fits key

/-- A count can hold the packets of every network. -/
def NetworksFit (keys : List Key) : Prop :=
  ∀ network, (keys.countP (networkOf · == network) : Int) ≤ Count.greatest

theorem networksFit_of_length (h : (keys.length : Int) ≤ Count.greatest) : NetworksFit keys :=
  fun _ => (Int.ofNat_le.mpr List.countP_le_length).trans h

/-- What a table tells when it agrees with a trace in everything. -/
structure Reproduces (o : ObservedTracker SpaceSaving) (trace : Trace) : Prop where
  query_eq : ∀ key, Tracker.query o key = .ok (trace.exactCount key)
  topK_eq : Tracker.topK o = .ok trace.ranking
  undercount_eq : undercount o trace = .ok 0
  networkTopK_eq : NetworksFit trace.keys.toList → ∃ ranking after,
    trace.networkRanking = .ok ranking ∧ o.networkTopK = .ok (ranking, after)
  /-- There is a score over as many flows as asked for. -/
  scoreTracker_eq : NetworksFit trace.keys.toList → ∀ k, 1 ≤ k → ∃ card after,
    scoreTracker o trace k = .ok (card, after) ∧ card.tracked = trace.flows ∧
      card.undercount = 0 ∧ card.card.flows.k = min k trace.flows

theorem Exact.networkTopK_eq (h : Exact keys t) (counted : trace.Counts keys) :
    Prod.fst <$> ObservedTracker.networkTopK (Observed.fresh t) = trace.networkRanking := by
  rw [← h.networkTally_eq counted]
  unfold ObservedTracker.networkTopK ObservedTracker.networkTally Observed.ask Observed.fresh
  show Prod.fst <$> ((networkTally t.residents >>= _) >>= _) = _
  cases networkTally t.residents <;> rfl

/-- The flows of a trace are scored, over as many of them as asked for. -/
theorem exists_flowScore (counted : trace.Counts keys) (hne : keys ≠ []) (t : SpaceSaving) {k : Nat}
    (hk : 1 ≤ k) : ∃ flows, score trace.ranking k
      (fun key => Outcome.ofChecked
        (Tracker.query (Observed.fresh t : ObservedTracker SpaceSaving) key))
      (some trace.ranking) = .ok flows ∧ flows.k = min k trace.flows := by
  have hexact := counted.exactRanking_ranking
  obtain ⟨flows, hflows, hflowsK⟩ := exists_score (hexact.ne_nil hne) hk
    (fun r hr => (hexact.positive r hr).ne')
    (fun key => Outcome.ofChecked
      (Tracker.query (Observed.fresh t : ObservedTracker SpaceSaving) key))
    (fun r _ => ⟨t.query r.key, rfl⟩) (some trace.ranking)
  exact ⟨flows, hflows, hflowsK.trans (congrArg _ (Tally.length_ranking _))⟩

/-- The networks are scored, too, if a count can hold the packets of each. -/
theorem Exact.exists_scoreTracker (h : Exact keys t) (counted : trace.Counts keys) (hne : keys ≠ [])
    (hfits : NetworksFit keys) {k : Nat} (hk : 1 ≤ k) : ∃ card after,
      scoreTracker (Observed.fresh t) trace k = .ok (card, after) ∧ card.tracked = trace.flows ∧
        card.undercount = 0 ∧ card.card.flows.k = min k trace.flows := by
  obtain ⟨flows, hflows, hflowsK⟩ := exists_flowScore counted hne t hk
  obtain ⟨truth, hnetworks, hall⟩ := counted.exists_ranking networkOf hfits
  have htruth : trace.networkRanking = .ok truth := hall _ (.refl _)
  obtain ⟨tally, htally, -⟩ := Checked.map_eq_ok.mp ((h.networkTally_eq counted).trans htruth)
  obtain ⟨networks, hscore, -⟩ := exists_score (hnetworks.ne_nil hne) hk
    (fun r hr => (hnetworks.positive r hr).ne') (fun network => .ok (Tally.count tally network))
    (fun r _ => ⟨_, rfl⟩) (some tally.ranking)
  have hasked := Tracker.networkTally_eq_of_networks (t := t) htally (Observed.fresh t) rfl rfl
  exact ⟨_, _, scoreTracker_eq_ok (h.topK_eq counted) hflows htruth hasked hscore
    (h.undercount_eq counted), Tally.length_ranking _, rfl, hflowsK⟩

/-- **An exact table agrees with the trace** of its keys. -/
theorem Exact.reproduces {keys : Array Key} (h : Exact keys.toList t)
    (made : Trace.ofKeys keys = .ok trace) : Reproduces (Observed.fresh t) trace := by
  obtain ⟨hne, hkeys, counted⟩ := Trace.ofKeys_eq_ok made
  rw [← hkeys] at h hne counted
  refine ⟨fun key => ?_, h.topK_eq counted, h.undercount_eq counted, fun hfits => ?_,
    fun hfits k hk => ?_⟩
  · show Except.ok (t.query key) = _
    rw [h.query_eq, counted.exactCount_eq]
  · obtain ⟨ranking, -, hall⟩ := counted.exists_ranking networkOf hfits
    have hranking : trace.networkRanking = .ok ranking := hall _ (.refl _)
    obtain ⟨⟨_, after⟩, hasked, rfl⟩ :=
      Checked.map_eq_ok.mp ((h.networkTopK_eq counted).trans hranking)
    exact ⟨_, after, hranking, hasked⟩
  · exact h.exists_scoreTracker counted hne hfits hk

end

/-- **A new table with room for all flows reproduces the truth**: fed with the packets of a trace
it carries nothing out, and tells in the end what the trace tells. -/
theorem reproduces_of_feed {keys : Array Key} {trace : Trace} {memory : Nat} {start : SpaceSaving}
    (made : Trace.ofKeys keys = .ok trace) (built : ofBudget memory = .ok start)
    (hroom : trace.flows ≤ start.capacity) : ∃ t outs,
      Tracker.feed (Observed.fresh start : ObservedTracker SpaceSaving) keys.toList
        = .ok (Observed.fresh t) ∧
      Tracker.insertAll (Observed.fresh start : ObservedTracker SpaceSaving) keys.toList
        = .ok (Observed.fresh t, outs) ∧
      (∀ out ∈ outs, out = none) ∧ Reproduces (Observed.fresh t) trace := by
  obtain ⟨-, -, counted⟩ := Trace.ofKeys_eq_ok made
  obtain ⟨hcapacity, rfl⟩ := ofBudget_eq_ok built
  rw [counted.flows_eq] at hroom
  obtain ⟨t, outs, run, hnone, h⟩ := (exact_empty hcapacity).exists_insertAll hroom counted.fits
  have run := ObservedTracker.insertAll_fresh run
  refine ⟨t, outs, ?_, run, hnone, h.reproduces made⟩
  rw [Tracker.feed_eq, run]
  rfl

/-- A table of two counters and five packets of two flows in two networks: the table is full in the
end. -/
theorem reproduces_of_feed_full :
    ∃ (trace : Trace) (start t : SpaceSaving) (outs : List (Option Entry)),
      Trace.ofKeys #[7, 65543, 7, 7, 65543] = .ok trace ∧ ofBudget 16 = .ok start ∧
      trace.flows = 2 ∧ start.capacity = 2 ∧
      Tracker.insertAll (Observed.fresh start : ObservedTracker SpaceSaving) [7, 65543, 7, 7, 65543]
        = .ok (Observed.fresh t, outs) ∧
      (∀ out ∈ outs, out = none) ∧ NetworksFit trace.keys.toList ∧
      Reproduces (Observed.fresh t) trace := by
  have hflows : (do return (← Trace.ofKeys #[7, 65543, 7, 7, 65543]).flows : Outcome Nat)
      = .ok 2 := by
    decide +kernel
  obtain ⟨trace, made, hflows⟩ := Checked.bind_eq_ok.mp hflows
  have hflows := Checked.pure_eq_ok.mp hflows
  have built : ofBudget 16 = .ok (empty 2) := rfl
  obtain ⟨-, hkeys, -⟩ := Trace.ofKeys_eq_ok made
  obtain ⟨t, outs, -, run, hnone, h⟩ := reproduces_of_feed made built hflows.le
  have hfits : NetworksFit trace.keys.toList := networksFit_of_length (by rw [hkeys]; decide)
  exact ⟨trace, empty 2, t, outs, made, built, hflows, rfl, run, hnone, hfits, h⟩

/-! ## Two flows that are too large for their network -/

/-- Packets of the keys 0 and 1, which are in one network. -/
def twoFlows (n : Nat) : List Key := List.replicate n 0 ++ List.replicate n 1

theorem count_twoFlows_le (n : Nat) (key : Key) : (twoFlows n).count key ≤ n := by
  rw [twoFlows, List.count_append, List.count_replicate, List.count_replicate]
  by_cases hkey : key = 0
  · subst hkey
    simp
  · have hzero : ((0 : Key) == key) = false := beq_eq_false_iff_ne.mpr (Ne.symm hkey)
    rw [hzero, if_neg Bool.false_ne_true, Nat.zero_add]
    split <;> simp

theorem card_twoFlows {n : Nat} (hn : n ≠ 0) : (twoFlows n).toFinset.card = 2 := by
  rw [twoFlows, List.toFinset_append, List.toFinset_replicate_of_ne_zero hn,
    List.toFinset_replicate_of_ne_zero hn]
  rfl

theorem countP_twoFlows (n : Nat) : (twoFlows n).countP (networkOf · == 0) = n + n := by
  have hzero : (networkOf 0 == 0) = true := rfl
  have hone : (networkOf 1 == 0) = true := rfl
  rw [twoFlows, List.countP_append, List.countP_replicate, List.countP_replicate, hzero, hone]
  rfl

theorem twoFlows_ne_nil {n : Nat} (hn : n ≠ 0) : twoFlows n ≠ [] := by
  intro hnil
  have hcard := card_twoFlows hn
  rw [hnil] at hcard
  cases hcard

/-- There is a trace of them as long as a count can hold the packets of each flow. -/
theorem exists_ofKeys_twoFlows {n : Nat} (hn : n ≠ 0) (hfits : (n : Int) ≤ Count.greatest) :
    ∃ trace, Trace.ofKeys (twoFlows n).toArray = .ok trace ∧ trace.flows = 2 := by
  rcases @Trace.ofKeys_cases (twoFlows n).toArray (twoFlows_ne_nil hn) with
    ⟨⟨trace, made⟩, -⟩ | ⟨-, key, hkey⟩
  · obtain ⟨-, -, counted⟩ := Trace.ofKeys_eq_ok made
    exact ⟨trace, made, counted.flows_eq.trans (card_twoFlows hn)⟩
  · have hle := Int.ofNat_le.mpr (count_twoFlows_le n key)
    exact absurd (hle.trans hfits) (Int.not_le.mpr hkey)

theorem networkRanking_twoFlows {n : Nat} {trace : Trace} (counted : trace.Counts (twoFlows n))
    (hlt : Count.greatest < (n + n : Nat)) : trace.networkRanking = .error (.overflow .add) := by
  rcases counted.regroup_cases (.refl _) networkOf with ⟨-, -, -, hsums⟩ | ⟨herror, -⟩
  · refine absurd (hsums 0) (Int.not_le.mpr ?_)
    rwa [countP_twoFlows]
  · exact herror

/-- Each flow has its counter and its place in the ranking, but nothing can hold the packets of
both, neither the table nor the trace. -/
theorem exists_unsummable {n : Nat} (hn : n ≠ 0) (hfits : (n : Int) ≤ Count.greatest)
    (hlt : Count.greatest < (n + n : Nat)) : ∃ trace t,
      Trace.ofKeys (twoFlows n).toArray = .ok trace ∧ trace.flows = 2 ∧
      Tracker.feed (Observed.fresh (empty 2) : ObservedTracker SpaceSaving) (twoFlows n)
        = .ok (Observed.fresh t) ∧
      trace.networkRanking = .error (.overflow .add) ∧
      ObservedTracker.networkTopK (Observed.fresh t) = .error (.overflow .add) ∧
      ∀ k, 1 ≤ k →
        scoreTracker (Observed.fresh t) trace k = .error (.fault (.overflow .add)) := by
  obtain ⟨trace, made, hflows⟩ := exists_ofKeys_twoFlows hn hfits
  obtain ⟨-, -, counted⟩ := Trace.ofKeys_eq_ok made
  have hranking := networkRanking_twoFlows counted hlt
  have hroom : ([] ++ twoFlows n).toFinset.card ≤ (empty 2).capacity := (card_twoFlows hn).le
  obtain ⟨t, outs, run, -, h⟩ := (exact_empty Nat.two_pos).exists_insertAll hroom fun key =>
    (Int.ofNat_le.mpr (count_twoFlows_le n key)).trans hfits
  refine ⟨trace, t, made, hflows, ?_, hranking, ?_, fun k hk => ?_⟩
  · rw [Tracker.feed_eq, ObservedTracker.insertAll_fresh run]
    rfl
  · exact Checked.map_eq_error.mp ((h.networkTopK_eq counted).trans hranking)
  · obtain ⟨flows, hscored, -⟩ := exists_flowScore counted (twoFlows_ne_nil hn) t hk
    exact scoreTracker_eq_error (h.topK_eq counted) hscored hranking

/-- A table that has met a key of another network before, and that was asked for its networks then,
still tells of that key in the end.  And a new table cannot tell of a network with 2 ^ 30 packets
of each of its two flows. -/
theorem exists_disagreements :
    (∃ (trace : Trace) (start : SpaceSaving) (used o : ObservedTracker SpaceSaving)
        (asked told : List (Record Network) × ObservedTracker SpaceSaving),
      Trace.ofKeys #[65543] = .ok trace ∧ ofBudget 16 = .ok start ∧
      trace.flows = 1 ∧ start.capacity = 2 ∧
      Tracker.feed (Observed.fresh start) [7] = .ok used ∧ used.networkTopK = .ok asked ∧
      Tracker.feed asked.2 [65543] = .ok o ∧
      trace.exactCount 7 = 0 ∧ Tracker.query o 7 = .ok 1 ∧
      trace.networkRanking = .ok [⟨1, 1⟩] ∧ o.networkTopK = .ok told ∧ told.1 = [⟨0, 1⟩]) ∧
    ∃ (trace : Trace) (start t : SpaceSaving),
      Trace.ofKeys (twoFlows 1073741824).toArray = .ok trace ∧ ofBudget 16 = .ok start ∧
      trace.flows = 2 ∧ start.capacity = 2 ∧
      Tracker.feed (Observed.fresh start : ObservedTracker SpaceSaving) (twoFlows 1073741824)
        = .ok (Observed.fresh t) ∧
      trace.networkRanking = .error (.overflow .add) ∧
      ObservedTracker.networkTopK (Observed.fresh t) = .error (.overflow .add) ∧
      scoreTracker (Observed.fresh t) trace 1 = .error (.fault (.overflow .add)) := by
  have built : ofBudget 16 = .ok (empty 2) := rfl
  constructor
  · have hrun : (do
        let trace ← Trace.ofKeys #[65543]
        let used ← Outcome.ofChecked (Tracker.feed (Observed.fresh (empty 2)) [7])
        let asked ← Outcome.ofChecked (ObservedTracker.networkTopK used)
        let o ← Outcome.ofChecked (Tracker.feed asked.2 [65543])
        let count ← Outcome.ofChecked (Tracker.query o 7)
        let truth ← Outcome.ofChecked trace.networkRanking
        let told ← Outcome.ofChecked (ObservedTracker.networkTopK o)
        return ((trace.flows, trace.exactCount 7, count), truth, told.1) :
        Outcome ((Nat × Int × Int) × List (Record Network) × List (Record Network)))
          = .ok ((1, 0, 1), [⟨1, 1⟩], [⟨0, 1⟩]) := by decide +kernel
    obtain ⟨trace, made, hrun⟩ := Checked.bind_eq_ok.mp hrun
    obtain ⟨used, hused, hrun⟩ := Checked.bind_eq_ok.mp hrun
    obtain ⟨asked, hasked, hrun⟩ := Checked.bind_eq_ok.mp hrun
    obtain ⟨o, hfed, hrun⟩ := Checked.bind_eq_ok.mp hrun
    obtain ⟨count, hquery, hrun⟩ := Checked.bind_eq_ok.mp hrun
    obtain ⟨truth, hranking, hrun⟩ := Checked.bind_eq_ok.mp hrun
    obtain ⟨told, htold, hrun⟩ := Checked.bind_eq_ok.mp hrun
    have hrun := Checked.pure_eq_ok.mp hrun
    simp only [Prod.mk.injEq] at hrun
    obtain ⟨⟨hflows, hcount, rfl⟩, rfl, hnetworks⟩ := hrun
    exact ⟨trace, empty 2, used, o, asked, told, made, built, hflows, rfl,
      Outcome.ofChecked_eq_ok.mp hused, Outcome.ofChecked_eq_ok.mp hasked,
      Outcome.ofChecked_eq_ok.mp hfed, hcount, Outcome.ofChecked_eq_ok.mp hquery,
      Outcome.ofChecked_eq_ok.mp hranking, Outcome.ofChecked_eq_ok.mp htold, hnetworks⟩
  · obtain ⟨trace, t, made, hflows, run, hranking, hasked, hscore⟩ :=
      @exists_unsummable 1073741824 (by decide) (by decide) (by decide)
    exact ⟨trace, empty 2, t, made, built, hflows, rfl, run, hranking, hasked, hscore 1 (by decide)⟩

end SpaceSaving

end HeavyHitters
