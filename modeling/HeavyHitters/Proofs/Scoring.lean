import HeavyHitters.Proofs.Trace
import HeavyHitters.Proofs.Tracker.Conservation
import HeavyHitters.Proofs.Tracker.SpaceSaving.Guarantees
import HeavyHitters.Scoring

/-!
# Scores and undercounts

A score over true records with positive counts exists as soon as there is one and every estimate has
a value, and it is a score over as many of them as were asked for.

The undercount of a tracker is the difference of two weights: the packets of the
keys it tracks, and what it holds.

* `exists_score` is the existence of a score, with the number of records in it, and
  `scoreTracker_eq_ok` puts a scorecard together from its parts.
* `undercount_eq` is the undercount of any tracker of which a count can hold the weight of each key.
* `undercount_of_feed` is the undercount after a run: what pipelines have lost of the keys that they
  track, and what Space-Saving counts too much.
-/

namespace HeavyHitters

/-! ## Scores -/

section

variable {κ : Type} {truth : List (Record κ)} {estimate : κ → Outcome Int}

/-- Estimates that all have a value are summed up, and every true count that
is not zero is averaged over. -/
theorem exists_sumErrors (hcount : ∀ r ∈ truth, r.count ≠ 0)
    (h : ∀ r ∈ truth, ∃ n, estimate r.key = .ok n) (sums : ErrorSums) :
    ∃ sums', sumErrors estimate truth sums = .ok sums' ∧ sums'.keys = sums.keys + truth.length := by
  induction truth generalizing sums with
  | nil => exact ⟨sums, rfl, rfl⟩
  | cons r truth ih =>
    obtain ⟨hr, hrest⟩ := List.forall_mem_cons.mp hcount
    obtain ⟨⟨n, hn⟩, hestimates⟩ := List.forall_mem_cons.mp h
    obtain ⟨sums', hsums, hkeys⟩ := ih hrest hestimates (sums.add r.count n)
    refine ⟨sums', Checked.bind_eq_ok.mpr ⟨n, hn, hsums⟩, ?_⟩
    rw [hkeys, ErrorSums.add, if_neg hr, List.length_cons]
    dsimp only
    omega

theorem exists_meanErrors (hne : truth ≠ []) (hcount : ∀ r ∈ truth, r.count ≠ 0)
    (h : ∀ r ∈ truth, ∃ n, estimate r.key = .ok n) :
    ∃ errors, meanErrors truth estimate = .ok errors := by
  obtain ⟨sums, hsums, hkeys⟩ := exists_sumErrors hcount h ⟨0.0, 0.0, 0⟩
  have hempty : truth.isEmpty = false := by simpa [List.isEmpty_iff] using hne
  have hsome : sums.keys ≠ 0 := by
    have := List.length_pos_iff_ne_nil.mpr hne
    dsimp only at hkeys
    omega
  unfold meanErrors
  rw [hempty, hsums]
  exact ⟨_, if_neg hsome⟩

/-- There is a score over the true records asked for, as far as there are so many. -/
theorem exists_score [Ord κ] {k : Nat} (hne : truth ≠ []) (hk : 1 ≤ k)
    (hcount : ∀ r ∈ truth, r.count ≠ 0) (estimate : κ → Outcome Int)
    (h : ∀ r ∈ truth, ∃ n, estimate r.key = .ok n) (reported : Option (List (Record κ))) :
    ∃ s, score truth k estimate reported = .ok s ∧ s.k = min k truth.length := by
  have htake : truth.take k ≠ [] := by
    rw [Ne, List.take_eq_nil_iff]
    rintro (rfl | hnil)
    · exact absurd hk (by decide)
    · exact hne hnil
  obtain ⟨errors, herrors⟩ :=
    exists_meanErrors htake (fun r hr => hcount r (List.mem_of_mem_take hr))
    fun r hr => h r (List.mem_of_mem_take hr)
  refine ⟨_, Checked.bind_eq_ok.mpr ⟨errors, herrors, rfl⟩, ?_⟩
  exact List.length_take

end

/-! ## Undercounts -/

namespace Tracker

variable {τ : Type} [Tracker τ]

/-- Whether a key has a resident. -/
def tracks (t : τ) (key : Key) : Bool := (residents t).any (·.key == key)

theorem tracks_eq_true_iff {t : τ} {key : Key} :
    tracks t key = true ↔ ∃ e ∈ residents t, e.key = key := by
  simp [tracks]

/-- All residents are of tracked keys. -/
theorem weightOf_tracks (t : τ) :
    weightOf (tracks t) (residents t) = weightOf allKeys (residents t) :=
  weightOf_congr_left fun e he => tracks_eq_true_iff.mpr ⟨e, he, rfl⟩

end Tracker

/-- The packets, with what is held of them taken off. -/
def missing (keys : List Key) (held : List Entry) : List Entry :=
  packetUnits keys ++ held.map fun unit => ⟨unit.key, -unit.count⟩

theorem weightOf_missing (select : Key → Bool) (keys : List Key) (held : List Entry) :
    weightOf select (missing keys held) = keys.countP select - weightOf select held := by
  rw [missing, weightOf_append, weightOf_packetUnits, weightOf_negated, Int.sub_eq_add_neg]

/-- What is missing of a key is taken off the size of its flow without an overflow. -/
theorem Trace.Counts.minus_exactCount {trace : Trace} {keys : List Key} {held : List Entry}
    (h : trace.Counts keys) (hnonneg : ∀ e ∈ held, 0 ≤ e.count) {key : Key}
    (hfits : weightOf (· == key) held ≤ Count.greatest) :
    Count.minus (trace.exactCount key) (weightOf (· == key) held)
      = .ok (weightOf (· == key) (missing keys held)) := by
  have hlow : 0 ≤ weightOf (· == key) held := weightOf_nonneg hnonneg
  have hexact : trace.exactCount key = keys.countP (· == key) := h.exactCount_eq key
  have hsize : (keys.countP (· == key) : Int) ≤ Count.greatest := h.fits key
  rw [weightOf_missing, hexact]
  refine Count.minus_eq_ok_iff.mpr ⟨Count.fits_of_bounds ?_ ?_, rfl⟩ <;> omega

open Tracker in
/-- **An undercount** is what the packets of the tracked keys outweigh the residents by. -/
theorem undercount_eq {τ : Type} [Tracker τ] {t : τ} {trace : Trace} {keys : List Key}
    (h : trace.Counts keys) (hnonneg : ∀ e ∈ residents t, 0 ≤ e.count)
    (hfits : ∀ key, weightOf (· == key) (residents t) ≤ Count.greatest) :
    undercount t trace = .ok (keys.countP (tracks t) - weightOf allKeys (residents t)) := by
  obtain ⟨merged, hmerged⟩ : ∃ merged : Tally Key, Tally.ofRecords
      ((residents t).map fun unit => ⟨id unit.key, unit.count⟩) = .ok merged := by
    rcases Tally.ofRecords_cases id hnonneg with ⟨hmerged, -⟩ | ⟨-, key, hlt⟩
    · exact hmerged
    · exact absurd (hfits key) (Int.not_le.mpr hlt)
  have hsums : merged.Sums id (residents t) := Tally.sums_of_ofRecords hmerged
  have htopK : topK t = .ok merged.ranking := mergeRanked_eq_ok_iff.mpr ⟨merged, hmerged, rfl⟩
  have hgap : ∀ r ∈ merged.ranking, Count.minus (trace.exactCount r.key) r.count
      = .ok (weightOf (id · == r.key) (missing keys (residents t))) := by
    intro r hr
    have hcount : r.count = weightOf (· == r.key) (residents t) :=
      (Tally.count_of_mem_ranking hr).symm.trans (hsums.count_eq r.key)
    rw [hcount]
    exact h.minus_exactCount hnonneg (hfits r.key)
  -- the ranking lists the tracked keys, and each of them once
  have hlisted : ∀ key, (merged.ranking.map (·.key)).contains (id key) = tracks t key := by
    intro key
    rw [Bool.eq_iff_iff, List.contains_iff_mem, hsums.mem_ranking_keys_iff, tracks_eq_true_iff]
    rfl
  have hsum := sum_map_weightOf id merged.nodup_ranking (missing keys (residents t))
  simp only [hlisted] at hsum
  rw [weightOf_missing, weightOf_tracks, List.map_map] at hsum
  exact Checked.bind_eq_ok.mpr ⟨merged.ranking, htopK,
    Checked.bind_eq_ok.mpr ⟨_, Checked.mapM_eq_ok_map hgap, congrArg Except.ok hsum⟩⟩

/-! ## Scorecards of trackers -/

section

variable {τ : Type} [Tracker τ] {o after : ObservedTracker τ} {trace : Trace} {k : Nat}
  {reported : List (Record Key)} {flows : Score}

/-- A scorecard is made of what its parts are. -/
theorem scoreTracker_eq_ok {truth : List (Record Network)} {tally : Tally Network}
    {networks : Score} {gap : Int} (hreported : Tracker.topK o = .ok reported)
    (hflows : score trace.ranking k (fun key => Outcome.ofChecked (Tracker.query o key))
      (some reported) = .ok flows)
    (htruth : trace.networkRanking = .ok truth) (htally : o.networkTally = .ok (tally, after))
    (hnetworks : score truth k (fun network => .ok (Tally.count tally network))
      (some tally.ranking) = .ok networks)
    (hgap : undercount after trace = .ok gap) :
    scoreTracker o trace k = .ok (⟨⟨Tracker.name after, flows, some networks⟩, reported.length, gap,
      Tracker.diagnostics after⟩, after) := by
  refine (Checked.bind_of_eq_ok (Outcome.ofChecked_eq_ok.mpr hreported)).trans ?_
  refine (Checked.bind_of_eq_ok hflows).trans ?_
  refine (Checked.bind_of_eq_ok (Outcome.ofChecked_eq_ok.mpr htruth)).trans ?_
  refine (Checked.bind_of_eq_ok (Outcome.ofChecked_eq_ok.mpr htally)).trans ?_
  refine (Checked.bind_of_eq_ok hnetworks).trans ?_
  exact Checked.bind_of_eq_ok (Outcome.ofChecked_eq_ok.mpr hgap)

/-- Without a ranking of the networks of a trace there is no scorecard. -/
theorem scoreTracker_eq_error {fault : Fault} (hreported : Tracker.topK o = .ok reported)
    (hflows : score trace.ranking k (fun key => Outcome.ofChecked (Tracker.query o key))
      (some reported) = .ok flows)
    (htruth : trace.networkRanking = .error fault) :
    scoreTracker o trace k = .error (.fault fault) := by
  refine (Checked.bind_of_eq_ok (Outcome.ofChecked_eq_ok.mpr hreported)).trans ?_
  refine (Checked.bind_of_eq_ok hflows).trans ?_
  rw [htruth]
  rfl

end

/-! ## Undercounts after a run -/

namespace Tracker

variable {τ : Type} [Tracker τ] {t t' : τ} {keys : List Key}

/-- What was carried out while a tracker was fed. -/
theorem exists_outs_of_feed (h : feed t keys = .ok t') :
    ∃ outs, insertAll t keys = .ok (t', outs) := by
  rw [feed_eq] at h
  obtain ⟨⟨after, outs⟩, hrun, rfl⟩ := Checked.map_eq_ok.mp h
  exact ⟨outs, hrun⟩

/-- A pipeline undercounts what it has carried out of keys that it tracks in the end. -/
theorem undercount_of_pipeline {trace : Trace} {start : τ} {outs : List (Option Entry)}
    (h : trace.Counts keys) (fresh : FreshPipeline τ start)
    (run : insertAll start keys = .ok (t, outs)) :
    undercount t trace = .ok (weightOf (tracks t) outs.reduceOption) ∧
      0 ≤ weightOf (tracks t) outs.reduceOption := by
  obtain ⟨Inv, hc, hstart, hempty⟩ := fresh.conserves
  have hbalance := hc.run hstart hempty run
  have hout : ∀ select, 0 ≤ weightOf select outs.reduceOption := fun select =>
    weightOf_nonneg fun unit hu => Int.le_trans (by decide) (hc.outs_positive hstart run unit hu)
  have hnonneg : ∀ e ∈ residents t, 0 ≤ e.count := fun e he =>
    Int.le_trans (by decide) (hc.positive (hc.inv_insertAll hstart run) e he)
  refine ⟨?_, hout _⟩
  rw [undercount_eq h hnonneg fun key => ?_]
  · -- the packets of the tracked keys are resident or were carried out
    have := hbalance (tracks t)
    rw [weightOf_tracks] at this
    exact congrArg Except.ok (by omega)
  · have hkey := hbalance (· == key)
    have := hout (· == key)
    have := h.fits key
    rw [List.count] at this
    omega

end Tracker

namespace SpaceSaving

open Tracker (tracks)

variable {t : SpaceSaving} {trace : Trace} {keys : List Key} {capacity : Nat}

/-- Space-Saving counts as many units as there were packets, and so overcounts those of
keys that it does not track. -/
theorem Tracks.undercount_eq (h : Tracks capacity keys t) (counted : trace.Counts keys) :
    undercount t trace = .ok (-(keys.countP fun key => !tracks t key : Nat)) := by
  have htotal : weightOf allKeys t.residents = keys.length := (weightOf_allKeys _).trans h.total
  rw [HeavyHitters.undercount_eq counted fun e he => Int.le_trans (by decide) (h.positive e he)]
  · have hsplit := List.length_eq_countP_add_countP (tracks t) (l := keys)
    have hnot : keys.countP (fun key => !tracks t key)
        = keys.countP fun key => decide ¬tracks t key = true :=
      List.countP_congr fun key _ => by simp
    show Except.ok (_ - weightOf allKeys t.residents) = _
    rw [htotal, hnot]
    exact congrArg Except.ok (by omega)
  · intro key
    show weightOf (· == key) t.residents ≤ Count.greatest
    rw [h.weightOf_residents]
    cases hcount : t.counts[key]? with
    | none =>
      rw [query_of_untracked hcount]
      decide
    | some count =>
      rw [query_of_tracked hcount]
      exact h.fits _ (h.mem_of_getElem? hcount)

end SpaceSaving

open Tracker in
/-- **The undercount tells what was lost**: of a pipeline the weight that was carried out of keys
tracked in the end, and of Space-Saving, negated, the packets of keys not tracked in the end. -/
theorem undercount_of_feed {keys : Array Key} {trace : Trace}
    (made : Trace.ofKeys keys = .ok trace) :
    (∀ {τ : Type} [Tracker τ] {start t : τ}, FreshPipeline τ start →
      feed start keys.toList = .ok t →
      ∃ outs, insertAll start keys.toList = .ok (t, outs) ∧
        undercount t trace = .ok (weightOf (tracks t) outs.reduceOption) ∧
        0 ≤ weightOf (tracks t) outs.reduceOption) ∧
    ∀ {memory : Nat} {start t : SpaceSaving}, SpaceSaving.ofBudget memory = .ok start →
      feed start keys.toList = .ok t →
        undercount t trace = .ok (-(keys.toList.countP fun key => !tracks t key : Nat)) := by
  obtain ⟨-, -, counted⟩ := Trace.ofKeys_eq_ok made
  refine ⟨fun fresh hfeed => ?_, fun built hfeed => ?_⟩
  · obtain ⟨outs, run⟩ := exists_outs_of_feed hfeed
    exact ⟨outs, run, undercount_of_pipeline counted fresh run⟩
  · exact ((SpaceSaving.tracks_of_ofBudget built).feed hfeed).undercount_eq counted

/-- Eleven packets of seven keys: a HashPipe with one cell in each row has carried a unit out of the
key 5, which comes back; a table of two counters does not track eight of the packets in the end. -/
theorem undercount_of_feed_eleven_packets :
    ∃ (trace : Trace) (pipe : HashPipe) (table : SpaceSaving),
    Trace.ofKeys #[7, 7, 1, 2, 1, 1, 3, 4, 5, 6, 5] = .ok trace ∧
      (∃ start outs, HashPipe.ofBudget 48 1 = .ok start ∧
        Tracker.insertAll start [7, 7, 1, 2, 1, 1, 3, 4, 5, 6, 5] = .ok (pipe, outs) ∧
        weightOf (Tracker.tracks pipe) outs.reduceOption = 1) ∧
      (∃ start, SpaceSaving.ofBudget 16 = .ok start ∧
        Tracker.feed start [7, 7, 1, 2, 1, 1, 3, 4, 5, 6, 5] = .ok table) ∧
      undercount pipe trace = .ok 1 ∧ undercount table trace = .ok (-8) := by
  have hpipe : (do
      let trace ← Trace.ofKeys #[7, 7, 1, 2, 1, 1, 3, 4, 5, 6, 5]
      let start ← HashPipe.ofBudget 48 1
      let pipe ← Outcome.ofChecked (Tracker.feed start [7, 7, 1, 2, 1, 1, 3, 4, 5, 6, 5])
      Outcome.ofChecked (undercount pipe trace) : Outcome Int) = .ok 1 := by decide +kernel
  have htable : (do
      let start ← SpaceSaving.ofBudget 16
      let table ← Outcome.ofChecked (Tracker.feed start [7, 7, 1, 2, 1, 1, 3, 4, 5, 6, 5])
      return ([7, 7, 1, 2, 1, 1, 3, 4, 5, 6, 5] : List Key).countP fun key =>
        !Tracker.tracks table key : Outcome Nat)
        = .ok 8 := by cbv
  obtain ⟨trace, made, hpipe⟩ := Checked.bind_eq_ok.mp hpipe
  obtain ⟨start, built, hpipe⟩ := Checked.bind_eq_ok.mp hpipe
  obtain ⟨pipe, hfeed, hpipe⟩ := Checked.bind_eq_ok.mp hpipe
  obtain ⟨start', built', htable⟩ := Checked.bind_eq_ok.mp htable
  obtain ⟨table, hfeed', htable⟩ := Checked.bind_eq_ok.mp htable
  have hfeed := Outcome.ofChecked_eq_ok.mp hfeed
  have hfeed' := Outcome.ofChecked_eq_ok.mp hfeed'
  obtain ⟨hpipes, htables⟩ := undercount_of_feed made
  obtain ⟨outs, run, hcount, -⟩ := hpipes (.hashPipe built) hfeed
  have hpipe := Outcome.ofChecked_eq_ok.mp hpipe
  have hweight := Except.ok.inj (hcount.symm.trans hpipe)
  refine ⟨trace, pipe, table, made, ⟨start, outs, built, run, hweight⟩,
    ⟨start', built', hfeed'⟩, hpipe, ?_⟩
  rw [htables built' hfeed', Checked.pure_eq_ok.mp htable]
  rfl

end HeavyHitters
