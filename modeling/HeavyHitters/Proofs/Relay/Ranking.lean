import HeavyHitters.Proofs.Estimator.Ranking
import HeavyHitters.Proofs.Relay
import HeavyHitters.Proofs.Tracker.Answers
import HeavyHitters.Proofs.Tracker.VoteTracker

/-!
# Relays that rank what they answer

A relay merges two rankings and adds two answers.  Where the ranking of each part belongs to its
answers, a key weighs in the merged records what the parts answer for it, so the merged ranking
belongs to the sums.  A sum that does not fit, in a part or between the parts, spoils the
ranking and the query of a key alike.

* `Relay.ranks_or_overflows_of_parts` is the step from the parts to the relay.
* `FreshTracker.outs_positive` says that the estimator behind a tracker is given units with weight.
* `FreshEnumerator.agreement_of_runs` is the agreement of ranking and answers after every run of an
  estimator that enumerates its keys, alone or behind a tracker, as far as the sums fit.
* `VoteSketch.exists_overflows` is a run after which they do not, though all weight fits a count.
-/

namespace HeavyHitters

/-! ## Trackers -/

/-- Under an invariant under which the answers of a tracker are about its residents, its ranking
belongs to its answers, or a sum does not fit. -/
theorem Tracker.Reads.ranks_or_overflows {τ : Type} [Tracker τ] {Inv : τ → Prop} {t : τ}
    (h : Tracker.Reads Inv) (ht : Inv t) :
    Ranks (fun key => Outcome.ofChecked (query t key)) (Outcome.ofChecked (topK t)) ∨
      Overflows (fun key => Outcome.ofChecked (query t key)) (Outcome.ofChecked (topK t)) := by
  simp only [h.query_eq ht]
  exact (addsUp_of_sums fun e he =>
    Int.le_trans (by decide) (h.positive ht e he)).ranks_or_overflows

/-- What a built tracker carries out has weight. -/
theorem FreshTracker.outs_positive {τ : Type} [Tracker τ] {start t : τ} {keys : List Key}
    {outs : List (Option Entry)} (h : FreshTracker τ start)
    (run : Tracker.insertAll start keys = .ok (t, outs)) :
    ∀ e ∈ outs.reduceOption, 1 ≤ e.count := by
  cases h with
  | pipeline fresh =>
    obtain ⟨Inv, hc, hstart, -⟩ := fresh.conserves
    exact hc.outs_positive hstart run
  | vote built => exact fun e he => Int.le_of_eq (VoteTracker.outs_count run e he).symm
  | spaceSaving built =>
    exact SpaceSaving.retains.outs_positive (SpaceSaving.fresh_of_ofBudget built).1 run

/-! ## From the parts to the relay -/

namespace Relay

variable {τ ε : Type} [Tracker τ] [Estimator ε] {r : Relay τ ε}

/-- The ranking merges those of the parts. -/
theorem topK_eq_merge {tracked estimated : List (Record Key)}
    (ht : Tracker.topK r.tracker = .ok tracked) (he : Estimator.topK r.estimator = .ok estimated) :
    r.topK = Outcome.ofChecked (mergeRanked (tracked ++ estimated)) := by
  unfold topK
  rw [ht, he]
  rfl

theorem topK_eq_error_of_tracker {fault : Fault} (ht : Tracker.topK r.tracker = .error fault) :
    r.topK = .error (.fault fault) := by
  unfold topK
  rw [ht]
  rfl

theorem topK_eq_error_of_estimator {tracked : List (Record Key)} {fault : Fault}
    (ht : Tracker.topK r.tracker = .ok tracked)
    (he : Estimator.topK r.estimator = .error (.fault fault)) : r.topK = .error (.fault fault) := by
  unfold topK
  rw [ht, he]
  rfl

theorem query_eq_error_of_estimator {key : Key} {tracked : Int} {fault : Fault}
    (ht : Tracker.query r.tracker key = .ok tracked)
    (he : Estimator.query r.estimator key = .error (.fault fault)) :
    r.query key = .error (.fault fault) := by
  unfold query
  rw [ht, he]
  rfl

/-- **Where each part ranks what it answers, the relay does**, unless a sum does not fit. -/
theorem ranks_or_overflows_of_parts
    (htracker : Ranks (fun key => Outcome.ofChecked (Tracker.query r.tracker key))
        (Outcome.ofChecked (Tracker.topK r.tracker)) ∨
      Overflows (fun key => Outcome.ofChecked (Tracker.query r.tracker key))
        (Outcome.ofChecked (Tracker.topK r.tracker)))
    (hestimator : Ranks (Estimator.query r.estimator) (Estimator.topK r.estimator) ∨
      Overflows (Estimator.query r.estimator) (Estimator.topK r.estimator)) :
    Ranks r.query r.topK ∨ Overflows r.query r.topK := by
  rcases htracker with ⟨tracked, ranking, htracked, hranking, ht⟩ | ⟨hranking, key, hkey⟩
  · have htracked : ∀ key, Tracker.query r.tracker key = .ok (tracked key) := fun key =>
      Outcome.ofChecked_eq_ok.mp (htracked key)
    have hranking := Outcome.ofChecked_eq_ok.mp hranking
    rcases hestimator with ⟨estimated, further, hestimated, hfurther, he⟩ | ⟨hfurther, key, hkey⟩
    · -- a key weighs in the merged records what the parts answer
      have hquery : r.query = fun key =>
          Outcome.ofChecked (Count.narrow .add (weightOf (· == key) (ranking ++ further))) := by
        funext key
        rw [query_eq_plus (htracked key) (hestimated key), weightOf_append, ht.weightOf_eq,
          he.weightOf_eq]
        rfl
      rw [hquery, topK_eq_merge hranking hfurther]
      refine (addsUp_of_sums fun unit hunit => ?_).ranks_or_overflows
      exact (List.mem_append.mp hunit).elim (ht.nonneg unit) (he.nonneg unit)
    · exact .inr ⟨topK_eq_error_of_estimator hranking hfurther, key,
        query_eq_error_of_estimator (htracked key) hkey⟩
  · exact .inr ⟨topK_eq_error_of_tracker (Outcome.ofChecked_eq_error.mp hranking), key,
      query_eq_error (Outcome.ofChecked_eq_error.mp hkey)⟩

end Relay

/-! ## After a run -/

/--
**What enumerates its keys ranks what it answers, as far as the sums fit.**  After every run of
units with weight the ranking of an elastic sketch, of the heap of a count sketch and of a Coco
sketch belongs to its answers.  Only an elastic sketch adds up what may not fit: if a count cannot
hold the votes of a key in its buckets, the ranking and a query both fail.  The same holds of every
relay of a tracker and one of these, if no sum overflows.
-/
theorem FreshEnumerator.agreement_of_runs {ε : Type} [Estimator ε] {start : ε}
    (fresh : FreshEnumerator ε start) :
    (∀ (units : List Entry) (e : ε), (∀ unit ∈ units, 1 ≤ unit.count) →
      Estimator.insertAll start units = .ok e →
        ∃ addends, Estimator.Addends e addends ∧
          AddsUp addends (Estimator.query e) (Estimator.topK e)) ∧
    ∀ {τ : Type} [Tracker τ] (tracker : τ) (keys : List Key) (r : Relay τ ε),
      FreshTracker τ tracker → (Relay.ofParts tracker start).feed keys = .ok r →
        Ranks r.query r.topK ∨ Overflows r.query r.topK := by
  obtain ⟨Inv, henumerates, hstart⟩ := fresh.enumerates
  constructor
  · intro units e hunits run
    exact henumerates.exists_addsUp
      (Estimator.inv_insertAll henumerates.inv_insert hstart hunits run)
  · intro τ _ tracker keys r freshTracker run
    obtain ⟨outs, htracker, hestimator, -⟩ := Relay.feed_eq_ok run
    obtain ⟨Holds, hreads, htracked⟩ := freshTracker.reads
    have hholds := Tracker.inv_insertAll hreads.inv_insert htracked htracker
    have hinv := Estimator.inv_insertAll henumerates.inv_insert hstart
      (freshTracker.outs_positive htracker) hestimator
    obtain ⟨addends, -, haddsUp⟩ := henumerates.exists_addsUp hinv
    exact Relay.ranks_or_overflows_of_parts (hreads.ranks_or_overflows hholds)
      haddsUp.ranks_or_overflows

/-- An elastic sketch with one bucket in each row, alone and behind a HashPipe with one cell in each
row: alone it holds the key 65537 in two rows, behind the tracker it gets the unit of 5. -/
theorem FreshEnumerator.agreement_of_runs_vote : ∃ start : VoteSketch,
    FreshEnumerator VoteSketch start ∧
    (∃ e : VoteSketch, (∀ unit ∈ ([⟨7, 1⟩, ⟨65537, 40⟩, ⟨65537, 2⟩, ⟨7, 3⟩] : List Entry),
      1 ≤ unit.count) ∧
      Estimator.insertAll start [⟨7, 1⟩, ⟨65537, 40⟩, ⟨65537, 2⟩, ⟨7, 3⟩] = .ok e ∧
      Estimator.topK e = .ok [⟨65537, 43⟩, ⟨7, 4⟩] ∧
      Ranks (Estimator.query e) (Estimator.topK e)) ∧
    ∃ (tracker : HashPipe) (r : Relay HashPipe VoteSketch), FreshTracker HashPipe tracker ∧
      (Relay.ofParts tracker start).feed [7, 7, 1, 2, 1, 1, 3, 4, 5, 6] = .ok r ∧
      r.topK = .ok [⟨1, 3⟩, ⟨7, 2⟩, ⟨2, 1⟩, ⟨3, 1⟩, ⟨4, 1⟩, ⟨5, 1⟩, ⟨6, 1⟩] ∧
      Ranks r.query r.topK := by
  have hrun : (do
      let start ← VoteSketch.ofBudget 48 4 1
      let e ← Outcome.ofChecked
        (Estimator.insertAll start [⟨7, 1⟩, ⟨65537, 40⟩, ⟨65537, 2⟩, ⟨7, 3⟩])
      let tracker ← HashPipe.ofBudget 48 1
      let r ← Outcome.ofChecked
        ((Relay.ofParts tracker start).feed [7, 7, 1, 2, 1, 1, 3, 4, 5, 6])
      return (Estimator.topK e, r.topK) :
        Outcome (Outcome (List (Record Key)) × Outcome (List (Record Key)))) = .ok
          (.ok [⟨65537, 43⟩, ⟨7, 4⟩],
            .ok [⟨1, 3⟩, ⟨7, 2⟩, ⟨2, 1⟩, ⟨3, 1⟩, ⟨4, 1⟩, ⟨5, 1⟩, ⟨6, 1⟩]) := by
    decide +kernel
  obtain ⟨start, built, hrun⟩ := Checked.bind_eq_ok.mp hrun
  obtain ⟨e, run, hrun⟩ := Checked.bind_eq_ok.mp hrun
  obtain ⟨tracker, builtTracker, hrun⟩ := Checked.bind_eq_ok.mp hrun
  obtain ⟨r, runRelay, hrun⟩ := Checked.bind_eq_ok.mp hrun
  obtain ⟨htopK, htopKRelay⟩ := Prod.mk.inj (Checked.pure_eq_ok.mp hrun)
  have run := Outcome.ofChecked_eq_ok.mp run
  have runRelay := Outcome.ofChecked_eq_ok.mp runRelay
  have fresh : FreshEnumerator VoteSketch start := .vote built
  have freshTracker : FreshTracker HashPipe tracker := .pipeline (.hashPipe builtTracker)
  have hunits : ∀ unit ∈ ([⟨7, 1⟩, ⟨65537, 40⟩, ⟨65537, 2⟩, ⟨7, 3⟩] : List Entry),
      1 ≤ unit.count := by
    decide
  refine ⟨start, fresh, ⟨e, hunits, run, htopK, ?_⟩, tracker, r, freshTracker,
    runRelay, htopKRelay, ?_⟩
  · obtain ⟨addends, -, haddsUp⟩ := fresh.agreement_of_runs.1 _ e hunits run
    refine haddsUp.ranks_or_overflows.resolve_right fun hoverflows => ?_
    rw [Overflows, htopK] at hoverflows
    exact nomatch hoverflows.1
  · refine (fresh.agreement_of_runs.2 tracker _ r freshTracker runRelay).resolve_right
      fun hoverflows => ?_
    rw [Overflows, htopKRelay] at hoverflows
    exact nomatch hoverflows.1

/-- In an elastic sketch with one bucket in each row the key 3 settles in the last three rows before
it takes the first one over.  On the way it is evicted twice, and each time goes on with a vote of
its own while its bucket keeps the old ones, so in the end it has two votes more than all units
weigh.  A count can hold what they weigh, and the votes of each bucket, but not those of the key. -/
theorem VoteSketch.exists_overflows : ∃ start e : VoteSketch,
    VoteSketch.ofBudget 48 4 1 = .ok start ∧
    (∀ unit ∈ ([⟨1, 35⟩, ⟨3, 1⟩, ⟨2, 33⟩, ⟨4, 31⟩, ⟨3, 961⟩, ⟨3, 58⟩, ⟨3, 1⟩,
      ⟨3, 2147482526⟩] : List Entry), 1 ≤ unit.count) ∧
    weightOf allKeys [⟨1, 35⟩, ⟨3, 1⟩, ⟨2, 33⟩, ⟨4, 31⟩, ⟨3, 961⟩, ⟨3, 58⟩, ⟨3, 1⟩, ⟨3, 2147482526⟩]
      ≤ Count.greatest ∧
    Estimator.insertAll start
      [⟨1, 35⟩, ⟨3, 1⟩, ⟨2, 33⟩, ⟨4, 31⟩, ⟨3, 961⟩, ⟨3, 58⟩, ⟨3, 1⟩, ⟨3, 2147482526⟩] = .ok e ∧
    tableResidents e.rows = [⟨3, 2147482562⟩, ⟨3, 92⟩, ⟨3, 993⟩, ⟨3, 1⟩] ∧
    Overflows (Estimator.query e) (Estimator.topK e) ∧
    ¬ Ranks (Estimator.query e) (Estimator.topK e) := by
  have hrun : (do
      let start ← VoteSketch.ofBudget 48 4 1
      let e ← Outcome.ofChecked (Estimator.insertAll start
        [⟨1, 35⟩, ⟨3, 1⟩, ⟨2, 33⟩, ⟨4, 31⟩, ⟨3, 961⟩, ⟨3, 58⟩, ⟨3, 1⟩, ⟨3, 2147482526⟩])
      return (tableResidents e.rows, Estimator.topK e, Estimator.query e 3) :
        Outcome (List Entry × Outcome (List (Record Key)) × Outcome Int))
          = .ok ([⟨3, 2147482562⟩, ⟨3, 92⟩, ⟨3, 993⟩, ⟨3, 1⟩],
            .error sumOverflow, .error sumOverflow) := by
    decide +kernel
  obtain ⟨start, built, hrun⟩ := Checked.bind_eq_ok.mp hrun
  obtain ⟨e, run, hrun⟩ := Checked.bind_eq_ok.mp hrun
  obtain ⟨hresidents, hasked⟩ := Prod.mk.inj (Checked.pure_eq_ok.mp hrun)
  obtain ⟨htopK, hquery⟩ := Prod.mk.inj hasked
  refine ⟨start, e, built, by decide, by decide, Outcome.ofChecked_eq_ok.mp run, hresidents,
    ⟨htopK, 3, hquery⟩, ?_⟩
  rintro ⟨answer, ranking, -, hranked, -⟩
  rw [htopK] at hranked
  cases hranked

end HeavyHitters
