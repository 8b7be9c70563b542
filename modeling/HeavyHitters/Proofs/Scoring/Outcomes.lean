import HeavyHitters.Proofs.Estimator.Hierarchy
import HeavyHitters.Proofs.Scoring.Ends
import HeavyHitters.Proofs.Sessions.Reached

/-!
# How structures are scored

Every structure is asked what it offers, which fails only by an overflow, and what it does not offer
is left out of its card.  The one exception is a hierarchy: scored as an estimator it refuses the
first query, so it is scored level by level.

* `TrackerFails`, `EstimatorFails`, `RelayFails` and `LevelsFail` are the failures
  of the questions of a scoring.
* `scored_tracker`, `scored_estimator`, `scored_relay` and `scored_levels` are
  the scorings of the structures.
* `Trace.scores_of_loaded` says so of whatever sessions make of the structures, as they are built.
-/

namespace HeavyHitters

/-! ## Trackers -/

/-- A card is over the `k` heaviest flows, with hits or without, and over the `k` heaviest networks,
with hits, or not over networks at all. -/
structure Scorecard.Spans (card : Scorecard) (trace : Trace) (k : Nat)
    (hits networks : Bool) : Prop where
  flows : card.flows.Spans k (trace.entries id) hits
  isSome_networks : card.networks.isSome = networks
  networks : ∀ s ∈ card.networks, s.Spans k (trace.entries networkOf) true

section

variable {trace : Trace} {k : Nat}

/-- The failures of what is asked of a tracker and of a trace when the tracker is scored. -/
inductive TrackerFails {τ : Type} [Tracker τ] (o : ObservedTracker τ) (trace : Trace) (k : Nat)
    (failure : Failure) : Prop where
  | topK (h : Outcome.ofChecked (Tracker.topK o) = .error failure)
  | query (h : ∃ r ∈ trace.ranking.take k,
      Outcome.ofChecked (Tracker.query o r.key) = .error failure)
  | networkTally (h : Outcome.ofChecked o.networkTally = .error failure)
  | networkRanking (h : Outcome.ofChecked trace.networkRanking = .error failure)

theorem Tracker.Reads.failsOnly_query {τ : Type} [Tracker τ] {Inv : τ → Prop}
    (h : Tracker.Reads Inv) {t : τ} (ht : Inv t) (key : Key) :
    FailsOnly Fault.IsOverflow (Tracker.query t key) := by
  rw [h.query_eq ht]
  exact Count.failsOnly_narrow _ _

theorem FreshTracker.failsOnly_query {τ : Type} [Tracker τ] {start t : τ}
    (h : FreshTracker τ start) {keys : List Key} (run : Tracker.feed start keys = .ok t)
    (key : Key) : FailsOnly Fault.IsOverflow (Tracker.query t key) := by
  obtain ⟨Inv, hreads, hstart⟩ := h.reads
  rw [Tracker.feed_eq] at run
  obtain ⟨_, hinserts, rfl⟩ := Checked.map_eq_ok.mp run
  exact hreads.failsOnly_query (Tracker.inv_insertAll hreads.inv_insert hstart hinserts) key

theorem failsOnly_networkTally {τ : Type} [Tracker τ] {Inv : τ → Prop} (hreads : Tracker.Reads Inv)
    {o : ObservedTracker τ} (ho : Inv o.state) : FailsOnly Fault.IsOverflow o.networkTally := by
  cases hanswer : o.answer with
  | some answer =>
    rw [ObservedTracker.networkTally, Observed.ask_of_answer hanswer]
    exact failsOnly_ok _
  | none =>
    unfold ObservedTracker.networkTally Observed.ask
    rw [hanswer]
    dsimp only
    rw [hreads.networks_eq ho]
    exact (Tally.failsOnly_ofRecords _).bind fun _ _ => failsOnly_ok _

/-- Networks are estimated by what a report or a tally says of them, which never fails. -/
theorem scored_networks (loaded : trace.Loaded) (k : Nat) {truth : List (Record Network)}
    (htruth : trace.networkRanking = .ok truth) (count : Network → Int)
    (reported : List (Record Network)) {Cause : Failure → Prop} :
    Scored k Cause (·.Spans k (trace.entries networkOf) true)
      (score truth k (fun network => .ok (count network)) (some reported)) := by
  obtain ⟨hne, hcounts⟩ := loaded.counts
  have hscore := scored_score (hcounts.exactRanking_of_regroup htruth) hne k
    (fun network => .ok (count network))
    (fun _ => failsOnly_ok _) (some reported)
  refine hscore.imp_cause ?_
  rintro _ ⟨_, -, ⟨⟩⟩

/-- The gaps between a tracker and a trace never overflow. -/
theorem exists_undercount {τ : Type} [Tracker τ] {t : τ} {keys : List Key}
    {ranking : List (Record Key)} (h : trace.Counts keys)
    (hpositive : ∀ e ∈ Tracker.residents t, 1 ≤ e.count) (hranking : Tracker.topK t = .ok ranking) :
    ∃ gap, undercount t trace = .ok gap := by
  have hnonneg : ∀ e ∈ Tracker.residents t, 0 ≤ e.count :=
    fun e he => Int.le_trans (by decide) (hpositive e he)
  rcases mergeRanked_cases hnonneg with ⟨-, -, -, hfits⟩ | ⟨herror, -⟩
  · exact ⟨_, undercount_eq h hnonneg hfits⟩
  · cases hranking.symm.trans herror

/-- **The scoring of a tracker** whose answers are about its residents. -/
theorem scored_tracker {τ : Type} [Tracker τ] {Inv : τ → Prop} (loaded : trace.Loaded) (k : Nat)
    (hreads : Tracker.Reads Inv) {o : ObservedTracker τ} (ho : Inv o.state) :
    Scored k (TrackerFails o trace k) (fun result => result.1.card.Spans trace k true true)
      (scoreTracker o trace k) := by
  obtain ⟨hne, hcounts⟩ := loaded.counts
  refine scored_bind (failsOnly_mergeRanked _).ofChecked (fun _ => .topK)
    fun reported hreported => ?_
  refine ((scored_score hcounts.exactRanking_ranking hne k _
    (fun key => (hreads.failsOnly_query ho key).ofChecked)
    _).imp_cause fun _ => .query).bind fun flows hk hflows => ?_
  refine scored_bind (failsOnly_mergeRanked _).ofChecked (fun _ => .networkRanking)
    fun truth htruth => ?_
  have htruth := Outcome.ofChecked_eq_ok.mp htruth
  refine scored_bind (failsOnly_networkTally hreads ho).ofChecked (fun _ => .networkTally)
    fun asked hasked => ?_
  obtain ⟨tally, after⟩ := asked
  have hstate : after.state = o.state := Observed.state_of_ask (Outcome.ofChecked_eq_ok.mp hasked)
  refine (scored_networks loaded k htruth (Tally.count tally) _).bind fun networks _ hnetworks => ?_
  have hafter : Tracker.topK after = .ok reported := by
    show mergeRanked (Tracker.residents after.state) = _
    rw [hstate]
    exact Outcome.ofChecked_eq_ok.mp hreported
  have hgap := (exists_undercount hcounts (hreads.observed.positive (hstate ▸ ho)) hafter).imp
    fun _ => Outcome.ofChecked_eq_ok.mpr
  refine scored_bind (failsOnly_of_exists hgap) (failsOnly_of_exists hgap) fun gap _ =>
    .card hk ⟨hflows, rfl, ?_⟩
  rintro _ ⟨⟩
  exact hnetworks

/-! ## Estimators -/

/-- The failures of what is asked of an estimator and of a trace when the estimator is scored. -/
inductive EstimatorFails {ε : Type} [Estimator ε] (e : ObservedEstimator ε)
    (trace : Trace) (k : Nat) (failure : Failure) : Prop where
  | topK (h : Estimator.topK e = .error failure)
  | query (h : ∃ r ∈ trace.ranking.take k, Estimator.query e r.key = .error failure)
  | networkTopK (h : e.networkTopK = .error failure)
  | networkRanking (h : Outcome.ofChecked trace.networkRanking = .error failure)

section

variable {ε : Type} [Estimator ε] {Inv : ε → Prop} {ranks networks : Bool} {e : ObservedEstimator ε}

/-- Networks are reported just if they are offered, unless an overflow comes in between. -/
theorem reportedNetworks_cases (h : e.networkTopK.Offered networks) :
    (∃ failure : Failure, failure.IsOverflow ∧ e.networkTopK = .error failure ∧
      reportedNetworks e = .error failure) ∨
      ∃ reported after, reportedNetworks e = .ok (reported, after) ∧
      reported.isSome = networks := by
  unfold reportedNetworks
  cases hasked : supported e.networkTopK with
  | error failure =>
    exact .inl ⟨failure, h.failsOnly_supported failure hasked, eq_error_of_supported hasked, rfl⟩
  | ok asked =>
    have hsome := h.isSome_supported hasked
    cases asked with
    | none => exact .inr ⟨none, e, rfl, hsome⟩
    | some result => exact .inr ⟨some result.1, result.2, rfl, hsome⟩

/-- **The scoring of an estimator**: there are hits where it ranks keys, and
networks where it ranks networks. -/
theorem scored_estimator (loaded : trace.Loaded) (k : Nat)
    (h : Estimator.Answers Inv ranks networks) (he : Estimator.Kept Inv networks e) :
    Scored k (EstimatorFails e trace k) (fun result => result.1.Spans trace k ranks networks)
      (scoreEstimator e trace k) := by
  obtain ⟨hne, hcounts⟩ := loaded.counts
  have htopK := h.observed.offered_topK he
  refine scored_bind htopK.failsOnly_supported (fun _ hf => .topK (eq_error_of_supported hf))
    fun reported hreported => ?_
  refine ((scored_score hcounts.exactRanking_ranking hne k _
    (h.observed.failsOnly_query he) _).imp_cause
    fun _ => .query).bind fun flows hk hflows => ?_
  rw [htopK.isSome_supported hreported] at hflows
  rcases reportedNetworks_cases (h.offered_ask he) with
    ⟨failure, overflows, hfails, hnetworks⟩ | ⟨listed, after, hnetworks, hlisted⟩
  · rw [hnetworks]
    exact .overflow overflows (.networkTopK hfails)
  rw [Checked.bind_of_eq_ok hnetworks]
  cases listed with
  | none => exact .card hk ⟨hflows, hlisted, fun _ hs => nomatch hs⟩
  | some listed =>
    refine scored_bind (failsOnly_mergeRanked _).ofChecked (fun _ => .networkRanking)
      fun truth htruth => ?_
    have htruth := Outcome.ofChecked_eq_ok.mp htruth
    refine (scored_networks loaded k htruth (Tally.count _) _).bind fun score _ hscore => ?_
    refine .card hk ⟨hflows, hlisted, ?_⟩
    rintro _ ⟨⟩
    exact hscore

/-- A hierarchy is not scored as an estimator: it refuses the first query. -/
theorem scoreEstimator_hierarchy {τ ρ : Type} [Tracker τ] [RandomSource ρ]
    (loaded : trace.Loaded) (k : Nat) (e : ObservedEstimator (Hierarchy τ ρ)) :
    scoreEstimator e trace k
      = refuse (if k = 0 then .numericDomain "no ground-truth keys to average over"
      else .unsupported Hierarchy.title "query without a level") := by
  obtain ⟨hne, hcounts⟩ := loaded.counts
  show (score trace.ranking k (Estimator.query e) none >>= _) = _
  rcases Nat.eq_zero_or_pos k with rfl | hk
  · rw [score_zero]
    rfl
  · have htake := hcounts.exactRanking_ranking.take_ne_nil hne hk
    have hsums : sumErrors (Estimator.query e) (trace.ranking.take k) ⟨0.0, 0.0, 0⟩
        = refuse (.unsupported Hierarchy.title "query without a level") := by
      cases hfirst : trace.ranking.take k with
      | nil => exact absurd hfirst htake
      | cons first rest => rfl
    rw [score_eq_error htake hsums, if_neg (Nat.ne_of_gt hk)]
    rfl

end

/-! ## Relays -/

section

variable {τ ε : Type} [Tracker τ] [Estimator ε] {Holds : τ → Prop} {Inv : ε → Prop}
  {ranks networks : Bool} {r : ObservedRelay τ ε}

/-- The failures of what is asked of a relay when it is scored. -/
inductive RelayFails (r : ObservedRelay τ ε) (trace : Trace) (k : Nat)
    (failure : Failure) : Prop where
  | topK (h : r.topK = .error failure)
  | query (h : ∃ record ∈ trace.ranking.take k, r.query record.key = .error failure)

theorem failsOnly_topK_relay (h : Estimator.Answers Inv ranks networks)
    (he : Estimator.Kept Inv networks r.estimator) : FailsOnly Failure.IsOverflow r.topK :=
  (failsOnly_mergeRanked _).ofChecked.bind fun _ _ =>
    (h.observed.offered_topK he).failsOnly_supported.bind fun _ _ =>
      (failsOnly_mergeRanked _).ofChecked

theorem failsOnly_query_relay (hreads : Tracker.Reads Holds) (ht : Holds r.tracker.state)
    (h : Estimator.Answers Inv ranks networks)
    (he : Estimator.Kept Inv networks r.estimator) (key : Key) :
    FailsOnly Failure.IsOverflow (r.query key) :=
  (hreads.observed.failsOnly_query ht key).ofChecked.bind fun _ _ =>
    (h.observed.failsOnly_query he key).bind fun _ _ => (Count.failsOnly_narrow _ _).ofChecked

/-- **The scoring of a relay**: there are always hits, as a tracker always ranks its keys. -/
theorem scored_relay (loaded : trace.Loaded) (k : Nat) (hreads : Tracker.Reads Holds)
    (ht : Holds r.tracker.state) (h : Estimator.Answers Inv ranks networks)
    (he : Estimator.Kept Inv networks r.estimator) :
    Scored k (RelayFails r trace k) (·.Spans trace k true false) (scoreRelay r trace k) := by
  obtain ⟨hne, hcounts⟩ := loaded.counts
  refine scored_bind (failsOnly_topK_relay h he) (fun _ => .topK) fun reported _ => ?_
  refine ((scored_score hcounts.exactRanking_ranking hne k _
    (failsOnly_query_relay hreads ht h he) _).imp_cause
    fun _ => .query).bind fun flows hk hflows => ?_
  exact .card hk ⟨hflows, rfl, fun _ hs => nomatch hs⟩

end

/-! ## Levels of a hierarchy -/

/-- The score of a level is over the `k` heaviest parts of keys that its mask keeps, with hits. -/
structure LevelScore.Spans (s : LevelScore) (trace : Trace) (k level : Nat) : Prop where
  level_eq : s.level = level
  mask_eq : Hierarchy.masks[level]? = some s.mask
  score : s.score.Spans k (trace.entries (· &&& s.mask)) true

section

variable {τ ρ : Type} [Tracker τ] {h : Hierarchy τ ρ} {level : Nat} {mask : Key}

theorem Hierarchy.mask_eq_ok (h : masks[level]? = some mask) : Hierarchy.mask level = .ok mask := by
  simp [Hierarchy.mask, h]

/-- The failures of what is asked of a level and of a trace when the level is scored. -/
inductive LevelFails (h : Hierarchy τ ρ) (trace : Trace) (k level : Nat) (mask : Key)
    (failure : Failure) : Prop where
  | levelTopK (hf : Outcome.ofChecked (h.levelTopK level) = .error failure)
  | queryLevel {truth : List (Record Key)} (htruth : trace.maskedRanking mask = .ok truth)
      (hf : ∃ r ∈ truth.take k, Outcome.ofChecked (h.queryLevel r.key level) = .error failure)
  | maskedRanking (hf : Outcome.ofChecked (trace.maskedRanking mask) = .error failure)

/-- **The scoring of a level** the tracker of which is there and answers queries. -/
theorem scored_level (loaded : trace.Loaded) (k : Nat) {t : τ} (ht : h.levels[level]? = some t)
    (hmask : Hierarchy.masks[level]? = some mask)
    (hquery : ∀ key, FailsOnly Fault.IsOverflow (Tracker.query t key)) :
    Scored k (LevelFails h trace k level mask) (·.Spans trace k level)
      (scoreLevel h trace k level) := by
  obtain ⟨hne, hcounts⟩ := loaded.counts
  unfold scoreLevel
  rw [Hierarchy.mask_eq_ok hmask]
  show Scored k _ _ (Outcome.ofChecked (trace.maskedRanking mask) >>= _)
  refine scored_bind (failsOnly_mergeRanked _).ofChecked (fun _ => .maskedRanking)
    fun truth htruth => ?_
  have htruth := Outcome.ofChecked_eq_ok.mp htruth
  have hreported : FailsOnly Fault.IsOverflow (h.levelTopK level) := by
    rw [Hierarchy.levelTopK_eq ht]
    exact failsOnly_mergeRanked _
  refine scored_bind hreported.ofChecked (fun _ => .levelTopK) fun reported _ => ?_
  have hestimate : ∀ key, FailsOnly Fault.IsOverflow (h.queryLevel key level) := by
    intro key
    rw [Hierarchy.queryLevel_eq ht hmask]
    exact hquery _
  refine ((scored_score (hcounts.exactRanking_of_regroup htruth) hne k _
    (fun key => (hestimate key).ofChecked)
    (some reported)).imp_cause fun _ => .queryLevel htruth).bind fun score hk hscore => ?_
  exact .card hk ⟨rfl, hmask, hscore⟩

end

namespace LevelChoice

variable {choice : LevelChoice} {memory : Nat} {seed : UInt64}
  {fresh t : AnyTracker} {keys : List Key}

/-- A tracker of a level fails a query only by an overflow. -/
theorem Fresh.failsOnly_query (h : choice.Fresh memory seed fresh)
    (run : Tracker.feed fresh keys = .ok t) (key : Key) :
    FailsOnly Fault.IsOverflow (Tracker.query t key) := by
  cases h with
  | spaceSaving built =>
    rw [AnyTracker.feed_spaceSaving] at run
    obtain ⟨t, hfed, rfl⟩ := Checked.map_eq_ok.mp run
    exact (FreshTracker.spaceSaving built).failsOnly_query hfed key
  | funnel built =>
    rw [AnyTracker.feed_funnel] at run
    obtain ⟨t, hfed, rfl⟩ := Checked.map_eq_ok.mp run
    exact (FreshTracker.pipeline (.funnel built)).failsOnly_query hfed key

end LevelChoice

/-- The failures of what is asked of the levels and of a trace when the levels are scored. -/
inductive LevelsFail (h : Hierarchy AnyTracker ρ) (trace : Trace) (k : Nat)
    (failure : Failure) : Prop where
  | level {level : Nat} {mask : Key} (hmask : Hierarchy.masks[level]? = some mask)
      (hf : LevelFails h trace k level mask failure)

/-- **The scoring of the levels** of a hierarchy: there are always four. -/
theorem scored_levels [RandomSource ρ] (loaded : trace.Loaded) (k : Nat) {choice : LevelChoice}
    {source : Option (UInt64 → ρ)} {memory : Nat} {seed : UInt64} {start h : Hierarchy AnyTracker ρ}
    {inserts : List Entry}
    (built : Hierarchy.ofBudget choice.buildLevel source memory seed = .ok start)
    (run : Estimator.insertAll start inserts = .ok h) : Scored k (LevelsFail h trace k)
      (List.Forall₂ (fun level report => report.Spans trace k level)
        (List.range Hierarchy.levelCount))
      (scoreHierarchy h trace k) := by
  obtain ⟨⟨hlength, hfresh⟩, -⟩ := Hierarchy.ofBudget_eq_ok built
  rw [Hierarchy.insertAll_eq] at run
  obtain ⟨routed, -, hrouted⟩ := Hierarchy.exists_routed (Hierarchy.routed_of_ofBudget built) run
  unfold scoreHierarchy
  rw [hrouted.length_eq]
  refine scored_mapM (.inl (by decide)) fun level hlevel => ?_
  have hlt : level < Hierarchy.levelCount := List.mem_range.mp hlevel
  have hmask : Hierarchy.masks[level]? = some Hierarchy.masks[level] := List.getElem?_eq_getElem hlt
  obtain ⟨first, hstart⟩ : ∃ first, start.levels[level]? = some first :=
    ⟨_, List.getElem?_eq_getElem (hlength ▸ hlt)⟩
  obtain ⟨t, ht, fed⟩ := hrouted.level_run level first _ hstart hmask
  have hquery := (hfresh level first hstart).failsOnly_query fed
  exact (scored_level loaded k ht hmask hquery).imp_cause fun _ => .level hmask

end

/-! ## Every scoring -/

/-- How the scorings against a trace end, for all that becomes of trackers and
estimators as they are built. -/
structure Trace.Scores (trace : Trace) (k : Nat) : Prop where
  tracker : ∀ {τ : Type} [Tracker τ] {start : τ} {requests : List (Request Key NetworkQuestion)}
    {o : ObservedTracker τ}, FreshTracker τ start →
      reach ObservedTracker.serve (.fresh start) requests = .ok o →
      Scored k (TrackerFails o trace k) (fun result => result.1.card.Spans trace k true true)
        (scoreTracker o trace k)
  /-- A card has hits just if the estimator ranks its keys, and
  networks just if it ranks networks. -/
  estimator : ∀ {ε : Type} [Estimator ε] {ranks networks : Bool} {start : ε}
    {requests : List (Request Entry Unit)} {e : ObservedEstimator ε},
      FreshEstimator ε ranks networks start →
      reach ObservedEstimator.serve (.fresh start) requests = .ok e →
        (Estimator.topK e).Offered ranks ∧ e.networkTopK.Offered networks ∧
          Scored k (EstimatorFails e trace k) (fun result => result.1.Spans trace k ranks networks)
            (scoreEstimator e trace k)
  /-- A hierarchy is not scored as the other estimators are. -/
  hierarchy : ∀ {τ ρ : Type} [Tracker τ] [RandomSource ρ] (e : ObservedEstimator (Hierarchy τ ρ)),
    scoreEstimator e trace k
      = refuse (if k = 0 then .numericDomain "no ground-truth keys to average over"
      else .unsupported Hierarchy.title "query without a level")
  relay : ∀ {τ ε : Type} [Tracker τ] [Estimator ε] {ranks networks : Bool}
    {tracker : τ} {estimator : ε} {r : ObservedRelay τ ε}, FreshTracker τ tracker →
      FreshEstimator ε ranks networks estimator →
      ObservedRelay.Reached tracker estimator r →
        Scored k (RelayFails r trace k) (·.Spans trace k true false) (scoreRelay r trace k)
  levels : ∀ {ρ : Type} [RandomSource ρ] {choice : LevelChoice}
    {source : Option (UInt64 → ρ)} {memory : Nat} {seed : UInt64} {start h : Hierarchy AnyTracker ρ}
      {inserts : List Entry},
      Hierarchy.ofBudget choice.buildLevel source memory seed = .ok start →
        Estimator.insertAll start inserts = .ok h →
          Scored k (LevelsFail h trace k)
            (List.Forall₂ (fun level report => report.Spans trace k level)
              (List.range Hierarchy.levelCount))
            (scoreHierarchy h trace k)

/-- **Against a loaded trace every scoring ends with a card**, unless a count
overflows or no entry is asked for. -/
theorem Trace.scores_of_loaded {trace : Trace} (loaded : trace.Loaded) (k : Nat) :
    trace.Scores k where
  tracker fresh run := by
    obtain ⟨Inv, hreads, hstart⟩ := fresh.reads
    exact scored_tracker loaded k hreads (hreads.inv_of_reach hstart run)
  estimator fresh run := by
    obtain ⟨Inv, hanswers, hstart⟩ := fresh.exists_answers
    have hkept := hanswers.kept_of_reach hstart run
    exact ⟨hanswers.observed.offered_topK hkept, hanswers.offered_ask hkept,
      scored_estimator loaded k hanswers hkept⟩
  hierarchy := scoreEstimator_hierarchy loaded k
  relay freshTracker freshEstimator reached := by
    obtain ⟨Holds, hreads, htracker⟩ := freshTracker.reads
    obtain ⟨Inv, hanswers, hestimator⟩ := freshEstimator.exists_answers
    obtain ⟨ht, he⟩ := reached.parts_inv hreads hanswers htracker hestimator
    exact scored_relay loaded k hreads ht hanswers he
  levels built run := scored_levels loaded k built run

/-- Three packets of two flows, two of which come to a HashPipe with one cell in each row, before
and after it is asked for a network; the card has the two flows though five are asked for.  An
elastic sketch gets all three, alone and then behind the HashPipe, which takes two more, and so does
a hierarchy with two counters at each level. -/
theorem Trace.scores_of_loaded_two_flows : ∃ (trace : Trace) (o : ObservedTracker HashPipe)
    (e : ObservedEstimator VoteSketch) (r : ObservedRelay HashPipe VoteSketch)
    (h : Hierarchy AnyTracker Xoshiro),
      ofKeys #[7, 7, 1] = .ok trace ∧ (Relay.ofParts o e).feed [1, 7] = .ok r ∧
      (∃ result, scoreTracker o trace 5 = .ok result ∧ result.1.card.flows.k = 2) ∧
      Scored 5 (EstimatorFails e trace 5) (fun result => result.1.Spans trace 5 true false)
        (scoreEstimator e trace 5) ∧
      scoreEstimator (.fresh h) trace 5
        = refuse (.unsupported Hierarchy.title "query without a level") ∧
      Scored 5 (RelayFails r trace 5) (·.Spans trace 5 true false) (scoreRelay r trace 5) ∧
      Scored 5 (LevelsFail h trace 5)
        (List.Forall₂ (fun level report => report.Spans trace 5 level)
          (List.range Hierarchy.levelCount))
        (scoreHierarchy h trace 5) := by
  have hrun : (do
      let trace ← ofKeys #[7, 7, 1]
      let tracker ← HashPipe.ofBudget 48 1
      let o ← reach ObservedTracker.serve (.fresh tracker)
        [.insert 7, .networks (.query 0), .insert 1]
      let sketch ← VoteSketch.ofBudget 48 4 1
      let e ← reach ObservedEstimator.serve (.fresh sketch) [.insert ⟨7, 2⟩, .insert ⟨1, 1⟩]
      let r ← Outcome.ofChecked ((Relay.ofParts o e).feed [1, 7])
      let start : Hierarchy AnyTracker Xoshiro ← Hierarchy.ofBudget
        LevelChoice.spaceSaving.buildLevel none 64 1
      let h ← Outcome.ofChecked (Estimator.insertAll start [⟨7, 2⟩, ⟨1, 1⟩])
      return (trace.keys, (Tracker.topK o).isOk, (trace.ranking.take 5).all fun r =>
        (Tracker.query o r.key).isOk, o.networkTally.isOk, trace.networkRanking.isOk) :
          Outcome (Array Key × Bool × Bool × Bool × Bool))
        = .ok (#[7, 7, 1], true, true, true, true) := by decide +kernel
  obtain ⟨trace, loads, hrun⟩ := Checked.bind_eq_ok.mp hrun
  obtain ⟨tracker, builtTracker, hrun⟩ := Checked.bind_eq_ok.mp hrun
  obtain ⟨o, tracks, hrun⟩ := Checked.bind_eq_ok.mp hrun
  obtain ⟨sketch, builtSketch, hrun⟩ := Checked.bind_eq_ok.mp hrun
  obtain ⟨e, estimates, hrun⟩ := Checked.bind_eq_ok.mp hrun
  obtain ⟨r, feeds, hrun⟩ := Checked.bind_eq_ok.mp hrun
  obtain ⟨start, builtLevels, hrun⟩ := Checked.bind_eq_ok.mp hrun
  obtain ⟨h, run, hrun⟩ := Checked.bind_eq_ok.mp hrun
  have hanswers := Checked.pure_eq_ok.mp hrun
  simp only [Prod.mk.injEq] at hanswers
  obtain ⟨hkeys, htopK, hqueries, htally, hranking⟩ := hanswers
  have freshTracker : FreshTracker HashPipe tracker := .pipeline (.hashPipe builtTracker)
  have freshSketch : FreshEstimator VoteSketch true false sketch := .vote builtSketch
  have feeds := Outcome.ofChecked_eq_ok.mp feeds
  have reached : ObservedRelay.Reached tracker sketch r := .feed (.parts tracks estimates) feeds
  have scores := scores_of_loaded (.keys loads) 5
  refine ⟨trace, o, e, r, h, loads, feeds, ?_,
    (scores.estimator freshSketch estimates).2.2, scores.hierarchy _,
    scores.relay freshTracker freshSketch reached,
    scores.levels builtLevels (Outcome.ofChecked_eq_ok.mp run)⟩
  have hcalm : ∀ failure : Failure, failure.IsOverflow → ¬ TrackerFails o trace 5 failure := by
    rintro failure - (h | ⟨r, hr, h⟩ | h | h)
    · exact Outcome.ofChecked_ne_error htopK failure h
    · exact Outcome.ofChecked_ne_error (List.all_eq_true.mp hqueries r hr) failure h
    · exact Outcome.ofChecked_ne_error htally failure h
    · exact Outcome.ofChecked_ne_error hranking failure h
  obtain ⟨result, hresult, hspans⟩ :=
    (scores.tracker freshTracker tracks).exists_card (by decide) hcalm
  refine ⟨result, hresult, hspans.flows.k_eq.trans ?_⟩
  unfold entries
  rw [hkeys]
  decide

end HeavyHitters
