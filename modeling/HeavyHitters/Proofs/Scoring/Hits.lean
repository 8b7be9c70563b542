import HeavyHitters.Estimator.Hierarchy
import HeavyHitters.Proofs.Sessions.Reached
import HeavyHitters.Score
import HeavyHitters.Trace

/-!
# Hits of rankings

Precision and recall are shares of two counts, which are made in different ways: the first
counts records at the head of the report whose keys are among the true ones, the second counts
the true keys that are in the report.  Both are the size of a common part of two sets of keys,
if no key stands in a list twice.  So one is no more than the other, and the second does not
depend on the order of either list.

No key stands in a list twice that a tracker, an estimator or a trace ranks.  Nearly all of these
lists are read off a tally, so it does not matter what state they are made from.  The heap of a
count sketch is the exception: its entries are listed as they are, and have different keys because
no insert brings in a key that the heap has.

* `countP_eq_card_inter` brings both counts to the same form.
* `Hits.Coherent` is what is known of the counts of two lists of distinct keys.
* `Ranked` lists where rankings come from, and `Ranked.distinctKeys`
  says that their keys are distinct.
* `Hits.coherent_of_distinctKeys` puts both together.
-/

namespace HeavyHitters

section

variable {κ : Type}

/-- No two records have the same key. -/
def DistinctKeys (records : List (Record κ)) : Prop := (records.map (·.key)).Nodup

instance [DecidableEq κ] (records : List (Record κ)) : Decidable (DistinctKeys records) :=
  inferInstanceAs (Decidable (List.Nodup _))

theorem DistinctKeys.take {records : List (Record κ)} (h : DistinctKeys records) (k : Nat) :
    DistinctKeys (records.take k) :=
  h.sublist ((List.take_sublist k records).map _)

/-! ## Sets of keys -/

/-- The keys of records. -/
def keysOf [DecidableEq κ] (records : List (Record κ)) : Finset κ := (records.map (·.key)).toFinset

theorem keysOf_take_subset [DecidableEq κ] (records : List (Record κ)) (k : Nat) :
    keysOf (records.take k) ⊆ keysOf records := by
  intro key hkey
  exact List.mem_toFinset.mpr
    (List.map_subset _ (List.take_subset k records) (List.mem_toFinset.mp hkey))

theorem keysOf_perm [DecidableEq κ] {records others : List (Record κ)} (h : records.Perm others) :
    keysOf records = keysOf others :=
  List.toFinset_eq_of_perm _ _ (h.map _)

/-- Of keys that are all different, those in a set are as many as both have in common. -/
theorem countP_eq_card_inter [DecidableEq κ] {keys : List κ} (hnodup : keys.Nodup)
    {p : κ → Bool} {S : Finset κ} (h : ∀ key, p key = true ↔ key ∈ S) :
    keys.countP p = (S ∩ keys.toFinset).card := by
  have hfilter : (keys.filter p).toFinset = S ∩ keys.toFinset := by
    ext key
    rw [List.mem_toFinset, List.mem_filter, h, Finset.mem_inter, List.mem_toFinset, and_comm]
  calc keys.countP p = (keys.filter p).length := List.countP_eq_length_filter
    _ = (keys.filter p).toFinset.card := (List.toFinset_card_of_nodup (hnodup.filter p)).symm
    _ = (S ∩ keys.toFinset).card := by rw [hfilter]

variable [Ord κ] [Std.TransOrd κ] [Std.LawfulEqOrd κ]

theorem mem_foldl_insert_key {records : List (Record κ)} {keys : Std.TreeSet κ} {key : κ} :
    key ∈ records.foldl (fun keys record => keys.insert record.key) keys
      ↔ key ∈ keys ∨ key ∈ records.map (·.key) := by
  induction records generalizing keys with
  | nil => simp
  | cons record records ih =>
    rw [List.foldl_cons, ih, Std.TreeSet.mem_insert, Std.LawfulEqCmp.compare_eq_iff_eq,
      List.map_cons, List.mem_cons, eq_comm (a := key), or_comm (a := record.key = key), or_assoc]

variable [DecidableEq κ]

theorem contains_keySet_iff {records : List (Record κ)} {key : κ} :
    (keySet records).contains key = true ↔ key ∈ keysOf records := by
  rw [Std.TreeSet.contains_iff_mem, keySet, mem_foldl_insert_key, keysOf, List.mem_toFinset]
  simp

theorem toFinset_toList_keySet (records : List (Record κ)) :
    (keySet records).toList.toFinset = keysOf records := by
  ext key
  rw [List.mem_toFinset, Std.TreeSet.mem_toList, ← Std.TreeSet.contains_iff_mem,
    contains_keySet_iff]

/-! ## Counts of hits -/

namespace Hits

variable {truth reported : List (Record κ)}

/-- The first reported records with a true key are as many as true keys
are reported among the first. -/
theorem precise_eq_card (h : DistinctKeys reported) : (count truth reported).precise
    = (keysOf truth ∩ keysOf (reported.take truth.length)).card := by
  have hcount : (count truth reported).precise
      = ((reported.take truth.length).map (·.key)).countP ((keySet truth).contains ·) := by
    rw [List.countP_map]
    rfl
  rw [hcount, countP_eq_card_inter (h.take truth.length) fun _ => contains_keySet_iff]
  rfl

/-- The true keys that are reported. -/
theorem recalled_eq_card (truth reported : List (Record κ)) :
    (count truth reported).recalled = (keysOf truth ∩ keysOf reported).card := by
  have hnodup : (keySet truth).toList.Nodup := nodup_toList_treeSet _
  show (keySet truth).toList.countP ((keySet reported).contains ·) = _
  rw [countP_eq_card_inter hnodup fun _ => contains_keySet_iff,
    toFinset_toList_keySet, Finset.inter_comm]

/-- What the counts of hits are for two lists of distinct keys, `truth.length`
being the number of true keys. -/
structure Coherent (truth reported : List (Record κ)) : Prop where
  /-- The true keys among the first reported ones. -/
  precise_eq : (count truth reported).precise
    = (keysOf truth ∩ keysOf (reported.take truth.length)).card
  /-- The true keys among all reported ones. -/
  recalled_eq : (count truth reported).recalled = (keysOf truth ∩ keysOf reported).card
  precise_le : (count truth reported).precise ≤ (count truth reported).recalled
  recalled_le : (count truth reported).recalled ≤ truth.length
  /-- A report that is no longer than the truth is all head. -/
  precise_eq_recalled : reported.length ≤ truth.length →
    (count truth reported).precise = (count truth reported).recalled
  /-- The order of the lists does not matter to recall. -/
  recalled_of_perm : ∀ truth' reported', truth'.Perm truth → reported'.Perm reported →
    (count truth' reported').recalled = (count truth reported).recalled
  /-- All true keys are found if they are reported first, in whatever order. -/
  eq_length_of_perm : ((reported.take truth.length).map (·.key)).Perm (truth.map (·.key)) →
    (count truth reported).precise = truth.length ∧ (count truth reported).recalled = truth.length
  /-- Precision and recall are the shares of the true keys that the two counts make. -/
  shares_eq : 0 < truth.length → (count truth reported).shares =
    ⟨(count truth reported).precise.toFloat / truth.length.toFloat,
      (count truth reported).recalled.toFloat / truth.length.toFloat⟩

theorem coherent (htruth : DistinctKeys truth) (hreported : DistinctKeys reported) :
    Coherent truth reported := by
  have hprecise := @precise_eq_card _ _ _ _ _ truth reported hreported
  have hrecalled := recalled_eq_card truth reported
  have hlength : (keysOf truth).card = truth.length := by
    rw [keysOf, List.toFinset_card_of_nodup htruth, List.length_map]
  have hle : (count truth reported).precise ≤ (count truth reported).recalled := by
    rw [hprecise, hrecalled]
    exact Finset.card_le_card (Finset.inter_subset_inter_left (keysOf_take_subset reported _))
  have hle' : (count truth reported).recalled ≤ truth.length := by
    rw [hrecalled, ← hlength]
    exact Finset.card_le_card Finset.inter_subset_left
  refine ⟨hprecise, hrecalled, hle, hle', fun hshort => ?_,
    fun truth' reported' ht hr => ?_, fun hperm => ?_, fun hpos => if_neg (Nat.ne_of_gt hpos)⟩
  · rw [hprecise, hrecalled, List.take_of_length_le hshort]
  · rw [recalled_eq_card, hrecalled, keysOf_perm ht, keysOf_perm hr]
  · -- the true keys are found among the first, and there are no more of them
    have hkeys : keysOf (reported.take truth.length) = keysOf truth :=
      List.toFinset_eq_of_perm _ _ hperm
    have hall : (count truth reported).precise = truth.length := by
      rw [hprecise, hkeys, Finset.inter_self, hlength]
    omega

end Hits

end

/-! ## Rankings of estimators -/

/-- A ranking of sums is a ranking of distinct keys. -/
theorem distinctKeys_of_mergeRanked {κ : Type} [Ord κ] [Std.TransOrd κ] [Std.LawfulEqOrd κ]
    {records ranking : List (Record κ)} (h : mergeRanked records = .ok ranking) :
    DistinctKeys ranking := by
  obtain ⟨tally, -, rfl⟩ := Checked.map_eq_ok.mp h
  exact tally.nodup_ranking

/-- What is asked is the kept answer or a new one. -/
theorem Observed.answer_cases_of_ask {σ α φ : Type} {o o' : Observed σ α}
    {compute : σ → Except φ α} {answer : α} (h : o.ask compute = .ok (answer, o')) :
    o.answer = some answer ∨ compute o.state = .ok answer := by
  obtain ⟨state, kept, warned⟩ := o
  cases kept with
  | some kept =>
    obtain ⟨rfl, -⟩ := Prod.mk.inj (Except.ok.inj h)
    exact .inl rfl
  | none =>
    obtain ⟨computed, hcompute, h⟩ := Checked.bind_eq_ok.mp h
    obtain ⟨rfl, -⟩ := Prod.mk.inj (Checked.pure_eq_ok.mp h)
    exact .inr hcompute

namespace Estimator

variable {ε : Type} [Estimator ε] {Inv : ε → Prop} {e e' : ObservedEstimator ε}

/-- An invariant of an estimator under which the keys and the networks
in its rankings are distinct. -/
structure Distinguishes (Inv : ε → Prop) : Prop where
  inv_insert : ∀ {e e' : ε} {key : Key} {weight : Int}, Inv e →
    insert e key weight = .ok e' → Inv e'
  distinct_topK : ∀ {e : ε} {ranking : List (Record Key)}, Inv e → topK e = .ok ranking →
    DistinctKeys ranking
  distinct_networkTopK : ∀ {e : ε} {ranking : List (Record Network)}, Inv e →
    networkTopK e = .ok ranking →
    DistinctKeys ranking

/-- The same of an observed estimator, the kept answer included. -/
structure Distinct (Inv : ε → Prop) (e : ObservedEstimator ε) : Prop where
  state : Inv e.state
  distinct_answer : ∀ answer, e.answer = some answer → DistinctKeys answer

theorem Distinguishes.distinct_ask (h : Distinguishes Inv) (he : Distinct Inv e)
    {ranking : List (Record Network)} (hask : e.networkTopK = .ok (ranking, e')) :
    DistinctKeys ranking := by
  rcases Observed.answer_cases_of_ask hask with hkept | hnew
  · exact he.distinct_answer ranking hkept
  · exact h.distinct_networkTopK he.state hnew

theorem Distinguishes.distinct_of_serve (h : Distinguishes Inv) (he : Distinct Inv e)
    {request : Request Entry Unit} {reply : Reply} (hserve : e.serve request = .ok (reply, e')) :
    Distinct Inv e' := by
  rcases cases_of_serve hserve with ⟨key, weight, hi⟩ | rfl | ⟨ranking, hask⟩
  · obtain ⟨state, hinsert, rfl⟩ := exists_of_insert_observed hi
    exact ⟨h.inv_insert he.state hinsert, he.distinct_answer⟩
  · exact he
  · have hdistinct := h.distinct_ask he hask
    obtain rfl := Observed.eq_of_ask hask
    refine ⟨he.state, fun answer hanswer => ?_⟩
    obtain rfl := Option.some.inj hanswer
    exact hdistinct

/-- **What a session leads an estimator to ranks distinct keys.** -/
theorem Distinguishes.distinct_of_reach (h : Distinguishes Inv) {start : ε} (hstart : Inv start)
    {requests : List (Request Entry Unit)}
    (run : reach ObservedEstimator.serve (.fresh start) requests = .ok e) : Distinct Inv e := by
  have hfresh : Distinct Inv (.fresh start) := ⟨hstart, fun _ hanswer => nomatch hanswer⟩
  exact inv_reach (Distinct Inv) (fun he hserve => h.distinct_of_serve he hserve) hfresh run

end Estimator

/-- A built estimator has such an invariant, which says something of the
heap of a count sketch only. -/
theorem FreshEstimator.exists_distinguishes {ε : Type} [Estimator ε]
    {ranks networks : Bool} {start : ε} (h : FreshEstimator ε ranks networks start) :
    ∃ Inv : ε → Prop, Estimator.Distinguishes Inv ∧ Inv start := by
  cases h with
  | countMin | countSketch | conservative | sampled | tree =>
    exact ⟨fun _ => True,
      ⟨fun _ _ => trivial, fun _ h => (nomatch h), fun _ h => nomatch h⟩, trivial⟩
  | heap built =>
    refine ⟨fun s => s.heap.WellFormed, ⟨fun hs hi => ?_, fun hs h => ?_, fun _ h => nomatch h⟩,
      (HeapSketch.wellFormed_of_ofBudget built).1⟩
    · obtain ⟨estimate, hcall⟩ := HeapSketch.exists_call hi
      exact (hs.moves hcall).wellFormed hs
    · exact Except.ok.inj h ▸ hs.indexed.nodup_records
  | univMon =>
    refine ⟨fun _ => True, ⟨fun _ _ => trivial, fun _ h => ?_, fun _ h => nomatch h⟩, trivial⟩
    exact Except.ok.inj h ▸ Tally.nodup_ranking _
  | vote =>
    refine ⟨fun _ => True, ⟨fun _ _ => trivial, fun _ h => ?_, fun _ h => nomatch h⟩, trivial⟩
    exact distinctKeys_of_mergeRanked (Outcome.ofChecked_eq_ok.mp h)
  | coco =>
    refine ⟨fun _ => True, ⟨fun _ _ => trivial, fun _ h => ?_, fun _ h => ?_⟩, trivial⟩
    · obtain ⟨tally, -, rfl⟩ := Checked.map_eq_ok.mp (Outcome.ofChecked_eq_ok.mp h)
      exact tally.nodup_ranking
    · obtain ⟨tally, -, rfl⟩ := Checked.map_eq_ok.mp (Outcome.ofChecked_eq_ok.mp h)
      exact tally.nodup_ranking

/-! ## All rankings -/

/-- Where rankings of keys and of networks come from.  Only of an estimator it matters how it came
about: it was built, and then served requests. -/
inductive Ranked : (κ : Type) → List (Record κ) → Prop where
  | tracker {τ : Type} [Tracker τ] {t : τ} {ranking : List (Record Key)}
      (answered : Tracker.topK t = .ok ranking) :
      Ranked Key ranking
  | trackerNetworks {τ : Type} [Tracker τ] {t t' : ObservedTracker τ}
      {ranking : List (Record Network)} (answered : t.networkTopK = .ok (ranking, t')) :
        Ranked Network ranking
  | estimator {ε : Type} [Estimator ε] {ranks networks : Bool} {start : ε}
      {requests : List (Request Entry Unit)} {e : ObservedEstimator ε} {ranking : List (Record Key)}
        (fresh : FreshEstimator ε ranks networks start)
      (reached : reach ObservedEstimator.serve (.fresh start) requests = .ok e)
      (answered : Estimator.topK e = .ok ranking) : Ranked Key ranking
  | estimatorNetworks {ε : Type} [Estimator ε] {ranks networks : Bool} {start : ε}
      {requests : List (Request Entry Unit)} {e e' : ObservedEstimator ε}
        {ranking : List (Record Network)}
      (fresh : FreshEstimator ε ranks networks start)
      (reached : reach ObservedEstimator.serve (.fresh start) requests = .ok e)
      (answered : e.networkTopK = .ok (ranking, e')) : Ranked Network ranking
  | level {τ ρ : Type} [Tracker τ] {h : Hierarchy τ ρ} {level : Nat} {ranking : List (Record Key)}
      (answered : h.levelTopK level = .ok ranking) : Ranked Key ranking
  | relay {τ ε : Type} [Tracker τ] [Estimator ε] {r : Relay τ ε} {ranking : List (Record Key)}
      (answered : r.topK = .ok ranking) : Ranked Key ranking
  | flows (t : Trace) : Ranked Key t.ranking
  | networks {t : Trace} {ranking : List (Record Network)}
      (answered : t.networkRanking = .ok ranking) :
      Ranked Network ranking
  | masked {t : Trace} {mask : Key} {ranking : List (Record Key)}
      (answered : t.maskedRanking mask = .ok ranking) :
      Ranked Key ranking
  /-- The `k` first records of a ranking. -/
  | cut {κ : Type} {ranking : List (Record κ)} (ranked : Ranked κ ranking) (k : Nat) :
      Ranked κ (ranking.take k)

/-- **No ranking lists a key twice.** -/
theorem Ranked.distinctKeys {κ : Type} {ranking : List (Record κ)} (h : Ranked κ ranking) :
    DistinctKeys ranking := by
  induction h with
  | tracker answered => exact distinctKeys_of_mergeRanked answered
  | trackerNetworks answered =>
    obtain ⟨⟨tally, next⟩, -, answered⟩ := Checked.bind_eq_ok.mp answered
    obtain ⟨rfl, -⟩ := Prod.mk.inj (Checked.pure_eq_ok.mp answered)
    exact tally.nodup_ranking
  | estimator fresh reached answered =>
    obtain ⟨Inv, hdistinguishes, hstart⟩ := fresh.exists_distinguishes
    exact hdistinguishes.distinct_topK
      (hdistinguishes.distinct_of_reach hstart reached).state answered
  | estimatorNetworks fresh reached answered =>
    obtain ⟨Inv, hdistinguishes, hstart⟩ := fresh.exists_distinguishes
    exact hdistinguishes.distinct_ask (hdistinguishes.distinct_of_reach hstart reached) answered
  | level answered =>
    obtain ⟨t, -, answered⟩ := Checked.bind_eq_ok.mp answered
    exact distinctKeys_of_mergeRanked answered
  | relay answered =>
    obtain ⟨tracked, -, answered⟩ := Checked.bind_eq_ok.mp answered
    obtain ⟨estimated, -, answered⟩ := Checked.bind_eq_ok.mp answered
    exact distinctKeys_of_mergeRanked (Outcome.ofChecked_eq_ok.mp answered)
  | flows t => exact Tally.nodup_ranking t.counts
  | networks answered => exact distinctKeys_of_mergeRanked answered
  | masked answered => exact distinctKeys_of_mergeRanked answered
  | cut ranked k ih => exact ih.take k

/-- **Hits are counts of common keys**, for lists of distinct keys, as all rankings are. -/
theorem Hits.coherent_of_distinctKeys {κ : Type} [Ord κ] [Std.TransOrd κ]
    [Std.LawfulEqOrd κ] [DecidableEq κ] {truth reported ranking : List (Record κ)} :
    (DistinctKeys truth → DistinctKeys reported → Coherent truth reported) ∧
      (Ranked κ ranking → DistinctKeys ranking) :=
  ⟨fun htruth hreported => coherent htruth hreported, fun h => h.distinctKeys⟩

/-- The ranking of a count sketch with a heap against two true keys: one is among the first two
reported keys, and the other one is reported, too. -/
theorem Hits.coherent_of_distinctKeys_two_keys :
    ∃ (start : HeapSketch) (e : ObservedEstimator HeapSketch)
    (ranking : List (Record Key)), HeapSketch.ofBudget 80 3 4 2 = .ok start ∧
      reach ObservedEstimator.serve (.fresh start)
        [.insert ⟨9, 5⟩, .insert ⟨6, 2⟩, .topK, .insert ⟨3, 4⟩, .query 9, .insert ⟨6, 3⟩,
          .insert ⟨4, 1⟩] = .ok e ∧
      Estimator.topK e = .ok ranking ∧ Ranked Key ranking ∧ DistinctKeys ranking ∧
      DistinctKeys ([⟨6, 8⟩, ⟨3, 5⟩] : List (Record Key)) ∧ Coherent [⟨6, 8⟩, ⟨3, 5⟩] ranking ∧
      Hits.count [⟨6, 8⟩, ⟨3, 5⟩] ranking = ⟨2, 1, 2⟩ := by
  have hrun : (do
      let start ← HeapSketch.ofBudget 80 3 4 2
      let e ← reach ObservedEstimator.serve (.fresh start)
        [.insert ⟨9, 5⟩, .insert ⟨6, 2⟩, .topK, .insert ⟨3, 4⟩, .query 9,
          .insert ⟨6, 3⟩, .insert ⟨4, 1⟩]
      let ranking ← Estimator.topK e
      return Hits.count [⟨6, 8⟩, ⟨3, 5⟩] ranking : Outcome Hits)
        = .ok ⟨2, 1, 2⟩ := by decide +kernel
  obtain ⟨start, built, hrun⟩ := Checked.bind_eq_ok.mp hrun
  obtain ⟨e, reached, hrun⟩ := Checked.bind_eq_ok.mp hrun
  obtain ⟨ranking, answered, hrun⟩ := Checked.bind_eq_ok.mp hrun
  have ranked : Ranked Key ranking := .estimator (.heap built) reached answered
  have htruth : DistinctKeys ([⟨6, 8⟩, ⟨3, 5⟩] : List (Record Key)) := by decide
  obtain ⟨hcoherent, hdistinct⟩ :=
    @coherent_of_distinctKeys Key _ _ _ _ [⟨6, 8⟩, ⟨3, 5⟩] ranking ranking
  exact ⟨start, e, ranking, built, reached, answered, ranked, hdistinct ranked, htruth,
    hcoherent htruth (hdistinct ranked), Checked.pure_eq_ok.mp hrun⟩

end HeavyHitters
