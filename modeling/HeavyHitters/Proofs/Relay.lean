import HeavyHitters.Proofs.Estimator.OneSided
import HeavyHitters.Proofs.Tracker.Conservation
import HeavyHitters.Proofs.Tracker.SpaceSaving.Steps
import HeavyHitters.Relay

/-!
# Relays never underestimate

A relay hands every unit that its tracker carries out to its estimator.  If the tracker loses no
weight and the estimator is one-sided, both together know of every key at least what was inserted.

* `Relay.feed_eq_ok` splits a run of a relay into the run of its tracker and, on what that carried
  out, the run of its estimator.
* `FreshRetaining` lists the trackers that lose no weight, as they are built.
* `Relay.count_le_query` is the bound on every query that does not overflow.
-/

namespace HeavyHitters

namespace Relay

variable {τ ε : Type} [Tracker τ] [Estimator ε] {r r' : Relay τ ε}

/-- An insert of a relay is one of its tracker, followed by one of its
estimator if a unit was carried out. -/
theorem insert_eq_ok {key : Key} (h : r.insert key = .ok r') : ∃ out,
    Tracker.insert r.tracker key = .ok (r'.tracker, out) ∧
      Estimator.insertAll r.estimator out.toList = .ok r'.estimator ∧
      r'.forwarded = r.forwarded + weightOf allKeys out.toList := by
  obtain ⟨⟨tracker, out⟩, hi, h⟩ := Checked.bind_eq_ok.mp h
  cases out with
  | none =>
    obtain rfl := Checked.pure_eq_ok.mp h
    exact ⟨none, hi, rfl, (Int.add_zero _).symm⟩
  | some unit =>
    obtain ⟨estimator, he, h⟩ := Checked.bind_eq_ok.mp h
    obtain rfl := Checked.pure_eq_ok.mp h
    refine ⟨some unit, hi, ?_, ?_⟩
    · rw [Option.toList_some, Estimator.insertAll_cons]
      exact Checked.bind_eq_ok.mpr ⟨estimator, he, rfl⟩
    · simp [allKeys]

/-- **A run of a relay** is a run of its tracker, and a run of its
estimator on what was carried out. -/
theorem feed_eq_ok {keys : List Key} (h : r.feed keys = .ok r') : ∃ outs,
    Tracker.insertAll r.tracker keys = .ok (r'.tracker, outs) ∧
      Estimator.insertAll r.estimator outs.reduceOption = .ok r'.estimator ∧
      r'.forwarded = r.forwarded + weightOf allKeys outs.reduceOption := by
  induction keys generalizing r with
  | nil =>
    cases h
    exact ⟨[], rfl, rfl, (Int.add_zero _).symm⟩
  | cons key keys ih =>
    rw [feed, List.foldlM_cons] at h
    obtain ⟨r₁, hi, h⟩ := Checked.bind_eq_ok.mp h
    obtain ⟨out, ht, he, hf⟩ := insert_eq_ok hi
    obtain ⟨outs, hts, hes, hfs⟩ := ih h
    refine ⟨out :: outs, Tracker.insertAll_cons_eq_ok.mpr ⟨_, _, _, ht, hts, rfl⟩, ?_, ?_⟩
    · have := (Estimator.insertAll_append _ _ _).trans (Checked.bind_eq_ok.mpr ⟨_, he, hes⟩)
      cases out with
      | none => rwa [List.reduceOption_cons_of_none]
      | some unit => rwa [List.reduceOption_cons_of_some]
    · rw [hfs, hf, weightOf_reduceOption_cons, Int.add_assoc]

end Relay

/-! ## Trackers that lose no weight -/

/-- A tracker of one of the four kinds that lose no weight, as it is built. -/
inductive FreshRetaining : (τ : Type) → [Tracker τ] → τ → Prop where
  | pipeline {τ : Type} [Tracker τ] {t : τ} (fresh : FreshPipeline τ t) : FreshRetaining τ t
  | spaceSaving {memory : Nat} {t : SpaceSaving} (built : SpaceSaving.ofBudget memory = .ok t) :
      FreshRetaining SpaceSaving t

theorem FreshRetaining.retains {τ : Type} [Tracker τ] {start : τ} (h : FreshRetaining τ start) :
    ∃ Inv : τ → Prop, Tracker.Retains Inv ∧ Inv start ∧ Tracker.residents start = [] := by
  cases h with
  | pipeline fresh =>
    obtain ⟨Inv, hc, hstart⟩ := fresh.conserves
    exact ⟨Inv, hc.retains, hstart⟩
  | spaceSaving built => exact ⟨_, SpaceSaving.retains, SpaceSaving.fresh_of_ofBudget built⟩

namespace Relay

variable {τ ε : Type} [Tracker τ] [Estimator ε]

/-- A query adds what the parts answer. -/
theorem query_eq_plus {r : Relay τ ε} {key : Key} {tracked estimated : Int}
    (ht : Tracker.query r.tracker key = .ok tracked)
    (he : Estimator.query r.estimator key = .ok estimated) :
    r.query key = Outcome.ofChecked (Count.plus tracked estimated) := by
  unfold query
  rw [ht, he]
  rfl

theorem query_eq_error {r : Relay τ ε} {key : Key} {fault : Fault}
    (ht : Tracker.query r.tracker key = .error fault) : r.query key = .error (.fault fault) := by
  unfold query
  rw [ht]
  rfl

/--
**A relay never underestimates.**  Whatever was fed to a relay of a tracker that loses no weight and
a one-sided estimator, as long as the weight handed from one to the other fits a counter: a query of
any key overflows, or its answer is no less than the number of times that the key was inserted.
-/
theorem count_le_query {tracker : τ} {estimator : ε} {keys : List Key} {r : Relay τ ε}
    (freshTracker : FreshRetaining τ tracker) (freshEstimator : FreshOneSided ε estimator)
    (run : (ofParts tracker estimator).feed keys = .ok r) (hf : r.forwarded ≤ Count.greatest)
    (key : Key) : (∃ estimate, r.query key = .ok estimate ∧ keys.count key ≤ estimate) ∨
      r.query key = .error (.fault (.overflow .add)) := by
  obtain ⟨Inv, hretains, hinv, hempty⟩ := freshTracker.retains
  obtain ⟨Given, honesided, hgiven⟩ := freshEstimator.oneSided
  obtain ⟨outs, htracker, hestimator, hforwarded⟩ := feed_eq_ok run
  have hpos : ∀ unit ∈ outs.reduceOption, 0 ≤ unit.count := fun unit hu =>
    Int.le_trans (by decide) (hretains.outs_positive hinv htracker unit hu)
  have htotal : weightOf allKeys outs.reduceOption ≤ Count.greatest := by
    rw [hforwarded, show (ofParts tracker estimator).forwarded = 0 from rfl, Int.zero_add] at hf
    exact hf
  -- what the tracker still holds and what it has carried out cover the key
  have hcover : (keys.count key : Int) ≤ weightOf (· == key) (Tracker.residents r.tracker)
      + weightOf (· == key) outs.reduceOption :=
    hretains.run hinv hempty htracker (· == key)
  have hquery := hretains.query_eq (hretains.inv_insertAll hinv htracker) key
  have hgiven' := honesided.given_insertAll hgiven hpos hestimator
  obtain ⟨estimated, hestimated, hle⟩ := honesided.le_query hgiven' hpos htotal key
  by_cases hfits : Count.Fits (weightOf (· == key) (Tracker.residents r.tracker))
  · rw [Count.narrow_of_fits hfits] at hquery
    rw [query_eq_plus hquery hestimated]
    by_cases hsum : Count.Fits (weightOf (· == key) (Tracker.residents r.tracker) + estimated)
    · refine .inl ⟨_, Outcome.ofChecked_eq_ok.mpr (Count.narrow_of_fits hsum), ?_⟩
      simp only [List.nil_append] at hle
      omega
    · exact .inr (congrArg Outcome.ofChecked (if_neg hsum))
  · refine .inr (query_eq_error (hquery.trans (if_neg hfits)))

/-- A HashPipe with one cell in each row in front of a count-min
sketch, which gets the unit of 5. -/
theorem count_le_query_hashPipe_countMin :
    ∃ (tracker : HashPipe) (estimator : CountMin) (r : Relay HashPipe CountMin),
      FreshRetaining HashPipe tracker ∧ FreshOneSided CountMin estimator ∧
      (ofParts tracker estimator).feed [7, 7, 1, 2, 1, 1, 3, 4, 5, 6] = .ok r ∧
      r.forwarded = 1 ∧ ∃ estimate, r.query 5 = .ok estimate ∧
        ([7, 7, 1, 2, 1, 1, 3, 4, 5, 6] : List Key).count 5 ≤ estimate := by
  have hrun : (do
      let tracker ← HashPipe.ofBudget 48 1
      let estimator ← CountMin.ofBudget 64 2 4 1
      let r ← Outcome.ofChecked
        ((ofParts tracker estimator).feed [7, 7, 1, 2, 1, 1, 3, 4, 5, 6])
      let estimate ← r.query 5
      return (r.forwarded, estimate) : Outcome (Int × Int)) = .ok (1, 1) := by decide +kernel
  obtain ⟨tracker, htracker, hrun⟩ := Checked.bind_eq_ok.mp hrun
  obtain ⟨estimator, hestimator, hrun⟩ := Checked.bind_eq_ok.mp hrun
  obtain ⟨r, run, hrun⟩ := Checked.bind_eq_ok.mp hrun
  obtain ⟨estimate, hquery, hrun⟩ := Checked.bind_eq_ok.mp hrun
  obtain ⟨hforwarded, -⟩ := Prod.mk.inj (Checked.pure_eq_ok.mp hrun)
  have run := Outcome.ofChecked_eq_ok.mp run
  have freshTracker : FreshRetaining HashPipe tracker := .pipeline (.hashPipe htracker)
  have freshEstimator : FreshOneSided CountMin estimator := .countMin hestimator
  have hbound := count_le_query freshTracker freshEstimator run (by rw [hforwarded]; decide) 5
  refine ⟨tracker, estimator, r, freshTracker, freshEstimator, run, hforwarded,
    hbound.resolve_right fun hoverflow => ?_⟩
  rw [hquery] at hoverflow
  cases hoverflow

end Relay

end HeavyHitters
