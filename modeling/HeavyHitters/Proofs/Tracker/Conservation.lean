import HeavyHitters.Proofs.Tracker.Pipelines

/-!
# Conservation of weight, key by key

Of every key, a pipeline tracker holds or has carried out exactly what was inserted.  So no query is
ever too high, and what a query misses is what was handed to the estimator behind the tracker.

* `FreshPipeline` lists the trackers this is about, as they are built.
* `FreshPipeline.conserves` reduces each of them to an invariant that conserves weight.
* `Tracker.Balanced` is the balance of a run, and `Tracker.balanced_of_insertAll` says that every
  run of a pipeline is balanced.
-/

namespace HeavyHitters

/-- A tracker of one of the three pipeline kinds, as it is built from a budget and a seed. -/
inductive FreshPipeline : (τ : Type) → [Tracker τ] → τ → Prop where
  | hashPipe {memory : Nat} {seed : UInt64} {t : HashPipe}
      (built : HashPipe.ofBudget memory seed = .ok t) : FreshPipeline HashPipe t
  /-- The source of the coins is any one, and so is the way it is made from a seed. -/
  | precision {ρ : Type} [RandomSource ρ] {source : UInt64 → ρ} {memory : Nat} {seed : UInt64}
      {t : Precision ρ} (built : Precision.ofBudget source memory seed = .ok t) :
      FreshPipeline (Precision ρ) t
  /-- Any layout and any ratio that are not refused. -/
  | funnel {memory : Nat} {layout : List StageKind} {ratio : Float} {seed : UInt64} {t : Funnel}
      (built : Funnel.ofLayout memory layout ratio seed = .ok t) : FreshPipeline Funnel t

/-- A built pipeline starts empty, in an invariant that conserves weight. -/
theorem FreshPipeline.conserves {τ : Type} [Tracker τ] {start : τ} (h : FreshPipeline τ start) :
    ∃ Inv : τ → Prop, Tracker.Conserves Inv ∧ Inv start ∧ Tracker.residents start = [] := by
  cases h with
  | hashPipe built => exact ⟨_, HashPipe.conserves, HashPipe.fresh_of_ofBudget built⟩
  | precision built => exact ⟨_, Precision.conserves, Precision.fresh_of_ofBudget built⟩
  | funnel built => exact ⟨_, Funnel.conserves, Funnel.fresh_of_ofLayout built⟩

namespace Tracker

variable {τ : Type} [Tracker τ]

/-- The balance of a run: the keys inserted against what a tracker then holds and what was carried
out on the way. -/
structure Balanced (t : τ) (keys : List Key) (outs : List (Option Entry)) : Prop where
  /-- Every query has an answer, and what it misses of the true count was carried out. -/
  query_add_carried : ∀ key, ∃ weight, query t key = .ok weight ∧
    weight + weightOf (· == key) outs.reduceOption = keys.count key
  /-- No answer is above the true count. -/
  query_le_count : ∀ key weight, query t key = .ok weight → weight ≤ keys.count key
  /-- Every unit carried out has weight. -/
  carried_positive : ∀ unit ∈ outs.reduceOption, 1 ≤ unit.count
  /-- The resident weight and the weight carried out are what was inserted. -/
  resident_add_carried : ((residents t).map (·.count)).sum
    + (outs.reduceOption.map (·.count)).sum = keys.length

/-- **Every run of a pipeline is balanced.** -/
theorem balanced_of_insertAll {start t : τ} {keys : List Key} {outs : List (Option Entry)}
    (fresh : FreshPipeline τ start) (hn : (keys.length : Int) ≤ Count.greatest)
    (run : insertAll start keys = .ok (t, outs)) : Balanced t keys outs := by
  obtain ⟨Inv, hc, hstart, hempty⟩ := fresh.conserves
  have hinv : Inv t := hc.inv_insertAll hstart run
  have houts : ∀ unit ∈ outs.reduceOption, 1 ≤ unit.count := hc.outs_positive hstart run
  have hout : ∀ select, 0 ≤ weightOf select outs.reduceOption := fun select =>
    weightOf_nonneg fun unit hu => Int.le_trans (by decide) (houts unit hu)
  have hres : ∀ select, 0 ≤ weightOf select (residents t) := fun select =>
    weightOf_nonneg fun e he => Int.le_trans (by decide) (hc.positive hinv e he)
  have hbalance := hc.run hstart hempty run
  have hcount : ∀ key, weightOf (· == key) (residents t) + weightOf (· == key) outs.reduceOption
      = keys.count key := fun key => hbalance (· == key)
  have hquery : ∀ key, query t key = .ok (weightOf (· == key) (residents t)) := by
    intro key
    rw [hc.query_eq hinv key]
    -- what is resident of a key is part of its inserts, so the sum of a query fits
    refine Count.narrow_of_fits ⟨?_, ?_⟩
    · have := hres (· == key)
      unfold Count.least
      omega
    · have := hcount key
      have := hout (· == key)
      have : keys.count key ≤ keys.length := List.count_le_length
      omega
  refine ⟨fun key => ⟨_, hquery key, hcount key⟩, ?_, houts, ?_⟩
  · intro key weight hw
    have := hcount key
    have := hout (· == key)
    rw [← Except.ok.inj ((hquery key).symm.trans hw)]
    omega
  · have := hbalance allKeys
    rwa [weightOf_allKeys, weightOf_allKeys,
      show keys.countP allKeys = keys.length from List.countP_eq_length.mpr fun _ _ => rfl] at this

/-- A HashPipe with one cell in each row, which has to carry the last unit but one out. -/
theorem balanced_of_insertAll_hashPipe :
    ∃ start t : HashPipe, ∃ outs, FreshPipeline HashPipe start ∧
      (([7, 7, 1, 2, 1, 1, 3, 4, 5, 6] : List Key).length : Int) ≤ Count.greatest ∧
      insertAll start [7, 7, 1, 2, 1, 1, 3, 4, 5, 6] = .ok (t, outs) ∧
      outs.reduceOption = [⟨5, 1⟩] ∧ Balanced t [7, 7, 1, 2, 1, 1, 3, 4, 5, 6] outs := by
  have hrun : (do
      let start ← HashPipe.ofBudget 48 1
      let result ← Outcome.ofChecked (insertAll start [7, 7, 1, 2, 1, 1, 3, 4, 5, 6])
      return result.2.reduceOption : Outcome (List Entry)) = .ok [⟨5, 1⟩] := by decide +kernel
  obtain ⟨start, built, hrun⟩ := Checked.bind_eq_ok.mp hrun
  obtain ⟨⟨t, outs⟩, run, hout⟩ := Checked.bind_eq_ok.mp hrun
  have run := Outcome.ofChecked_eq_ok.mp run
  exact ⟨start, t, outs, .hashPipe built, by decide, run, Checked.pure_eq_ok.mp hout,
    balanced_of_insertAll (.hashPipe built) (by decide) run⟩

end Tracker

end HeavyHitters
