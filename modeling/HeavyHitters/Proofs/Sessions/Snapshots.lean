import HeavyHitters.Estimator.CocoSketch
import HeavyHitters.Proofs.Sessions
import HeavyHitters.Proofs.Tracker.Answers

/-!
# Answers about networks are snapshots

Every tracker and the Coco sketch can be asked for networks.  What they answer is the
aggregate of the state at the first question; later inserts do not change it, and the
questions change nothing else.

* `ObservedTracker.serve` and `ObservedEstimator.serve` put requests to a tracker
  and to an estimator; `ObservedTracker.serve_eq` and `CocoSketch.serve_eq` bring
  both to the form of a service.
* `Observed.frozen_of_session` is the statement about all sessions.
-/

namespace HeavyHitters

/-! ## Trackers -/

/-- The questions about networks that a tracker answers. -/
inductive NetworkQuestion where
  | tally
  | query (network : Network)
  | topK

/-- How the answer to a question is read off the weight by network. -/
def NetworkQuestion.read : NetworkQuestion → Tally Network → Reply
  | .tally, weights => .networkTally weights
  | .query network, weights => .count (weights.count network)
  | .topK, weights => .networkRanking weights.ranking

namespace ObservedTracker

variable {τ : Type} [Tracker τ]

/-- Puts a request to a tracker. -/
def serve (t : ObservedTracker τ) :
    Request Key NetworkQuestion → Outcome (Reply × ObservedTracker τ)
  | .insert key => do
    let (t, out) ← Tracker.insert t key
    return (.inserted out, t)
  | .query key => do return (.count (← Tracker.query t key), t)
  | .topK => do return (.ranking (← Tracker.topK t), t)
  | .networks .tally => do
    let (tally, t) ← t.networkTally
    return (.networkTally tally, t)
  | .networks (.query network) => do
    let (count, t) ← t.queryNetwork network
    return (.count count, t)
  | .networks .topK => do
    let (records, t) ← t.networkTopK
    return (.networkRanking records, t)

/-- A tracker on its own, with the weight by network as the aggregate. -/
def service (τ : Type) [Tracker τ] (owner : String) :
    Service τ (Tally Network) Key NetworkQuestion where
  insert t key := do
    let (t, out) ← Tracker.insert t key
    return (t, .inserted out)
  query t key := do return .count (← Tracker.query t key)
  topK t := do return .ranking (← Tracker.topK t)
  aggregate t := Outcome.ofChecked (Tracker.networks t)
  read := NetworkQuestion.read
  owner := owner

theorem serve_eq (owner : String) : @serve τ _ = (service τ owner).serve := by
  funext t request
  obtain ⟨state, answer, warned⟩ := t
  cases request with
  | insert key =>
    simp only [serve, Service.serve, Observed.run, service, Tracker.insert]
    cases Tracker.insert state key <;> rfl
  | query key =>
    simp only [serve, Service.serve, service, Tracker.query]
    cases Tracker.query state key <;> rfl
  | topK =>
    simp only [serve, Service.serve, service, Tracker.topK, Tracker.residents]
    cases mergeRanked (Tracker.residents state) <;> rfl
  | networks question =>
    cases answer with
    | some answer => cases question <;> rfl
    | none =>
      cases question <;>
        simp only [serve, Service.serve, service, networkTally, queryNetwork,
          networkTopK, Observed.ask] <;>
        cases Tracker.networks state <;> rfl

end ObservedTracker

/-- A built tracker has an owner of its warnings, whatever state it gets to. -/
theorem FreshTracker.exists_owner {τ : Type} [Tracker τ] {start : τ} (h : FreshTracker τ start) :
    ∃ owner, ∀ t : τ, Tracker.owner t = some owner := by
  cases h with
  | pipeline fresh => cases fresh <;> exact ⟨_, fun _ => rfl⟩
  | vote => exact ⟨_, fun _ => rfl⟩
  | spaceSaving => exact ⟨_, fun _ => rfl⟩

/-- Every tracker sums its residents up by network. -/
theorem FreshTracker.networks_eq {τ : Type} [Tracker τ] {start : τ}
    (h : FreshTracker τ start) (t : τ) :
    Tracker.networks t = networkTally (Tracker.residents t) := by
  cases h with
  | pipeline fresh => exact fresh.networks_eq t
  | vote => rfl
  | spaceSaving => rfl

/-! ## Coco sketches -/

/-- Puts a request to an estimator, from which no unit is carried out. -/
def ObservedEstimator.serve {ε : Type} [Estimator ε] (e : ObservedEstimator ε) :
    Request Entry Unit → Outcome (Reply × ObservedEstimator ε)
  | .insert unit => do return (.inserted none, ← Estimator.insert e unit.key unit.count)
  | .query key => do return (.count (← Estimator.query e key), e)
  | .topK => do return (.ranking (← Estimator.topK e), e)
  | .networks () => do
    let (records, e) ← e.networkTopK
    return (.networkRanking records, e)

namespace CocoSketch

variable {ρ : Type} [RandomSource ρ]

/-- A Coco sketch on its own, with the ranking of the networks as the aggregate. -/
def service (ρ : Type) [RandomSource ρ] :
    Service (CocoSketch ρ) (List (Record Network)) Entry Unit where
  insert s unit := do return (← s.insert unit.key unit.count, .inserted none)
  query s key := do return .count (← s.query key)
  topK s := do return .ranking (← s.topK)
  aggregate s := Outcome.ofChecked s.networkTopK
  read _ records := .networkRanking records
  owner := title

theorem serve_eq : @ObservedEstimator.serve (CocoSketch ρ) _ = (service ρ).serve := by
  funext e request
  obtain ⟨state, answer, warned⟩ := e
  cases request with
  | insert unit =>
    simp only [ObservedEstimator.serve, Service.serve, Observed.run, service, Estimator.insert]
    cases state.insert unit.key unit.count <;> rfl
  | query key =>
    simp only [ObservedEstimator.serve, Service.serve, service, Estimator.query]
    cases state.query key <;> rfl
  | topK =>
    simp only [ObservedEstimator.serve, Service.serve, service, Estimator.topK]
    cases state.topK <;> rfl
  | networks question =>
    cases answer with
    | some answer => rfl
    | none =>
      simp only [ObservedEstimator.serve, Service.serve, service, ObservedEstimator.networkTopK,
        Estimator.networkTopK, Observed.ask]
      cases state.networkTopK <;> rfl

end CocoSketch

/-! ## All sessions -/

/--
**Answers about networks are frozen at the first question.**  In every session with a tracker, from
its making, and with a Coco sketch, whatever it draws, all questions about networks are read off the
aggregate of the state to which the requests before the first question led; the questions change no
other reply, and the first insert after the first question, and no other, raises the warning.
-/
theorem Observed.frozen_of_session :
    (∀ {τ : Type} [Tracker τ] (start : τ), FreshTracker τ start →
      ∃ owner, Tracker.owner start = some owner ∧ ∀ requests : List (Request Key NetworkQuestion),
        Frozen owner
          (fun question => do
            let asked ← reach ObservedTracker.serve (.fresh start)
              (requests.takeWhile (!·.isNetworks))
            question.read <$> Outcome.ofChecked (networkTally (Tracker.residents asked.state)))
          (session ObservedTracker.serve ObservedTracker.warning (.fresh start) requests)
          (session ObservedTracker.serve ObservedTracker.warning (.fresh start)
            (requests.filter (!·.isNetworks)))) ∧
    ∀ {ρ : Type} [RandomSource ρ] (start : CocoSketch ρ) (requests : List (Request Entry Unit)),
      Frozen CocoSketch.title
        (fun _ => do
          let asked ← reach ObservedEstimator.serve (.fresh start)
            (requests.takeWhile (!·.isNetworks))
          Reply.networkRanking <$>
            Outcome.ofChecked (Tally.ranking <$> asked.state.estimates networkOf))
        (session ObservedEstimator.serve ObservedEstimator.warning (.fresh start) requests)
        (session ObservedEstimator.serve ObservedEstimator.warning (.fresh start)
          (requests.filter (!·.isNetworks))) := by
  constructor
  · intro τ _ start fresh
    obtain ⟨owner, howner⟩ := fresh.exists_owner
    have hwarning : @ObservedTracker.warning τ _ = (ObservedTracker.service τ owner).warning := by
      funext t
      unfold ObservedTracker.warning Service.warning
      rw [howner]
      rfl
    refine ⟨owner, howner start, fun requests => ?_⟩
    rw [ObservedTracker.serve_eq owner, hwarning]
    simp only [← fresh.networks_eq]
    exact (ObservedTracker.service τ owner).frozen start requests
  · intro ρ _ start requests
    rw [CocoSketch.serve_eq]
    exact (CocoSketch.service ρ).frozen start requests

/-- A HashPipe with one cell in each row is asked for the network 0 before and
after the key 7 comes again. -/
theorem Observed.frozen_of_session_hashPipe : ∃ (start : HashPipe) (owner : String),
    FreshTracker HashPipe start ∧ Tracker.owner start = some owner ∧
    (session ObservedTracker.serve ObservedTracker.warning (.fresh start)
      [.insert 7, .networks (.query 0), .insert 7, .networks (.query 0), .insert 7, .query 7]).map
        (·.warning) = [none, none, some "HashPipe", none, none, none] ∧
    Frozen owner
      (fun question => do
        let asked ← reach ObservedTracker.serve (.fresh start) [.insert 7]
        question.read <$> Outcome.ofChecked (networkTally (Tracker.residents asked.state)))
      (session ObservedTracker.serve ObservedTracker.warning (.fresh start)
        [.insert 7, .networks (.query 0), .insert 7, .networks (.query 0), .insert 7, .query 7])
      (session ObservedTracker.serve ObservedTracker.warning (.fresh start)
        [.insert 7, .insert 7, .insert 7, .query 7]) := by
  have hrun : (do
      let start ← HashPipe.ofBudget 48 1
      return (session ObservedTracker.serve ObservedTracker.warning (.fresh start)
        [.insert 7, .networks (.query 0), .insert 7, .networks (.query 0), .insert 7, .query 7]).map
          (·.warning) : Outcome (List (Option String)))
        = .ok [none, none, some "HashPipe", none, none, none] := by decide +kernel
  obtain ⟨start, built, hrun⟩ := Checked.bind_eq_ok.mp hrun
  have fresh : FreshTracker HashPipe start := .pipeline (.hashPipe built)
  obtain ⟨owner, howner, hfrozen⟩ := Observed.frozen_of_session.1 start fresh
  exact ⟨start, owner, fresh, howner, Checked.pure_eq_ok.mp hrun, hfrozen
    [.insert 7, .networks (.query 0), .insert 7, .networks (.query 0), .insert 7, .query 7]⟩

end HeavyHitters
