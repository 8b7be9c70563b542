import HeavyHitters.Proofs.Estimator.Answers
import HeavyHitters.Proofs.Relay
import HeavyHitters.Proofs.Sessions.Snapshots

/-!
# What sessions lead to

An observed structure is the structure with an answer that may be kept beside it.  Requests act on
the structure alone, so what inserts keep true of the structure is true after every session; and
only what ranks networks has an answer about them to keep.

* `Tracker.Reads.inv_of_reach` and `Estimator.Answers.kept_of_reach` carry the invariants of
  trackers and of estimators along the requests of a session.
* `ObservedRelay.Reached` is what can become of a relay, and `ObservedRelay.Reached.parts_inv` says
  that its parts keep their invariants.
-/

namespace HeavyHitters

/-! ## Observed trackers -/

namespace Tracker

variable {τ : Type} [Tracker τ] {Inv : τ → Prop} {o o' : ObservedTracker τ}

theorem exists_of_insert_observed {key : Key} {out : Option Entry}
    (h : insert o key = .ok (o', out)) :
    ∃ t, insert o.state key = .ok (t, out) ∧ o' = o.advance t := by
  rw [show insert o key = o.run (insert · key) from rfl, Observed.run_eq] at h
  cases hi : insert o.state key with
  | error fault =>
    rw [hi] at h
    cases h
  | ok result =>
    rw [hi] at h
    obtain ⟨rfl, rfl⟩ := Prod.mk.inj (Except.ok.inj h)
    exact ⟨result.1, rfl, rfl⟩

/-- The answers of an observed tracker are those of the tracker. -/
theorem Reads.observed (h : Reads Inv) : Reads fun o : ObservedTracker τ => Inv o.state where
  positive ho := h.positive ho
  query_eq ho := h.query_eq ho
  networks_eq ho := h.networks_eq ho
  inv_insert ho hi := by
    obtain ⟨t, hinsert, rfl⟩ := exists_of_insert_observed hi
    exact h.inv_insert ho hinsert

theorem Reads.inv_of_serve (h : Reads Inv) (ho : Inv o.state)
    {request : Request Key NetworkQuestion} {reply : Reply}
    (hserve : o.serve request = .ok (reply, o')) : Inv o'.state := by
  cases request with
  | insert key =>
    obtain ⟨⟨next, out⟩, hi, hserve⟩ := Checked.bind_eq_ok.mp hserve
    obtain ⟨-, rfl⟩ := Prod.mk.inj (Checked.pure_eq_ok.mp hserve)
    exact h.observed.inv_insert ho (Outcome.ofChecked_eq_ok.mp hi)
  | query key =>
    obtain ⟨_, -, hserve⟩ := Checked.bind_eq_ok.mp hserve
    obtain ⟨-, rfl⟩ := Prod.mk.inj (Checked.pure_eq_ok.mp hserve)
    exact ho
  | topK =>
    obtain ⟨_, -, hserve⟩ := Checked.bind_eq_ok.mp hserve
    obtain ⟨-, rfl⟩ := Prod.mk.inj (Checked.pure_eq_ok.mp hserve)
    exact ho
  | networks question =>
    -- a question about networks leaves the tracker as it is
    rw [ObservedTracker.serve_eq ""] at hserve
    rw [(Service.serves_of_serve hserve).state_eq rfl]
    exact ho

/-- **What a session leads a tracker to keeps the invariant.** -/
theorem Reads.inv_of_reach (h : Reads Inv) {start : τ} (hstart : Inv start)
    {requests : List (Request Key NetworkQuestion)}
    (run : reach ObservedTracker.serve (.fresh start) requests = .ok o) : Inv o.state :=
  inv_reach (fun o : ObservedTracker τ => Inv o.state)
    (fun ho hserve => h.inv_of_serve ho hserve) hstart run

end Tracker

/-! ## Observed estimators -/

namespace Estimator

variable {ε : Type} [Estimator ε] {Inv : ε → Prop} {ranks networks : Bool}
  {e e' : ObservedEstimator ε}

/-- What is kept of an answer is kept of an estimator that ranks networks. -/
structure Kept (Inv : ε → Prop) (networks : Bool) (e : ObservedEstimator ε) : Prop where
  state : Inv e.state
  networks_of_answer : e.answer.isSome = true → networks = true

/-- The first answer about networks, or the one that is kept. -/
theorem Answers.offered_ask (h : Answers Inv ranks networks) (he : Kept Inv networks e) :
    e.networkTopK.Offered networks := by
  obtain ⟨state, answer, warned⟩ := e
  cases answer with
  | some answer =>
    rw [he.networks_of_answer rfl]
    exact .offered (failsOnly_ok _)
  | none =>
    show ((networkTopK state >>= fun answer => pure (answer, _)) : Outcome _).Offered networks
    cases h.offered_networkTopK he.state with
    | offered answers => exact .offered (answers.bind fun _ _ => failsOnly_ok _)
    | refused refuses =>
      rw [refuses]
      exact .refused rfl

theorem exists_of_insert_observed {key : Key} {weight : Int} (h : insert e key weight = .ok e') :
    ∃ state, insert e.state key weight = .ok state ∧ e' = e.advance state := by
  obtain ⟨result, hrun, rfl⟩ := Checked.map_eq_ok.mp h
  rw [Observed.run_eq] at hrun
  cases hi : insert e.state key weight with
  | error fault =>
    rw [hi] at hrun
    cases hrun
  | ok state =>
    rw [hi] at hrun
    obtain rfl := Except.ok.inj hrun
    exact ⟨state, rfl, rfl⟩

/-- **An observed estimator answers as the estimator does.** -/
theorem Answers.observed (h : Answers Inv ranks networks) :
    Answers (Kept Inv networks) ranks networks where
  inv_insert he hi := by
    obtain ⟨state, hinsert, rfl⟩ := exists_of_insert_observed hi
    exact ⟨h.inv_insert he.state hinsert, he.networks_of_answer⟩
  failsOnly_query he := h.failsOnly_query he.state
  offered_topK he := h.offered_topK he.state
  offered_networkTopK he := h.offered_networkTopK he.state

/-- A request that is served inserts a unit, asks for networks or leaves the estimator as it is. -/
theorem cases_of_serve {request : Request Entry Unit} {reply : Reply}
    (hserve : e.serve request = .ok (reply, e')) :
    (∃ key weight, insert e key weight = .ok e') ∨ e' = e ∨ ∃ ranking,
    e.networkTopK = .ok (ranking, e') := by
  cases request with
  | insert unit =>
    obtain ⟨next, hi, hserve⟩ := Checked.bind_eq_ok.mp hserve
    obtain ⟨-, rfl⟩ := Prod.mk.inj (Checked.pure_eq_ok.mp hserve)
    exact .inl ⟨unit.key, unit.count, Outcome.ofChecked_eq_ok.mp hi⟩
  | query key =>
    obtain ⟨_, -, hserve⟩ := Checked.bind_eq_ok.mp hserve
    obtain ⟨-, rfl⟩ := Prod.mk.inj (Checked.pure_eq_ok.mp hserve)
    exact .inr (.inl rfl)
  | topK =>
    obtain ⟨_, -, hserve⟩ := Checked.bind_eq_ok.mp hserve
    obtain ⟨-, rfl⟩ := Prod.mk.inj (Checked.pure_eq_ok.mp hserve)
    exact .inr (.inl rfl)
  | networks question =>
    obtain ⟨⟨records, next⟩, hask, hserve⟩ := Checked.bind_eq_ok.mp hserve
    obtain ⟨-, rfl⟩ := Prod.mk.inj (Checked.pure_eq_ok.mp hserve)
    exact .inr (.inr ⟨records, hask⟩)

/-- Every request that is served leaves an estimator that answers. -/
theorem Answers.kept_of_serve (h : Answers Inv ranks networks) (he : Kept Inv networks e)
    {request : Request Entry Unit} {reply : Reply} (hserve : e.serve request = .ok (reply, e')) :
    Kept Inv networks e' := by
  rcases cases_of_serve hserve with ⟨key, weight, hinsert⟩ | rfl | ⟨ranking, hask⟩
  · exact h.observed.inv_insert he hinsert
  · exact he
  · refine ⟨?_, fun _ => (h.offered_ask he).eq_true_of_ok hask⟩
    rw [Observed.state_of_ask hask]
    exact he.state

/-- **What a session leads to answers.** -/
theorem Answers.kept_of_reach (h : Answers Inv ranks networks) {start : ε} (hstart : Inv start)
    {requests : List (Request Entry Unit)}
    (run : reach ObservedEstimator.serve (.fresh start) requests = .ok e) :
    Kept Inv networks e := by
  have hfresh : Kept Inv networks (.fresh start) := ⟨hstart, fun hanswer => nomatch hanswer⟩
  exact inv_reach (Kept Inv networks) (fun he hserve => h.kept_of_serve he hserve) hfresh run

end Estimator

/-! ## Observed relays -/

namespace ObservedRelay

variable {τ ε : Type} [Tracker τ] [Estimator ε]

/-- What can become of a relay: its parts are what sessions made of a tracker and of an estimator,
it takes keys, and its parts may be asked for networks. -/
inductive Reached (tracker : τ) (estimator : ε) : ObservedRelay τ ε → Prop where
  | parts {requests : List (Request Key NetworkQuestion)} {others : List (Request Entry Unit)}
      {t : ObservedTracker τ} {e : ObservedEstimator ε}
        (tracked : reach ObservedTracker.serve (.fresh tracker) requests = .ok t)
      (estimated : reach ObservedEstimator.serve (.fresh estimator) others = .ok e) :
      Reached tracker estimator (Relay.ofParts t e)
  | insert {r r' : ObservedRelay τ ε} {key : Key} (reached : Reached tracker estimator r)
      (inserted : r.insert key = .ok r') : Reached tracker estimator r'
  | askTracker {r : ObservedRelay τ ε} {question : NetworkQuestion} {reply : Reply}
      {t : ObservedTracker τ} (reached : Reached tracker estimator r)
      (asked : ObservedTracker.serve r.tracker (.networks question) = .ok (reply, t)) :
      Reached tracker estimator { r with tracker := t }
  | askEstimator {r : ObservedRelay τ ε} {reply : Reply} {e : ObservedEstimator ε}
      (reached : Reached tracker estimator r)
      (asked : ObservedEstimator.serve r.estimator (.networks ()) = .ok (reply, e)) :
      Reached tracker estimator { r with estimator := e }

variable {tracker : τ} {estimator : ε} {r : ObservedRelay τ ε} {keys : List Key}

theorem Reached.feed {r' : ObservedRelay τ ε} (h : Reached tracker estimator r)
    (run : r.feed keys = .ok r') : Reached tracker estimator r' :=
  Checked.kept_foldlM (Reached tracker estimator) (fun hr hi => .insert hr hi) h run

variable {Holds : τ → Prop} {Inv : ε → Prop} {ranks networks : Bool}

/-- **The parts of a relay keep their invariants.** -/
theorem Reached.parts_inv (h : Reached tracker estimator r) (hreads : Tracker.Reads Holds)
    (hanswers : Estimator.Answers Inv ranks networks) (htracker : Holds tracker)
    (hestimator : Inv estimator) :
    Holds r.tracker.state ∧ Estimator.Kept Inv networks r.estimator := by
  induction h with
  | parts tracked estimated =>
    exact ⟨hreads.inv_of_reach htracker tracked, hanswers.kept_of_reach hestimator estimated⟩
  | insert _ inserted ih =>
    obtain ⟨out, hi, he, -⟩ := Relay.insert_eq_ok inserted
    refine ⟨hreads.observed.inv_insert ih.1 hi, ?_⟩
    exact @Estimator.inv_insertAll _ _ (Estimator.Kept Inv networks) (fun _ => True)
      (fun hk _ hi => hanswers.observed.inv_insert hk hi) _ _ _ ih.2 (fun _ _ => trivial) he
  | askTracker _ asked ih => exact ⟨hreads.inv_of_serve ih.1 asked, ih.2⟩
  | askEstimator _ asked ih => exact ⟨ih.1, hanswers.kept_of_serve ih.2 asked⟩

end ObservedRelay

end HeavyHitters
