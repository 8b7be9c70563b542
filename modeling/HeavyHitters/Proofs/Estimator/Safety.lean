import HeavyHitters.Proofs.Sessions.Snapshots

/-!
# Estimators that serve every request

An estimator that is given weights which fit a counter together should never fault.  That is a
matter of one invariant: under it the next insert has a value and keeps it, and every question is
answered, or refused because the estimator does not offer an answer.

* `ObservedEstimator.replies` is what a client is replied, and
  `Request.Served` what a reply should be.
* `Estimator.Safe` is such an invariant, of an estimator and of the weight inserted so far.
* `Estimator.Safe.served` is one request, `Estimator.Safe.forall₂_served` the induction on the
  requests of a session, and `Estimator.Safe.exists_insertAll` that on units alone.
-/

namespace HeavyHitters

/-! ## Replies -/

/-- A question was answered, or refused because the structure does not offer an answer. -/
def Outcome.Answered {α : Type} (outcome : Outcome α) : Prop :=
  (∃ a, outcome = .ok a) ∨ ∃ subject operation, outcome = refuse (.unsupported subject operation)

/-- The unit that a request inserts. -/
def Request.unit? {ι ν : Type} : Request ι ν → Option ι
  | .insert unit => some unit
  | _ => none

/-- A request was served: inserts and questions for a key always are, questions for a
ranking where there is one. -/
def Request.Served {ι ν : Type} : Request ι ν → Outcome Reply → Prop
  | .insert _, reply => ∃ out, reply = .ok (.inserted out)
  | .query _, reply => ∃ count, reply = .ok (.count count)
  | .topK, reply => reply.Answered
  | .networks _, reply => reply.Answered

/-- The replies to requests that are put to an estimator in turn.  A request that is refused leaves
it as it is; after a fault there is nothing to go on with. -/
def ObservedEstimator.replies {ε : Type} [Estimator ε] :
    ObservedEstimator ε → List (Request Entry Unit) → List (Outcome Reply)
  | _, [] => []
  | e, request :: requests =>
    match serve e request with
    | .ok (reply, next) => .ok reply :: replies next requests
    | .error (.error error) => refuse error :: replies e requests
    | .error (.fault fault) => [.error (.fault fault)]

/-! ## Safe estimators -/

namespace Estimator

variable {ε : Type} [Estimator ε]

/-- An invariant of an estimator and of the weight inserted so far under which there is no fault as
long as the weight fits a counter. -/
structure Safe (Inv : Int → ε → Prop) : Prop where
  exists_insert : ∀ {total : Int} {e : ε} (key : Key) {weight : Int}, Inv total e → 0 ≤ weight →
    total + weight ≤ Count.greatest → ∃ e', insert e key weight = .ok e' ∧ Inv (total + weight) e'
  exists_query : ∀ {total : Int} {e : ε}, Inv total e → total ≤ Count.greatest → ∀ key, ∃ count,
    query e key = .ok count
  answered_topK : ∀ {total : Int} {e : ε}, Inv total e → total ≤ Count.greatest → (topK e).Answered
  answered_networkTopK : ∀ {total : Int} {e : ε}, Inv total e → total ≤ Count.greatest →
    (networkTopK e).Answered

variable {Inv : Int → ε → Prop} {total : Int}

/-- A run has a value. -/
theorem Safe.exists_insertAll (h : Safe Inv) {e : ε} (he : Inv total e) {units : List Entry}
    (hunits : ∀ unit ∈ units, 0 ≤ unit.count)
    (htotal : total + weightOf allKeys units ≤ Count.greatest) :
    ∃ e', insertAll e units = .ok e' ∧ Inv (total + weightOf allKeys units) e' := by
  induction units generalizing total e with
  | nil => exact ⟨e, rfl, by rwa [weightOf_nil, Int.add_zero]⟩
  | cons unit units ih =>
    obtain ⟨hunit, hrest⟩ := List.forall_mem_cons.mp hunits
    have hweight : 0 ≤ weightOf allKeys units := weightOf_nonneg hrest
    have hcons : weightOf allKeys (unit :: units) = unit.count + weightOf allKeys units := rfl
    rw [hcons, ← Int.add_assoc] at htotal ⊢
    obtain ⟨e₁, hi, h₁⟩ := h.exists_insert unit.key he hunit (by omega)
    obtain ⟨e', run, h'⟩ := ih h₁ hrest htotal
    exact ⟨e', Checked.bind_eq_ok.mpr ⟨e₁, hi, run⟩, h'⟩

variable {e : ObservedEstimator ε}

theorem serve_insert {state : ε} {unit : Entry}
    (hi : insert e.state unit.key unit.count = .ok state) :
    e.serve (.insert unit) = .ok (.inserted none, e.advance state) := by
  have hrun : insert e unit.key unit.count = .ok (e.advance state) := by
    show Prod.fst <$> e.run (fun s => (·, ()) <$> insert s unit.key unit.count) = _
    rw [Observed.run_eq, hi]
    rfl
  show (do return (Reply.inserted none,
    ← Outcome.ofChecked (insert e unit.key unit.count)) : Outcome _) = _
  rw [hrun]
  rfl

/-- A request is served, and keeps the invariant. -/
theorem Safe.served (h : Safe Inv) (he : Inv total e.state) {request : Request Entry Unit}
    (hunit : ∀ unit ∈ request.unit?, 0 ≤ unit.count)
    (htotal : total + weightOf allKeys request.unit?.toList ≤ Count.greatest) :
    (∃ reply next, e.serve request = .ok (reply, next) ∧ request.Served (.ok reply) ∧
      Inv (total + weightOf allKeys request.unit?.toList) next.state) ∨
    ∃ error, e.serve request = refuse error ∧ request.Served (refuse error) ∧
    request.unit? = none := by
  cases request with
  | insert unit =>
    have hweight : weightOf allKeys [unit] = unit.count := Int.add_zero unit.count
    simp only [Request.unit?, Option.toList_some, hweight] at htotal ⊢
    obtain ⟨state, hi, hstate⟩ := h.exists_insert unit.key he (hunit unit rfl) htotal
    exact .inl ⟨_, _, serve_insert hi, ⟨none, rfl⟩, hstate⟩
  | query key =>
    simp only [Request.unit?, Option.toList_none, weightOf_nil, Int.add_zero] at htotal ⊢
    obtain ⟨count, hquery⟩ := h.exists_query he htotal key
    refine .inl ⟨.count count, e, ?_, ⟨count, rfl⟩, he⟩
    exact Checked.bind_eq_ok.mpr ⟨count, hquery, rfl⟩
  | topK =>
    simp only [Request.unit?, Option.toList_none, weightOf_nil, Int.add_zero] at htotal ⊢
    rcases h.answered_topK he htotal with ⟨records, htop⟩ | ⟨subject, operation, htop⟩
    · refine .inl ⟨.ranking records, e, ?_, .inl ⟨_, rfl⟩, he⟩
      exact Checked.bind_eq_ok.mpr ⟨records, htop, rfl⟩
    · refine .inr ⟨.unsupported subject operation, ?_, .inr ⟨_, _, rfl⟩, trivial⟩
      show (topK e.state >>= fun records => pure (Reply.ranking records, e)) = _
      rw [htop]
      rfl
  | networks question =>
    simp only [Request.unit?, Option.toList_none, weightOf_nil, Int.add_zero] at htotal ⊢
    cases hanswer : e.answer with
    | some records =>
      -- the kept answer is given
      refine .inl ⟨.networkRanking records, e, ?_, .inl ⟨_, rfl⟩, he⟩
      exact Checked.bind_eq_ok.mpr ⟨(records, e), Observed.ask_of_answer hanswer _, rfl⟩
    | none =>
      rcases h.answered_networkTopK he htotal with ⟨records, hnetworks⟩
        | ⟨subject, operation, hnetworks⟩
      · refine .inl ⟨.networkRanking records,
          { e with answer := some records }, ?_, .inl ⟨_, rfl⟩, he⟩
        refine Checked.bind_eq_ok.mpr ⟨(records, { e with answer := some records }), ?_, rfl⟩
        rw [ObservedEstimator.networkTopK, Observed.ask, hanswer]
        exact Checked.bind_eq_ok.mpr ⟨records, hnetworks, rfl⟩
      · refine .inr ⟨.unsupported subject operation, ?_, .inr ⟨_, _, rfl⟩, trivial⟩
        rw [ObservedEstimator.serve, ObservedEstimator.networkTopK, Observed.ask, hanswer]
        show ((networkTopK e.state >>= _) >>= _) = _
        rw [hnetworks]
        rfl

/-- **Every request of a session is served.** -/
theorem Safe.forall₂_served (h : Safe Inv) (he : Inv total e.state)
    {requests : List (Request Entry Unit)}
    (hunits : ∀ unit ∈ requests.filterMap Request.unit?, 0 ≤ unit.count)
    (htotal : total + weightOf allKeys (requests.filterMap Request.unit?) ≤ Count.greatest) :
    List.Forall₂ Request.Served requests (e.replies requests) := by
  induction requests generalizing total e with
  | nil => exact .nil
  | cons request requests ih =>
    have hrest : ∀ unit ∈ requests.filterMap Request.unit?, 0 ≤ unit.count := by
      intro unit hu
      obtain ⟨other, ho, hunit⟩ := List.mem_filterMap.mp hu
      exact hunits unit (List.mem_filterMap.mpr ⟨other, List.mem_cons_of_mem request ho, hunit⟩)
    have hunit : ∀ unit ∈ request.unit?, 0 ≤ unit.count := fun unit hu =>
      hunits unit (List.mem_filterMap.mpr ⟨request, List.mem_cons_self, hu⟩)
    have hweight : 0 ≤ weightOf allKeys (requests.filterMap Request.unit?) := weightOf_nonneg hrest
    rw [weightOf_filterMap_cons, ← Int.add_assoc] at htotal
    rw [ObservedEstimator.replies]
    rcases h.served he hunit (by omega) with
      ⟨reply, next, hserve, hserved, hnext⟩ | ⟨error, hserve, hserved, hnone⟩
    · rw [hserve]
      exact .cons hserved (ih hnext hrest htotal)
    · rw [hserve]
      rw [hnone, Option.toList_none, weightOf_nil, Int.add_zero] at htotal
      exact .cons hserved (ih he hrest htotal)

end Estimator

end HeavyHitters
