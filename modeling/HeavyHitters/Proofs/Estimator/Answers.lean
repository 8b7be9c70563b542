import HeavyHitters.Proofs.Estimator.CountSketch
import HeavyHitters.Proofs.Estimator.Linear
import HeavyHitters.Proofs.Estimator.UnivMon
import HeavyHitters.Proofs.Overflow

/-!
# What estimators offer

Every estimator but the hierarchy answers queries, four of them list their keys, and the Coco sketch
alone lists networks.  What an estimator does not offer it refuses, whatever state it is in.  What
it offers fails only by an overflow, also after weights that are negative or too great for the
answers to make sense: all that an answer needs is that the buckets it looks up are there, and no
insert changes the number of them.

* `Outcome.Offered` is what becomes of a request that is offered, and of one that is not.
* `Estimator.Answers` is an invariant under which that is so of the requests to an estimator; there
  is one `answers` for each kind.
* `FreshEstimator` lists the kinds with what they offer, and
  `FreshEstimator.exists_answers` finds the invariant of each.
-/

namespace HeavyHitters

/-- A request that is offered fails only by an overflow; one that is not offered is refused. -/
inductive Outcome.Offered {α : Type} (x : Outcome α) : (offered : Bool) → Prop where
  | offered (answers : FailsOnly Failure.IsOverflow x) : Offered x true
  | refused {subject operation : String} (refuses : x = refuse (.unsupported subject operation)) :
      Offered x false

/-- A failure that is not a refusal stays. -/
theorem eq_error_of_supported {α : Type} {x : Outcome α} {failure : Failure}
    (h : supported x = .error failure) : x = .error failure := by
  unfold supported at h
  split at h
  · cases h
  · cases h
  · rw [Except.error.inj h]

namespace Outcome.Offered

variable {α : Type} {x : Outcome α} {offered : Bool}

theorem eq_true_of_ok (h : Offered x offered) {a : α} (ha : x = .ok a) : offered = true := by
  cases h with
  | offered => rfl
  | refused refuses => cases ha.symm.trans refuses

theorem failsOnly_supported (h : Offered x offered) :
    FailsOnly Failure.IsOverflow (supported x) := by
  cases h with
  | offered answers => exact fun failure hf => answers failure (eq_error_of_supported hf)
  | refused refuses =>
    rw [refuses]
    exact failsOnly_ok none

/-- There is a value just if the request is offered. -/
theorem isSome_supported (h : Offered x offered) {value : Option α}
    (hvalue : supported x = .ok value) : value.isSome = offered := by
  cases h with
  | offered answers =>
    cases x with
    | error failure =>
      obtain ⟨operation, rfl⟩ := answers failure rfl
      cases hvalue
    | ok a =>
      cases hvalue
      rfl
  | refused refuses =>
    rw [refuses] at hvalue
    cases hvalue
    rfl

end Outcome.Offered

/-- An invariant of an estimator under which queries are answered, and rankings of keys and of
networks if they are offered. -/
structure Estimator.Answers {ε : Type} [Estimator ε] (Inv : ε → Prop)
    (ranks networks : Bool) : Prop where
  inv_insert : ∀ {e e' : ε} {key : Key} {weight : Int}, Inv e →
    insert e key weight = .ok e' → Inv e'
  failsOnly_query : ∀ {e : ε}, Inv e → ∀ key, FailsOnly Failure.IsOverflow (query e key)
  offered_topK : ∀ {e : ε}, Inv e → (topK e).Offered ranks
  offered_networkTopK : ∀ {e : ε}, Inv e → (networkTopK e).Offered networks

/-! ## Rows of counters -/

namespace CountMin

theorem answers : Estimator.Answers (fun s : CountMin => Row.Celled s.rows) false false where
  inv_insert {s s' key weight} hs hi := by
    obtain ⟨rows, hrows, hi⟩ := Checked.bind_eq_ok.mp hi
    obtain rfl := Checked.pure_eq_ok.mp hi
    intro row' hr
    obtain ⟨row, hrow, hupdate⟩ := Checked.exists_of_mem_mapM hrows hr
    rw [Row.length_of_update hupdate]
    exact hs row hrow
  failsOnly_query hs key := ((hs.failsOnly_get key).bind fun counts _ => failsOnly_ok _).ofChecked
  offered_topK _ := .refused rfl
  offered_networkTopK _ := .refused rfl

end CountMin

namespace CountSketch

theorem failsOnly_estimate {r : SignedRow} (h : 0 < r.row.length) (key : Key) :
    FailsOnly Fault.IsOverflow (r.estimate key) :=
  (failsOnly_of_exists (r.row.exists_get_eq_ok key h)).bind fun _ _ => Count.failsOnly_narrow _ _

theorem answers : Estimator.Answers (fun s : CountSketch => ∀ r ∈ s.rows,
    0 < r.row.length) false false where
  inv_insert {s s' key weight} hs hi := by
    obtain ⟨rows, hrows, hi⟩ := Checked.bind_eq_ok.mp hi
    obtain rfl := Checked.pure_eq_ok.mp hi
    intro r' hr
    obtain ⟨r, hmem, hadd⟩ := Checked.exists_of_mem_mapM hrows hr
    obtain ⟨row, hupdate, hadd⟩ := Checked.bind_eq_ok.mp hadd
    obtain rfl := Checked.pure_eq_ok.mp hadd
    dsimp only
    rw [Row.length_of_update hupdate]
    exact hs r hmem
  failsOnly_query hs key :=
    ((failsOnly_mapM fun r hr => failsOnly_estimate (hs r hr) key).bind fun _ _ =>
      failsOnly_ok _).ofChecked
  offered_topK _ := .refused rfl
  offered_networkTopK _ := .refused rfl

end CountSketch

namespace Conservative

/-- Whatever becomes of the counters of a key, each row keeps its cells. -/
theorem celled_of_raise {key : Key} {weight limit : Int} {rows rows' : List (Row Int)}
    (h : Row.Celled rows) (hraise : raise key weight rows limit = .ok rows') :
    Row.Celled rows' := by
  induction rows generalizing limit rows' with
  | nil =>
    cases hraise
    exact h
  | cons row rows ih =>
    obtain ⟨hrow, hrest⟩ := List.forall_mem_cons.mp h
    rw [raise] at hraise
    obtain ⟨current, -, hraise⟩ := Checked.bind_eq_ok.mp hraise
    obtain ⟨raised, -, hraise⟩ := Checked.bind_eq_ok.mp hraise
    split at hraise
    · obtain ⟨rest, hr, hraise⟩ := Checked.bind_eq_ok.mp hraise
      obtain rfl := Checked.pure_eq_ok.mp hraise
      exact List.forall_mem_cons.mpr ⟨by rwa [Row.length_set], ih hrest hr⟩
    · split at hraise
      · obtain ⟨rest, hr, hraise⟩ := Checked.bind_eq_ok.mp hraise
        obtain rfl := Checked.pure_eq_ok.mp hraise
        exact List.forall_mem_cons.mpr ⟨by rwa [Row.length_set], ih hrest hr⟩
      · obtain ⟨rest, hr, hraise⟩ := Checked.bind_eq_ok.mp hraise
        obtain rfl := Checked.pure_eq_ok.mp hraise
        exact List.forall_mem_cons.mpr ⟨hrow, ih hrest hr⟩

theorem answers : Estimator.Answers (fun s : Conservative => Row.Celled s.rows) false false where
  inv_insert hs hi := by
    obtain ⟨rows, hraise, hi⟩ := Checked.bind_eq_ok.mp hi
    obtain rfl := Checked.pure_eq_ok.mp hi
    exact celled_of_raise hs hraise
  failsOnly_query hs key := ((hs.failsOnly_get key).bind fun counts _ => failsOnly_ok _).ofChecked
  offered_topK _ := .refused rfl
  offered_networkTopK _ := .refused rfl

end Conservative

namespace Sampled

variable {ρ : Type} [RandomSource ρ]

/-- Whether a row is selected or not, it keeps its cells. -/
theorem celled_of_addSampled {rate : SamplingRate} {key : Key} {weight : Int}
    {rows rows' : List (Row Int)} {source source' : ρ} (h : Row.Celled rows)
    (hadd : addSampled rate key weight rows source = .ok (rows', source')) : Row.Celled rows' := by
  induction rows generalizing rows' source with
  | nil =>
    cases hadd
    exact h
  | cons row rows ih =>
    obtain ⟨hrow, hrest⟩ := List.forall_mem_cons.mp h
    rw [addSampled_cons] at hadd
    obtain ⟨first, hfirst, hadd⟩ := Checked.bind_eq_ok.mp hadd
    obtain ⟨⟨rest, source₁⟩, hr, hadd⟩ := Checked.map_eq_ok.mp hadd
    obtain ⟨rfl, rfl⟩ := Prod.mk.inj hadd
    refine List.forall_mem_cons.mpr ⟨?_, ih hrest hr⟩
    split at hfirst
    · rwa [Row.length_of_update hfirst]
    · cases hfirst
      exact hrow

theorem answers : Estimator.Answers (fun s : Sampled ρ => Row.Celled s.rows) false false where
  inv_insert {s s' key weight} hs hi := by
    obtain ⟨⟨rows, source⟩, hadd, hi⟩ := Checked.bind_eq_ok.mp hi
    obtain rfl := Checked.pure_eq_ok.mp hi
    exact celled_of_addSampled hs hadd
  failsOnly_query hs key := ((hs.failsOnly_get key).bind fun counts _ => failsOnly_ok _).ofChecked
  offered_topK _ := .refused rfl
  offered_networkTopK _ := .refused rfl

end Sampled

/-! ## Trees and heaps -/

theorem TreeSketch.answers : Estimator.Answers (fun _ : TreeSketch => True) false false where
  inv_insert _ _ := trivial
  failsOnly_query _ _ := failsOnly_ok _
  offered_topK _ := .refused rfl
  offered_networkTopK _ := .refused rfl

theorem HeapSketch.answers : Estimator.Answers (fun _ : HeapSketch => True) true false where
  inv_insert _ _ := trivial
  failsOnly_query _ _ := failsOnly_ok _
  offered_topK _ := .offered (failsOnly_ok _)
  offered_networkTopK _ := .refused rfl

namespace UnivMon

theorem failsOnly_combine (counts : List Int) : FailsOnly Fault.IsOverflow (combine counts) := by
  induction counts with
  | nil => exact failsOnly_ok 0
  | cons count deeper ih =>
    cases deeper with
    | nil => exact failsOnly_ok count
    | cons next deeper =>
      rw [combine_cons _ (List.cons_ne_nil _ _)]
      exact ih.bind fun _ _ => (Count.failsOnly_narrow _ _).bind fun _ _ =>
        Count.failsOnly_narrow _ _

theorem answers : Estimator.Answers (fun _ : UnivMon => True) true false where
  inv_insert _ _ := trivial
  failsOnly_query _ _ := (failsOnly_combine _).ofChecked
  offered_topK _ := .offered (failsOnly_ok _)
  offered_networkTopK _ := .refused rfl

end UnivMon

/-! ## Rows of residents -/

namespace VoteSketch

theorem celled_of_passage {unit : Entry} {rows rows' : List (Row VoteBucket)}
    {out : Option Entry} {takeovers : Nat} (h : Row.Celled rows)
    (hpassage : VoteBucket.Passage unit rows rows' out takeovers) : Row.Celled rows' := by
  induction hpassage with
  | carriedOut => exact h
  | takenIn =>
    obtain ⟨hrow, hrest⟩ := List.forall_mem_cons.mp h
    exact List.forall_mem_cons.mpr ⟨by rwa [Row.length_set], hrest⟩
  | givenOn _ _ _ ih =>
    obtain ⟨hrow, hrest⟩ := List.forall_mem_cons.mp h
    exact List.forall_mem_cons.mpr ⟨by rwa [Row.length_set], ih hrest⟩

theorem answers : Estimator.Answers (fun s : VoteSketch => Row.Celled s.rows) true false where
  inv_insert hs hi := by
    obtain ⟨out, takeovers, hpassage⟩ := exists_passage hi
    exact celled_of_passage hs hpassage
  failsOnly_query hs key := (hs.failsOnly_tableWeight key).ofChecked
  offered_topK _ := .offered (failsOnly_mergeRanked _).ofChecked
  offered_networkTopK _ := .refused rfl

end VoteSketch

namespace CocoSketch

variable {ρ : Type} [RandomSource ρ]

omit [RandomSource ρ] in
theorem failsOnly_estimates {κ : Type} [Ord κ] (s : CocoSketch ρ) (group : Key → κ) :
    FailsOnly Fault.IsOverflow (s.estimates group) :=
  (failsOnly_mapM fun _ _ => Tally.failsOnly_ofRecords _).bind fun tallies _ =>
    failsOnly_ok (medians tallies)

theorem answers : Estimator.Answers (fun s : CocoSketch ρ => Row.Celled s.rows) true true where
  inv_insert {s s' key weight} hs hi := by
    obtain ⟨⟨rows, source⟩, hall, hi⟩ := Checked.bind_eq_ok.mp hi
    obtain rfl := Checked.pure_eq_ok.mp hi
    intro row' hr
    obtain ⟨row, hrow, draw, hupdate⟩ := exists_update_of_mem hall hr
    rw [Row.length_of_update hupdate]
    exact hs row hrow
  failsOnly_query hs key := ((hs.failsOnly_weight key).bind fun _ _ => failsOnly_ok _).ofChecked
  offered_topK {s} _ := .offered ((failsOnly_estimates s id).map _).ofChecked
  offered_networkTopK {s} _ := .offered ((failsOnly_estimates s networkOf).map _).ofChecked

end CocoSketch

/-! ## As they are built -/

/-- An estimator of one of the nine kinds that answer queries, as it is built, with whether it ranks
its keys and whether it ranks networks. -/
inductive FreshEstimator : (ε : Type) → [Estimator ε] → (ranks networks : Bool) → ε → Prop where
  | countMin {memory rows width : Nat} {seed : UInt64} {e : CountMin}
      (built : CountMin.ofBudget memory rows width seed = .ok e) :
        FreshEstimator CountMin false false e
  | countSketch {memory rows width : Nat} {seed : UInt64} {e : CountSketch}
      (built : CountSketch.ofBudget memory rows width seed = .ok e) :
        FreshEstimator CountSketch false false e
  | conservative {memory rows width : Nat} {seed : UInt64} {e : Conservative}
      (built : Conservative.ofBudget memory rows width seed = .ok e) :
        FreshEstimator Conservative false false e
  | sampled {ρ : Type} [RandomSource ρ] {source : UInt64 → ρ}
      {memory rows width : Nat} {rate : Float} {seed : UInt64} {e : Sampled ρ}
        (built : Sampled.ofBudget source memory rate rows width seed = .ok e) :
      FreshEstimator (Sampled ρ) false false e
  | tree {memory width : Nat} {seed : UInt64} {e : TreeSketch}
      (built : TreeSketch.ofBudget memory width seed = .ok e) :
        FreshEstimator TreeSketch false false e
  | heap {memory rows width : Nat} {seed : UInt64} {e : HeapSketch}
      (built : HeapSketch.ofBudget memory rows width seed = .ok e) :
        FreshEstimator HeapSketch true false e
  | univMon {memory width : Nat} {seed : UInt64} {e : UnivMon}
      (built : UnivMon.ofBudget memory width seed = .ok e) : FreshEstimator UnivMon true false e
  | vote {memory width : Nat} {seed : UInt64} {e : VoteSketch}
      (built : VoteSketch.ofBudget memory width seed = .ok e) :
        FreshEstimator VoteSketch true false e
  | coco {ρ : Type} [RandomSource ρ] {source : UInt64 → ρ} {memory rows : Nat} {seed : UInt64}
      {e : CocoSketch ρ} (built : CocoSketch.ofBudget source memory rows seed = .ok e) :
      FreshEstimator (CocoSketch ρ) true true e

/-- **A built estimator answers what its kind offers.** -/
theorem FreshEstimator.exists_answers {ε : Type} [Estimator ε] {ranks networks : Bool} {start : ε}
    (h : FreshEstimator ε ranks networks start) :
    ∃ Inv : ε → Prop, Estimator.Answers Inv ranks networks ∧ Inv start := by
  cases h with
  | countMin built =>
    obtain ⟨length, -, hlength, -, rfl⟩ := exists_length_of_budget built
    exact ⟨_, CountMin.answers, Row.celled_table hlength _ _⟩
  | countSketch built =>
    exact ⟨_, CountSketch.answers, fun r hr =>
      ((CountSketch.vacant_of_ofBudget built).rows_vacant r hr).length_pos⟩
  | conservative built =>
    obtain ⟨length, -, hlength, -, rfl⟩ := exists_length_of_budget built
    exact ⟨_, Conservative.answers, Row.celled_table hlength _ _⟩
  | sampled built =>
    obtain ⟨_, length, -, -, hlength, -, rfl⟩ := Sampled.ofBudget_eq_ok built
    exact ⟨_, Sampled.answers, Row.celled_table hlength _ _⟩
  | tree built => exact ⟨_, TreeSketch.answers, trivial⟩
  | heap built => exact ⟨_, HeapSketch.answers, trivial⟩
  | univMon built => exact ⟨_, UnivMon.answers, trivial⟩
  | vote built =>
    obtain ⟨length, hlength, rfl⟩ := VoteSketch.ofBudget_eq_ok built
    exact ⟨_, VoteSketch.answers, Row.celled_table hlength _ _⟩
  | coco built =>
    obtain ⟨length, -, hlength, -, rfl⟩ := exists_length_of_budget built
    exact ⟨_, CocoSketch.answers, Row.celled_table hlength _ _⟩

end HeavyHitters
