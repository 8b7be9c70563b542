import HeavyHitters.Proofs.Overflow
import HeavyHitters.Proofs.Scoring
import HeavyHitters.Proofs.Trace.Rankings

/-!
# The ends of a scoring

Scoring asks a structure for its rankings and for its answers, and a trace for its exact rankings.
On a loaded trace there is always an entry to score against, and every entry has packets.  So there
are three ends: a count overflows in one of the questions; `k` is zero and there is nothing to
average over; or there is a card.

* `Scored` has the three ends, and `Scored.bind`, `scored_bind` and `scored_mapM`
  follow the steps of a scoring.
* `scored_score` is one score against an exact ranking.
-/

namespace HeavyHitters

/-! ## The entries of a trace -/

namespace Trace

/-- A trace of keys in memory or of a file. -/
inductive Loaded (t : Trace) : Prop where
  | keys {keys : Array Key} (made : ofKeys keys = .ok t)
  | file {path : String} {opened : Except SystemError OpenFile} {recordSize : Nat}
      (made : ofFile path opened recordSize = .ok t)

variable {t : Trace}

/-- What a file makes is made of keys. -/
theorem exists_keys_of_ofFile {path : String}
    {opened : Except SystemError OpenFile} {recordSize : Nat}
    (h : ofFile path opened recordSize = .ok t) : ∃ keys, ofKeys keys = .ok t := by
  unfold ofFile at h
  dsimp only at h
  split at h
  · exact absurd h refuse_bind_ne_ok
  split at h
  · cases h
  next file =>
  split at h
  · exact absurd h refuse_bind_ne_ok
  split at h
  · exact absurd h refuse_bind_ne_ok
  cases file with
  | regular bytes => exact ⟨_, h⟩
  | directory length => cases h

/-- A loaded trace has packets, and its flows have been counted. -/
theorem Loaded.counts (h : t.Loaded) : t.keys.toList ≠ [] ∧ t.Counts t.keys.toList := by
  obtain ⟨keys, made⟩ : ∃ keys, ofKeys keys = .ok t := by
    cases h with
    | keys made => exact ⟨_, made⟩
    | file made => exact exists_keys_of_ofFile made
  obtain ⟨hne, rfl, hcounts⟩ := ofKeys_eq_ok made
  exact ⟨hne, hcounts⟩

/-- The number of entries of the ground truth under a grouping of the keys:
the groups that have a packet. -/
def entries {κ : Type} [DecidableEq κ] (t : Trace) (group : Key → κ) : Nat :=
  (t.keys.toList.map group).toFinset.card

end Trace

/-- An exact ranking has an entry for each group. -/
theorem ExactRanking.length_eq {κ : Type} [DecidableEq κ] [LT κ] {group : Key → κ} {keys : List Key}
    {ranking : List (Record κ)} (h : ExactRanking group keys ranking) :
    ranking.length = (keys.map group).toFinset.card := by
  have hmem : (ranking.map (·.key)).toFinset = (keys.map group).toFinset := by
    ext value
    rw [List.mem_toFinset, List.mem_toFinset, List.mem_map, List.mem_map]
    constructor
    · rintro ⟨r, hr, rfl⟩
      exact ((h.mem_iff r).mp hr).1
    · rintro ⟨key, hkey, rfl⟩
      exact ⟨⟨group key, keys.countP (group · == group key)⟩,
        (h.mem_iff _).mpr ⟨⟨key, hkey, rfl⟩, rfl⟩, rfl⟩
  rw [← hmem, List.toFinset_card_of_nodup h.nodup, List.length_map]

theorem ExactRanking.take_ne_nil {κ : Type} [BEq κ] [LT κ] {group : Key → κ} {keys : List Key}
    {ranking : List (Record κ)} (h : ExactRanking group keys ranking) (hne : keys ≠ [])
    {k : Nat} (hk : 1 ≤ k) : ranking.take k ≠ [] := by
  rw [Ne, List.take_eq_nil_iff, not_or]
  exact ⟨Nat.ne_of_gt hk, h.ne_nil hne⟩

/-- What the flows of a trace are regrouped to is exact. -/
theorem Trace.Counts.exactRanking_of_regroup {κ : Type} [Ord κ] [Std.TransOrd κ]
    [Std.LawfulEqOrd κ] [BEq κ] [LawfulBEq κ] [LT κ] [LE κ] [Std.LawfulOrderOrd κ]
    [Std.LawfulOrderLT κ] {t : Trace} {keys : List Key} {group : Key → κ}
    {ranking : List (Record κ)} (h : t.Counts keys)
    (hranking : regroup group t.counts.records = .ok ranking) :
    ExactRanking group keys ranking := by
  rcases h.regroup_cases (.refl _) group with ⟨other, hother, hexact, -⟩ | ⟨herror, -⟩
  · rwa [Except.ok.inj (hranking.symm.trans hother)]
  · cases hranking.symm.trans herror

/-! ## The ends of a scoring -/

/-- How a scoring over the `k` heaviest entries may end: by an overflow that has a cause, by a
refusal where there is no entry to average over, and with a good card. -/
inductive Scored {α : Type} (k : Nat) (Cause : Failure → Prop) (Good : α → Prop) :
    Outcome α → Prop where
  | overflow {failure : Failure} (overflows : failure.IsOverflow) (cause : Cause failure) :
      Scored k Cause Good (.error failure)
  | noEntries (hk : k = 0) :
      Scored k Cause Good (refuse (.numericDomain "no ground-truth keys to average over"))
  | card {card : α} (hk : 1 ≤ k) (good : Good card) : Scored k Cause Good (.ok card)

section

variable {α β : Type} {k : Nat} {Cause Cause' : Failure → Prop} {Good : α → Prop} {Good' : β → Prop}

theorem Scored.imp_cause {x : Outcome α} (h : Scored k Cause Good x)
    (hcause : ∀ failure, Cause failure → Cause' failure) : Scored k Cause' Good x := by
  cases h with
  | overflow overflows cause => exact .overflow overflows (hcause _ cause)
  | noEntries hk => exact .noEntries hk
  | card hk good => exact .card hk good

/-- A scoring goes on after a card. -/
theorem Scored.bind {x : Outcome α} {f : α → Outcome β} (h : Scored k Cause Good x)
    (hf : ∀ a, 1 ≤ k → Good a → Scored k Cause Good' (f a)) : Scored k Cause Good' (x >>= f) := by
  cases h with
  | overflow overflows cause => exact .overflow overflows cause
  | noEntries hk => exact .noEntries hk
  | card hk good => exact hf _ hk good

/-- A scoring goes on after an answer, unless that overflows. -/
theorem scored_bind {x : Outcome α} {f : α → Outcome β} (hx : FailsOnly Failure.IsOverflow x)
    (hcause : FailsOnly Cause x) (hf : ∀ a, x = .ok a → Scored k Cause Good' (f a)) :
    Scored k Cause Good' (x >>= f) := by
  cases x with
  | error failure => exact .overflow (hx failure rfl) (hcause failure rfl)
  | ok a => exact hf a rfl

/-- Scorings one after the other, if there is one or `k` is not zero. -/
theorem scored_mapM {Good : α → β → Prop} {f : α → Outcome β} {as : List α}
    (hsome : as ≠ [] ∨ 1 ≤ k) (h : ∀ a ∈ as, Scored k Cause (Good a) (f a)) :
    Scored k Cause (List.Forall₂ Good as) (as.mapM f) := by
  induction as with
  | nil => exact .card (hsome.resolve_left (absurd rfl)) .nil
  | cons a as ih =>
    obtain ⟨ha, hrest⟩ := List.forall_mem_cons.mp h
    rw [List.mapM_cons]
    exact ha.bind fun b hk hb => (ih (.inr hk) hrest).bind fun bs hk hbs => .card hk (.cons hb hbs)

/-- **Without a cause to overflow there is a card**, as soon as one is asked for. -/
theorem Scored.exists_card {x : Outcome α} (h : Scored k Cause Good x) (hk : 1 ≤ k)
    (hcalm : ∀ failure, failure.IsOverflow → ¬ Cause failure) :
    ∃ card, x = .ok card ∧ Good card := by
  cases h with
  | overflow overflows cause => exact absurd cause (hcalm _ overflows)
  | noEntries hzero => omega
  | card _ good => exact ⟨_, rfl, good⟩

end

/-! ## One score -/

/-- A score is over the `k` heaviest of some entries, as far as there are so
many, and with hits or without. -/
structure Score.Spans (s : Score) (k entries : Nat) (hits : Bool) : Prop where
  k_eq : s.k = min k entries
  isSome_hits : s.hits.isSome = hits

section

variable {κ : Type} {truth : List (Record κ)} {estimate : κ → Outcome Int}

/-- Where an estimate fails, the errors are not summed up: they fail as an estimate does. -/
theorem exists_sumErrors_eq_error (h : ∃ r ∈ truth, ∀ n, estimate r.key ≠ .ok n)
    (sums : ErrorSums) :
    ∃ r ∈ truth, ∃ failure, estimate r.key = .error failure ∧
    sumErrors estimate truth sums = .error failure := by
  induction truth generalizing sums with
  | nil =>
    obtain ⟨r, hr, -⟩ := h
    cases hr
  | cons first truth ih =>
    rw [sumErrors]
    cases hfirst : estimate first.key with
    | error failure => exact ⟨first, List.mem_cons_self, failure, hfirst, rfl⟩
    | ok n =>
      have hlater : ∃ r ∈ truth, ∀ n, estimate r.key ≠ .ok n := by
        obtain ⟨r, hr, hfails⟩ := h
        rcases List.mem_cons.mp hr with rfl | hr
        · exact absurd hfirst (hfails n)
        · exact ⟨r, hr, hfails⟩
      obtain ⟨r, hr, failure, hfails, hsums⟩ := ih hlater (sums.add first.count n)
      exact ⟨r, List.mem_cons_of_mem first hr, failure, hfails, hsums⟩

/-- Errors are not averaged over no entries. -/
theorem score_zero [Ord κ] (truth : List (Record κ)) (estimate : κ → Outcome Int)
    (reported : Option (List (Record κ))) : score truth 0 estimate reported
      = refuse (.numericDomain "no ground-truth keys to average over") := by
  unfold score
  rw [List.take_zero]
  rfl

/-- Where the errors are not summed up, there is no score. -/
theorem score_eq_error [Ord κ] {k : Nat} (hne : truth.take k ≠ []) {failure : Failure}
    (h : sumErrors estimate (truth.take k) ⟨0.0, 0.0, 0⟩ = .error failure)
    (reported : Option (List (Record κ))) : score truth k estimate reported = .error failure := by
  have hempty : (truth.take k).isEmpty = false := by simpa [List.isEmpty_iff] using hne
  unfold score meanErrors
  dsimp only
  rw [hempty, h]
  rfl

/-- **A score against an exact ranking** ends as scorings do: there is an entry,
and every entry has packets. -/
theorem scored_score [DecidableEq κ] [LT κ] [Ord κ] {group : Key → κ} {keys : List Key}
    (h : ExactRanking group keys truth) (hne : keys ≠ []) (k : Nat) (estimate : κ → Outcome Int)
    (hestimate : ∀ key, FailsOnly Failure.IsOverflow (estimate key))
    (reported : Option (List (Record κ))) :
    Scored k (fun failure => ∃ r ∈ truth.take k, estimate r.key = .error failure)
      (·.Spans k (keys.map group).toFinset.card reported.isSome)
        (score truth k estimate reported) := by
  rcases Nat.eq_zero_or_pos k with rfl | hk
  · rw [score_zero]
    exact .noEntries rfl
  have htake := h.take_ne_nil hne hk
  by_cases hall : ∀ r ∈ truth.take k, ∃ n, estimate r.key = .ok n
  · obtain ⟨errors, herrors⟩ := exists_meanErrors htake
      (fun r hr => Int.ne_of_gt (h.positive r (List.mem_of_mem_take hr))) hall
    have hscore : score truth k estimate reported = .ok ⟨(truth.take k).length, errors,
        reported.map fun reported => (Hits.count (truth.take k) reported).shares⟩ :=
      Checked.bind_of_eq_ok herrors
    rw [hscore]
    refine .card hk ⟨?_, Option.isSome_map⟩
    rw [← h.length_eq]
    exact List.length_take
  · obtain ⟨r, hr, failure, hfails, hsums⟩ :=
      exists_sumErrors_eq_error (by simpa using hall) ⟨0.0, 0.0, 0⟩
    rw [score_eq_error htake hsums]
    exact .overflow (hestimate r.key failure hfails) ⟨r, hr, hfails⟩

end

end HeavyHitters
