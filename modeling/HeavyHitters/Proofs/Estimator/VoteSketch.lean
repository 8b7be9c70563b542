import HeavyHitters.Estimator.VoteSketch
import HeavyHitters.Proofs.Tracker.Accounts
import HeavyHitters.Proofs.VoteBucket
import HeavyHitters.Tracker.VoteTracker

/-!
# Elastic sketches and vote trackers

An elastic sketch and a vote tracker are built of the same buckets and send a unit the same way
through them.  They differ in what they do with a unit that no row takes in: the sketch drops it,
the tracker hands it out and counts how many buckets were taken over.  So a sketch with buckets of
three four-byte words and a tracker in the same budget stay in lockstep.

* `VoteSketch.carry_eq` says that the sketch sends a unit the way that the tracker does.
* `VoteSketch.alike_of_feed` is the lockstep of the two, from their making over every run.
-/

namespace HeavyHitters

/-- What every insert of a unit of some kind keeps is kept by a run of such units. -/
theorem Estimator.inv_insertAll {ε : Type} [Estimator ε] {Inv : ε → Prop} {Good : Record Key → Prop}
    (step : ∀ {e e' : ε} {unit : Record Key}, Inv e → Good unit →
      Estimator.insert e unit.key unit.count = .ok e' → Inv e')
    {e e' : ε} {units : List (Record Key)} (he : Inv e) (hunits : ∀ unit ∈ units, Good unit)
    (run : insertAll e units = .ok e') : Inv e' :=
  Checked.inv_foldlM step he hunits run

namespace VoteSketch

variable {s s' : VoteSketch} {t : VoteTracker} {key : Key} {weight : Int}

/-! ## One insert -/

theorem carry_eq (rows : List (Row VoteBucket)) (unit : Entry) :
    carry rows unit = Prod.fst <$> VoteBucket.offerAll rows unit := by
  induction rows generalizing unit with
  | nil => rfl
  | cons row rows ih =>
    rw [carry, VoteBucket.offerAll]
    cases row.modify unit.key (·.offer unit) with
    | error fault => rfl
    | ok result =>
      obtain ⟨row', next⟩ := result
      cases next with
      | none => rfl
      | some passed =>
        simp only [bind, Except.bind, ih passed]
        cases VoteBucket.offerAll rows passed <;> rfl

/-- A unit that is inserted passes through the rows. -/
theorem exists_passage (h : insert s key weight = .ok s') :
    ∃ out takeovers, VoteBucket.Passage ⟨key, weight⟩ s.rows s'.rows out takeovers := by
  obtain ⟨rows, hcarry, h⟩ := Checked.bind_eq_ok.mp h
  obtain rfl := Checked.pure_eq_ok.mp h
  rw [carry_eq] at hcarry
  obtain ⟨⟨rows', out, takeovers⟩, hoffer, rfl⟩ := Checked.map_eq_ok.mp hcarry
  exact ⟨out, takeovers, VoteBucket.passage_of_offerAll hoffer⟩

/-- An insert of one unit faults in both or leads to the same buckets. -/
theorem insert_lockstep (h : s.rows = t.rows) (key : Key) :
    (∃ fault, insert s key 1 = .error fault ∧ t.insert key = .error fault) ∨
      ∃ s' t' out, insert s key 1 = .ok s' ∧ t.insert key = .ok (t', out) ∧ s'.rows = t'.rows := by
  obtain ⟨rows, takeovers⟩ := t
  obtain rfl : s.rows = rows := h
  rw [VoteTracker.insert, insert, carry_eq]
  cases VoteBucket.offerAll s.rows ⟨key, 1⟩ with
  | error fault => exact .inl ⟨fault, rfl, rfl⟩
  | ok result =>
    obtain ⟨rows', out, more⟩ := result
    exact .inr ⟨⟨rows'⟩, ⟨rows', takeovers + more⟩, out, rfl, rfl, rfl⟩

/-! ## As they are built -/

theorem ofBudget_eq_ok {memory width : Nat} {seed : UInt64}
    (h : ofBudget memory width seed = .ok s) : ∃ length, length ≠ 0 ∧
      s = ⟨table (SeedStream.hashes ⟨seed⟩ VoteBucket.rowCount).1 length VoteBucket.empty⟩ := by
  obtain ⟨width', -, h⟩ := Checked.bind_eq_ok.mp h
  obtain ⟨length, -, hlength, -, rfl⟩ := exists_length_of_budget h
  exact ⟨length, hlength, rfl⟩

theorem ofBudget_four (memory : Nat) (seed : UInt64) : ofBudget memory 4 seed = (do
    let length ← rowLength title memory VoteBucket.rowCount 12
    reserveRows VoteBucket.rowCount length 12
    return ⟨table (SeedStream.hashes ⟨seed⟩ VoteBucket.rowCount).1 length VoteBucket.empty⟩) := by
  have hwidth : (sizeTimes 3 4 : Outcome Nat) = .ok 12 := by decide +kernel
  rw [ofBudget, hwidth]
  rfl

/-- With words of four bytes a sketch is built just where a tracker is, and of the same rows: the
two differ in the name that a refusal bears. -/
theorem ofBudget_eq_ok_iff {memory : Nat} {seed : UInt64} :
    ofBudget memory 4 seed = .ok s ↔ VoteTracker.ofBudget memory seed = .ok ⟨s.rows, 0⟩ := by
  rw [ofBudget_four, VoteTracker.ofBudget]
  constructor
  · intro h
    obtain ⟨length, hl, h⟩ := Checked.bind_eq_ok.mp h
    obtain ⟨_, hreserve, h⟩ := Checked.bind_eq_ok.mp h
    obtain rfl := Checked.pure_eq_ok.mp h
    exact Checked.bind_eq_ok.mpr ⟨length, rowLength_of_subject hl,
      Checked.bind_eq_ok.mpr ⟨(), hreserve, rfl⟩⟩
  · intro h
    obtain ⟨length, hl, h⟩ := Checked.bind_eq_ok.mp h
    obtain ⟨_, hreserve, h⟩ := Checked.bind_eq_ok.mp h
    have hrows := congrArg VoteTracker.rows (Checked.pure_eq_ok.mp h)
    refine Checked.bind_eq_ok.mpr ⟨length, rowLength_of_subject hl,
      Checked.bind_eq_ok.mpr ⟨(), hreserve, Checked.pure_eq_ok.mpr ?_⟩⟩
    exact congrArg VoteSketch.mk hrows

/-! ## Runs -/

/-- An elastic sketch and a vote tracker that hold the same buckets and answer alike. -/
structure Alike (s : VoteSketch) (t : VoteTracker) : Prop where
  rows_eq : s.rows = t.rows
  query_eq : ∀ key, Estimator.query s key = Outcome.ofChecked (Tracker.query t key)
  topK_eq : Estimator.topK s = Outcome.ofChecked (Tracker.topK t)

theorem alike_of_rows_eq (h : s.rows = t.rows) : Alike s t where
  rows_eq := h
  query_eq key := by
    show Outcome.ofChecked (tableWeight s.rows key) = _
    rw [h]
    rfl
  topK_eq := by
    show Outcome.ofChecked (mergeRanked (tableResidents s.rows)) = _
    rw [h]
    rfl

theorem feed_lockstep (h : s.rows = t.rows) (keys : List Key) :
    (∃ fault, Estimator.feed s keys = .error fault ∧ Tracker.insertAll t keys = .error fault) ∨
      ∃ s' t' outs, Estimator.feed s keys = .ok s' ∧ Tracker.insertAll t keys = .ok (t', outs) ∧
        s'.rows = t'.rows := by
  induction keys generalizing s t with
  | nil => exact .inr ⟨s, t, [], rfl, rfl, h⟩
  | cons key keys ih =>
    unfold Estimator.feed Tracker.insertAll
    rw [List.map_cons, Estimator.insertAll_cons]
    rcases insert_lockstep h key with ⟨fault, hs, ht⟩ | ⟨s₁, t₁, out, hs, ht, h₁⟩
    · refine .inl ⟨fault, ?_, ?_⟩
      · rw [show Estimator.insert s key 1 = .error fault from hs]
        rfl
      · rw [show Tracker.insert t key = .error fault from ht]
        rfl
    rw [show Estimator.insert s key 1 = .ok s₁ from hs,
      show Tracker.insert t key = .ok (t₁, out) from ht]
    rcases ih h₁ with ⟨fault, hs, ht⟩ | ⟨s', t', outs, hs, ht, h'⟩
    · refine .inl ⟨fault, hs, ?_⟩
      simp only [bind, Except.bind, ht]
    · refine .inr ⟨s', t', out :: outs, hs, ?_, h'⟩
      simp only [bind, Except.bind, ht]
      rfl

/--
**Elastic sketches and vote trackers agree.**  In every budget and for every seed both are built or
neither is, and then every run of single units faults in both, in the same way, or leaves both with
the same buckets, the same answers and the same ranking.
-/
theorem alike_of_feed (memory : Nat) (seed : UInt64) :
    ((∃ s, ofBudget memory 4 seed = .ok s) ↔ ∃ t, VoteTracker.ofBudget memory seed = .ok t) ∧
      ∀ s t, ofBudget memory 4 seed = .ok s → VoteTracker.ofBudget memory seed = .ok t →
        ∀ keys, (∃ fault, Estimator.feed s keys = .error fault ∧
            Tracker.insertAll t keys = .error fault) ∨
          ∃ s' t' outs, Estimator.feed s keys = .ok s' ∧ Tracker.insertAll t keys = .ok (t', outs) ∧
            Alike s' t' := by
  constructor
  · constructor
    · rintro ⟨s, hs⟩
      exact ⟨_, ofBudget_eq_ok_iff.mp hs⟩
    · rintro ⟨t, ht⟩
      obtain ⟨length, -, -, -, rfl⟩ := exists_length_of_budget ht
      exact ⟨⟨_⟩, ofBudget_eq_ok_iff.mpr ht⟩
  · intro s t hs ht keys
    have hrows : s.rows = t.rows :=
      congrArg VoteTracker.rows (Except.ok.inj ((ofBudget_eq_ok_iff.mp hs).symm.trans ht))
    refine (feed_lockstep hrows keys).imp_right ?_
    rintro ⟨s', t', outs, hfeed, hrun, h'⟩
    exact ⟨s', t', outs, hfeed, hrun, alike_of_rows_eq h'⟩

/-- One bucket in each row: the key 65537 takes the first one over from 7 and keeps the second. -/
theorem alike_of_feed_four_buckets : ∃ (s s' : VoteSketch) (t t' : VoteTracker)
    (outs : List (Option Entry)), ofBudget 48 4 1 = .ok s ∧ VoteTracker.ofBudget 48 1 = .ok t ∧
      Estimator.feed s (7 :: List.replicate 31 65537 ++ [7, 7]) = .ok s' ∧
      Tracker.insertAll t (7 :: List.replicate 31 65537 ++ [7, 7]) = .ok (t', outs) ∧
      tableResidents s'.rows = [⟨65537, 2⟩, ⟨65537, 30⟩, ⟨7, 3⟩] ∧ Alike s' t' := by
  have hrun : (do
      let t ← VoteTracker.ofBudget 48 1
      let result ← Outcome.ofChecked
        (Tracker.insertAll t (7 :: List.replicate 31 65537 ++ [7, 7]))
      return tableResidents result.1.rows : Outcome (List Entry))
        = .ok [⟨65537, 2⟩, ⟨65537, 30⟩, ⟨7, 3⟩] := by decide +kernel
  obtain ⟨t, ht, hrun⟩ := Checked.bind_eq_ok.mp hrun
  obtain ⟨⟨t', outs⟩, run, hrun⟩ := Checked.bind_eq_ok.mp hrun
  have run := Outcome.ofChecked_eq_ok.mp run
  have hresidents : tableResidents t'.rows = _ := Checked.pure_eq_ok.mp hrun
  have hagree := alike_of_feed 48 1
  obtain ⟨s, hs⟩ := hagree.1.mpr ⟨t, ht⟩
  rcases hagree.2 s t hs ht _ with ⟨fault, -, hfault⟩ | ⟨s', t'', outs', hfeed, run', halike⟩
  · rw [run] at hfault
    cases hfault
  obtain ⟨rfl, rfl⟩ := Prod.mk.inj (Except.ok.inj (run.symm.trans run'))
  exact ⟨s, s', t, t', outs, hs, ht, hfeed, run, halike.rows_eq ▸ hresidents, halike⟩

end VoteSketch

end HeavyHitters
