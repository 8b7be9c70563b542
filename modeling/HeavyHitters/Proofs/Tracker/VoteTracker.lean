import HeavyHitters.Proofs.Estimator.VoteSketch
import HeavyHitters.Proofs.VoteBucket.Votes

/-!
# Votes after a run

A vote tracker is given single units, so only single units leave it.  It does not conserve weight,
as each takeover adds a unit; counting the takeovers closes the account.  The bound on the votes of
a resident does not depend on the weight of the units, so it holds in elastic sketches too.

* `VoteTracker.votes_insertAll` is the account of a run, from any sound table.
* `VoteTracker.accounted_of_insertAll` is the account of a tracker from its making, with the
  bounds for trackers and sketches.
-/

namespace HeavyHitters

open VoteBucket (TableSound tableVotes)

/-- Units of one weigh together as many as they are. -/
theorem weightOf_allKeys_of_one {units : List Entry} (h : ∀ unit ∈ units, unit.count = 1) :
    weightOf allKeys units = units.length := by
  induction units with
  | nil => rfl
  | cons unit units ih =>
    obtain ⟨hunit, hrest⟩ := List.forall_mem_cons.mp h
    rw [weightOf_cons, allKeys, if_pos rfl, hunit, ih hrest, List.length_cons]
    omega

/-- In a sound table every bucket that is not empty has a tenable resident. -/
theorem VoteBucket.TableSound.tenable {rows : List (Row VoteBucket)} (h : TableSound rows) :
    ∀ row ∈ rows, ∀ b ∈ row.cells, b.isEmpty = false → b.Tenable := by
  intro row hr b hb hne
  refine (h row hr b hb).tenable fun hempty => ?_
  rw [VoteBucket.isEmpty_iff.mpr hempty] at hne
  cases hne

namespace VoteSketch

theorem sound_of_insertAll {s s' : VoteSketch} {units : List Entry} (hs : TableSound s.rows)
    (hunits : ∀ unit ∈ units, 1 ≤ unit.count) (run : Estimator.insertAll s units = .ok s') :
    TableSound s'.rows := by
  have hstep : ∀ {s s' : VoteSketch} {unit : Entry}, TableSound s.rows → 1 ≤ unit.count →
      Estimator.insert s unit.key unit.count = .ok s' → TableSound s'.rows := by
    intro s s' unit hs hunit hi
    obtain ⟨out, takeovers, hpassage⟩ := exists_passage hi
    exact (hpassage.account hs hunit).1
  exact Estimator.inv_insertAll hstep hs hunits run

end VoteSketch

namespace VoteTracker

variable {t t' : VoteTracker} {key : Key} {out : Option Entry}

theorem exists_passage (h : Tracker.insert t key = .ok (t', out)) : ∃ more,
    VoteBucket.Passage ⟨key, 1⟩ t.rows t'.rows out more ∧ t'.takeovers = t.takeovers + more := by
  obtain ⟨⟨rows, out', more⟩, hoffer, h⟩ := Checked.bind_eq_ok.mp h
  obtain ⟨rfl, rfl⟩ := Prod.mk.inj (Checked.pure_eq_ok.mp h)
  exact ⟨more, VoteBucket.passage_of_offerAll hoffer, rfl⟩

/-- Only single units leave a tracker. -/
theorem outs_count {keys : List Key} {outs : List (Option Entry)}
    (run : Tracker.insertAll t keys = .ok (t', outs)) : ∀ e ∈ outs.reduceOption, e.count = 1 := by
  have hstep : ∀ {t t' : VoteTracker} {key : Key} {out : Option Entry}, True →
      Tracker.insert t key = .ok (t', out) → True ∧ ∀ e ∈ out, e.count = 1 := by
    intro t t' key out _ hi
    obtain ⟨more, hpassage, -⟩ := exists_passage hi
    exact ⟨trivial, hpassage.out_count rfl⟩
  exact Tracker.forall_outs_insertAll hstep trivial run

/-- **The account of a run** that starts from any sound table. -/
theorem votes_insertAll {keys : List Key} {outs : List (Option Entry)} (hs : TableSound t.rows)
    (run : Tracker.insertAll t keys = .ok (t', outs)) :
    TableSound t'.rows ∧ tableVotes t'.rows + weightOf allKeys outs.reduceOption + t.takeovers
      = tableVotes t.rows + keys.length + t'.takeovers := by
  induction keys generalizing t outs with
  | nil =>
    cases run
    exact ⟨hs, by simp⟩
  | cons key keys ih =>
    obtain ⟨t₁, out, outs₁, hi, hr, rfl⟩ := Tracker.insertAll_cons_eq_ok.mp run
    obtain ⟨more, hpassage, htakeovers⟩ := exists_passage hi
    obtain ⟨hsound, hvotes⟩ := hpassage.account hs (Int.le_refl 1)
    dsimp only at hvotes
    obtain ⟨hsound', hrest⟩ := ih hsound hr
    rw [weightOf_reduceOption_cons, List.length_cons]
    exact ⟨hsound', by omega⟩

/-- What is known of the buckets and of the units carried out after a run of `n` units. -/
structure Accounted (n : Nat) (t : VoteTracker) (outs : List (Option Entry)) : Prop where
  tenable : ∀ row ∈ t.rows, ∀ b ∈ row.cells, b.isEmpty = false → b.Tenable
  /-- Only single units leave a tracker. -/
  out_count : ∀ e ∈ outs.reduceOption, e.count = 1
  /-- The votes of the residents and the units carried out are those
  inserted and one for each takeover. -/
  balance : tableVotes t.rows + outs.reduceOption.length = n + t.takeovers

/--
**The votes add up.**  After every run of a built tracker the residents are tenable, only single
units have left it, and the takeovers close the account of weight.  The residents of an elastic
sketch are tenable after every run of units with weight.
-/
theorem accounted_of_insertAll :
    (∀ (memory : Nat) (seed : UInt64) (start t : VoteTracker) (keys : List Key)
      (outs : List (Option Entry)), ofBudget memory seed = .ok start →
      Tracker.insertAll start keys = .ok (t, outs) → Accounted keys.length t outs) ∧
    ∀ (memory width : Nat) (seed : UInt64) (start s : VoteSketch) (units : List Entry),
      VoteSketch.ofBudget memory width seed = .ok start → (∀ unit ∈ units, 1 ≤ unit.count) →
      Estimator.insertAll start units = .ok s →
        ∀ row ∈ s.rows, ∀ b ∈ row.cells, b.isEmpty = false → b.Tenable := by
  constructor
  · intro memory seed start t keys outs built run
    obtain ⟨length, -, -, -, rfl⟩ := exists_length_of_budget built
    obtain ⟨hsound, hvotes⟩ := votes_insertAll (VoteBucket.tableSound_table _ _) run
    refine ⟨hsound.tenable, outs_count run, ?_⟩
    rw [weightOf_allKeys_of_one (outs_count run), VoteBucket.tableVotes_table] at hvotes
    dsimp only at hvotes
    omega
  · intro memory width seed start s units built hunits run
    obtain ⟨length, -, rfl⟩ := VoteSketch.ofBudget_eq_ok built
    exact (VoteSketch.sound_of_insertAll (VoteBucket.tableSound_table _ _) hunits run).tenable

/-- One bucket in each row of a tracker and of a sketch: the key 65537 takes the first one
over from 7, in the tracker with its 31st unit and in the sketch with one of weight 40; the
last two keys leave the tracker. -/
theorem accounted_of_insertAll_takeover :
    (∃ (start t : VoteTracker) (outs : List (Option Entry)), ofBudget 48 1 = .ok start ∧
      Tracker.insertAll start (7 :: List.replicate 31 65537 ++ [1, 2, 3]) = .ok (t, outs) ∧
      outs.reduceOption = [⟨2, 1⟩, ⟨3, 1⟩] ∧ t.takeovers = 1 ∧ tableVotes t.rows = 34 ∧
      Accounted 35 t outs) ∧
    ∃ start s : VoteSketch, VoteSketch.ofBudget 48 4 1 = .ok start ∧
      (∀ unit ∈ ([⟨7, 1⟩, ⟨65537, 40⟩] : List Entry), 1 ≤ unit.count) ∧
      Estimator.insertAll start [⟨7, 1⟩, ⟨65537, 40⟩] = .ok s ∧
      tableResidents s.rows = [⟨65537, 41⟩, ⟨7, 1⟩] ∧
      ∀ row ∈ s.rows, ∀ b ∈ row.cells, b.isEmpty = false → b.Tenable := by
  constructor
  · have hrun : (do
        let start ← ofBudget 48 1
        let (t, outs) ← Outcome.ofChecked
          (Tracker.insertAll start (7 :: List.replicate 31 65537 ++ [1, 2, 3]))
        return (outs.reduceOption, t.takeovers, tableVotes t.rows) :
          Outcome (List Entry × Nat × Int))
          = .ok ([⟨2, 1⟩, ⟨3, 1⟩], 1, 34) := by decide +kernel
    obtain ⟨start, built, hrun⟩ := Checked.bind_eq_ok.mp hrun
    obtain ⟨⟨t, outs⟩, run, hrun⟩ := Checked.bind_eq_ok.mp hrun
    have run := Outcome.ofChecked_eq_ok.mp run
    obtain ⟨houts, hrest⟩ := Prod.mk.inj (Checked.pure_eq_ok.mp hrun)
    obtain ⟨htakeovers, hvotes⟩ := Prod.mk.inj hrest
    exact ⟨start, t, outs, built, run, houts, htakeovers, hvotes,
      accounted_of_insertAll.1 48 1 start t _ outs built run⟩
  · have hrun : (do
        let start ← VoteSketch.ofBudget 48 4 1
        let s ← Outcome.ofChecked (Estimator.insertAll start [⟨7, 1⟩, ⟨65537, 40⟩])
        return tableResidents s.rows : Outcome (List Entry)) = .ok [⟨65537, 41⟩, ⟨7, 1⟩] := by
      decide +kernel
    obtain ⟨start, built, hrun⟩ := Checked.bind_eq_ok.mp hrun
    obtain ⟨s, run, hrun⟩ := Checked.bind_eq_ok.mp hrun
    have run := Outcome.ofChecked_eq_ok.mp run
    have hunits : ∀ unit ∈ ([⟨7, 1⟩, ⟨65537, 40⟩] : List Entry), 1 ≤ unit.count := by decide
    exact ⟨start, s, built, hunits, run, Checked.pure_eq_ok.mp hrun,
      accounted_of_insertAll.2 48 4 1 start s _ built hunits run⟩

end VoteTracker

end HeavyHitters
