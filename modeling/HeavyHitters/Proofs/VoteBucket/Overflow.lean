import HeavyHitters.Proofs.Tracker.VoteTracker

/-!
# How many votes fit a bucket

Whether a resident is outvoted is decided by comparing all votes with a multiple of its own, and
this product has to fit a count like any other.  So a bucket bears only a fraction of the votes
that a count could hold.  Below this bound nothing overflows: a resident has no more votes of its
own than there was weight, all votes stay below the multiple of these, and a unit does not gain
weight on its way through the rows.

* `VoteBucket.Bounded` is the invariant of a bucket, and
  `VoteBucket.Poll.bounded` carries it over a poll.
* `VoteBucket.exists_offerAll` says that a unit finds its way through bounded rows.
* `VoteBucket.exists_runs_of_lambda_mul_le` is the bound for runs of elastic
  sketches and of vote trackers.
* `VoteBucket.exists_overflowing_runs` shows that little more weight overflows in both.
-/

namespace HeavyHitters

namespace VoteBucket

variable {unit : Entry} {b b' : VoteBucket} {given : Option Entry} {bound : Int}

/-! ## One bucket -/

/-- A bucket without votes or with a tenable resident, whose own votes are bounded. -/
structure Bounded (bound : Int) (b : VoteBucket) : Prop where
  votes : b.own = 0 ∧ b.all = 0 ∨ b.Tenable
  own_le : b.own ≤ bound

theorem Bounded.own_nonneg (h : b.Bounded bound) : 0 ≤ b.own := by
  rcases h.votes with ⟨hown, -⟩ | htenable
  · omega
  · have := htenable.own_pos
    omega

theorem Bounded.tenable (h : b.Bounded bound) (hne : b.all ≠ 0) : b.Tenable :=
  h.votes.resolve_left fun hempty => hne hempty.2

theorem Bounded.mono (h : b.Bounded bound) {more : Int} (hle : bound ≤ more) : b.Bounded more :=
  ⟨h.votes, Int.le_trans h.own_le hle⟩

theorem bounded_empty : empty.Bounded 0 := ⟨.inl ⟨rfl, rfl⟩, Int.le_refl 0⟩

/-- **A poll adds no more than the weight of the unit to the bound**, and what goes on weighs no
more than the unit: only a unit with weight can take a bucket over. -/
theorem Poll.bounded (h : Poll unit b b' given) (hb : b.Bounded bound) (hunit : 0 ≤ unit.count) :
    b'.Bounded (bound + unit.count) ∧ ∀ e ∈ given, 0 ≤ e.count ∧ e.count ≤ unit.count := by
  have hown_le := hb.own_le
  cases h with
  | settled =>
    have hnonneg := hb.own_nonneg
    refine ⟨⟨?_, by dsimp only; omega⟩, by simp⟩
    by_cases hzero : unit.count = 0
    · exact .inl ⟨hzero, hzero⟩
    · refine .inr ⟨?_, Int.le_refl _, ?_⟩ <;> dsimp only [lambda] <;> omega
  | merged hne =>
    obtain ⟨hown, hall, hlt⟩ := hb.tenable hne
    unfold lambda at hlt
    refine ⟨⟨.inr ⟨?_, ?_, ?_⟩, ?_⟩, by simp⟩ <;> dsimp only [lambda] <;> omega
  | takenOver hne _ hvotes =>
    obtain ⟨hown, hall, hlt⟩ := hb.tenable hne
    unfold lambda at hlt hvotes
    refine ⟨⟨.inr ⟨?_, ?_, ?_⟩, ?_⟩, ?_⟩
    · dsimp only
      omega
    · dsimp only
      omega
    · dsimp only [lambda]
      omega
    · dsimp only
      omega
    · rintro e ⟨⟩
      dsimp only
      omega
  | passed hne _ hvotes =>
    obtain ⟨hown, hall, hlt⟩ := hb.tenable hne
    unfold lambda at hvotes
    refine ⟨⟨.inr ⟨hown, ?_, ?_⟩, ?_⟩, ?_⟩
    · dsimp only
      omega
    · dsimp only [lambda]
      omega
    · dsimp only
      omega
    · rintro e ⟨⟩
      exact ⟨hunit, Int.le_refl _⟩

/-- Nothing overflows in a bounded bucket if the bound leaves room for the unit. -/
theorem Bounded.exists_offer (h : b.Bounded bound) (hunit : 0 ≤ unit.count)
    (hroom : lambda * bound + 2 * unit.count ≤ Count.greatest) :
    ∃ b' given, b.offer unit = .ok (b', given) := by
  have hle := h.own_le
  unfold lambda at hroom
  unfold offer
  by_cases hempty : b.isEmpty = true
  · rw [if_pos hempty]
    exact ⟨_, _, rfl⟩
  obtain ⟨hown, hall, hlt⟩ := h.tenable (mt isEmpty_iff.mpr hempty)
  unfold lambda at hlt
  rw [if_neg hempty]
  have hplus_own : Count.plus b.own unit.count = .ok (b.own + unit.count) :=
    Count.narrow_of_fits (Count.fits_of_bounds (by omega) (by omega))
  have hplus_all : Count.plus b.all unit.count = .ok (b.all + unit.count) :=
    Count.narrow_of_fits (Count.fits_of_bounds (by omega) (by omega))
  have hplus_twice : Count.plus (b.all + unit.count) unit.count
      = .ok (b.all + unit.count + unit.count) :=
    Count.narrow_of_fits (Count.fits_of_bounds (by omega) (by omega))
  have htimes : Count.times b.own lambda = .ok (b.own * lambda) :=
    Count.narrow_of_fits (Count.fits_of_bounds (by unfold lambda; omega) (by unfold lambda; omega))
  rw [hplus_own, hplus_all, htimes]
  simp only [bind, Except.bind, hplus_twice]
  split
  · exact ⟨_, _, rfl⟩
  · split
    · exact ⟨_, _, rfl⟩
    · exact ⟨_, _, rfl⟩

/-! ## Tables -/

/-- Rows with buckets, all of them bounded. -/
def TableBounded (bound : Int) (rows : List (Row VoteBucket)) : Prop :=
  ∀ row ∈ rows, 0 < row.length ∧ ∀ b ∈ row.cells, b.Bounded bound

theorem tableBounded_table (hashes : List KeyHash) {length : Nat} (hlength : length ≠ 0) :
    TableBounded 0 (table hashes length empty) := by
  intro row hr
  obtain ⟨hash, rfl⟩ := mem_table hr
  refine ⟨by rw [Row.length_fill]; omega, fun b hb => ?_⟩
  rw [Array.eq_of_mem_replicate hb]
  exact bounded_empty

/-- **A unit finds its way through bounded rows** if the bound leaves room for it, and adds no more
than its weight to the bound. -/
theorem exists_offerAll {rows : List (Row VoteBucket)} (h : TableBounded bound rows) {weight : Int}
    (hunit : 0 ≤ unit.count) (hle : unit.count ≤ weight)
    (hroom : lambda * bound + 2 * weight ≤ Count.greatest) :
    ∃ rows' out takeovers, offerAll rows unit = .ok (rows', out, takeovers) ∧
      TableBounded (bound + weight) rows' := by
  induction rows generalizing unit with
  | nil => exact ⟨[], some unit, 0, rfl, by simp [TableBounded]⟩
  | cons row rows ih =>
    obtain ⟨⟨hpos, hrow⟩, hrest⟩ := List.forall_mem_cons.mp h
    obtain ⟨old, hget⟩ := row.exists_get_eq_ok unit.key hpos
    have hold := hrow old (Row.mem_cells_of_get hget)
    obtain ⟨new, given, hoffer⟩ := hold.exists_offer hunit (by omega)
    obtain ⟨hnew, hgiven⟩ := (poll_of_offer hoffer).bounded hold hunit
    have hmodify : row.modify unit.key (·.offer unit) = .ok (row.set unit.key new, given) :=
      Row.modify_eq_ok_iff.mpr ⟨old, new, hget, hoffer, rfl⟩
    have hset : 0 < (row.set unit.key new).length ∧
        ∀ c ∈ (row.set unit.key new).cells, c.Bounded (bound + weight) :=
      ⟨by rwa [Row.length_set],
        Row.forall_mem_cells_set (fun c hc => (hrow c hc).mono (by omega)) (hnew.mono (by omega))⟩
    rw [offerAll, hmodify]
    cases given with
    | none =>
      refine ⟨_, none, 0, rfl, List.forall_mem_cons.mpr ⟨hset, fun other ho => ?_⟩⟩
      exact ⟨(hrest other ho).1, fun c hc => ((hrest other ho).2 c hc).mono (by omega)⟩
    | some passed =>
      obtain ⟨hnonneg, hlight⟩ := hgiven passed rfl
      obtain ⟨rows', out, takeovers, hall, hbounded⟩ := ih hrest hnonneg (by omega)
      refine ⟨row.set unit.key new :: rows', out,
        takeovers + if passed.key = unit.key then 0 else 1, ?_,
        List.forall_mem_cons.mpr ⟨hset, hbounded⟩⟩
      simp only [bind, Except.bind, hall]
      rfl

end VoteBucket

/-! ## Runs below the bound -/

open VoteBucket (lambda TableBounded)

namespace VoteSketch

theorem exists_insertAll {s : VoteSketch} {units : List Entry} {bound : Int}
    (h : TableBounded bound s.rows) (hunits : ∀ unit ∈ units, 0 ≤ unit.count)
    (hroom : lambda * (bound + weightOf allKeys units) ≤ Count.greatest) :
    ∃ s', Estimator.insertAll s units = .ok s' ∧
    TableBounded (bound + weightOf allKeys units) s'.rows := by
  induction units generalizing s bound with
  | nil => exact ⟨s, rfl, by simpa using h⟩
  | cons unit units ih =>
    obtain ⟨hunit, hrest⟩ := List.forall_mem_cons.mp hunits
    have hmore : 0 ≤ weightOf allKeys units := weightOf_nonneg hrest
    have htotal : weightOf allKeys (unit :: units) = unit.count + weightOf allKeys units := rfl
    rw [htotal, ← Int.add_assoc] at hroom ⊢
    obtain ⟨rows, out, takeovers, hall, hrows⟩ :=
      VoteBucket.exists_offerAll h hunit (Int.le_refl _) (by unfold lambda at hroom ⊢; omega)
    have hinsert : Estimator.insert s unit.key unit.count = .ok ⟨rows⟩ := by
      show insert s unit.key unit.count = _
      rw [insert, carry_eq, hall]
      rfl
    have hnext : TableBounded (bound + unit.count) (mk rows).rows := hrows
    obtain ⟨s', run, hs'⟩ := ih hnext hrest hroom
    exact ⟨s', by rw [Estimator.insertAll_cons, hinsert]; exact run, hs'⟩

end VoteSketch

namespace VoteTracker

theorem insert_of_offerAll {t : VoteTracker} {key : Key} {rows : List (Row VoteBucket)}
    {out : Option Entry} {more : Nat}
    (h : VoteBucket.offerAll t.rows ⟨key, 1⟩ = .ok (rows, out, more)) :
    Tracker.insert t key = .ok (⟨rows, t.takeovers + more⟩, out) := by
  show t.insert key = _
  rw [insert, h]
  rfl

theorem exists_insertAll {t : VoteTracker} {keys : List Key} {bound : Int}
    (h : TableBounded bound t.rows) (hroom : lambda * (bound + keys.length) ≤ Count.greatest + 1) :
    ∃ t' outs, Tracker.insertAll t keys = .ok (t', outs) := by
  induction keys generalizing t bound with
  | nil => exact ⟨t, [], rfl⟩
  | cons key keys ih =>
    rw [List.length_cons, Nat.cast_succ] at hroom
    have hlimit : lambda * bound + 2 * 1 ≤ Count.greatest := by
      unfold lambda Count.greatest at *
      omega
    have hunit : 0 ≤ (⟨key, 1⟩ : Entry).count := Int.one_nonneg
    obtain ⟨rows, out, takeovers, hall, hrows⟩ :=
      VoteBucket.exists_offerAll h hunit (Int.le_refl 1) hlimit
    have hnext : TableBounded (bound + 1) (mk rows (t.takeovers + takeovers)).rows := hrows
    obtain ⟨t', outs, run⟩ := ih hnext (by rwa [Int.add_assoc, Int.add_comm 1])
    exact ⟨t', out :: outs,
      Tracker.insertAll_cons_eq_ok.mpr ⟨_, out, outs, insert_of_offerAll hall, run, rfl⟩⟩

end VoteTracker

/--
**Nothing overflows while a count can hold all weight multiplied by `lambda`.**  An
elastic sketch bears any units of so little weight, and a vote tracker as many keys, even
one more than fit by that measure.
-/
theorem VoteBucket.exists_runs_of_lambda_mul_le (memory width : Nat) (seed : UInt64) :
    (∀ (start : VoteSketch) (units : List Entry),
      VoteSketch.ofBudget memory width seed = .ok start → (∀ unit ∈ units, 0 ≤ unit.count) →
      lambda * weightOf allKeys units ≤ Count.greatest → ∃ s,
      Estimator.insertAll start units = .ok s) ∧
    ∀ (start : VoteTracker) (keys : List Key),
      VoteTracker.ofBudget memory seed = .ok start →
      lambda * (keys.length : Int) ≤ Count.greatest + 1 →
      ∃ t outs, Tracker.insertAll start keys = .ok (t, outs) := by
  constructor
  · intro start units built hunits hroom
    obtain ⟨length, hlength, rfl⟩ := VoteSketch.ofBudget_eq_ok built
    obtain ⟨s, run, -⟩ :=
      VoteSketch.exists_insertAll (VoteBucket.tableBounded_table _ hlength) hunits
      (by rwa [Int.zero_add])
    exact ⟨s, run⟩
  · intro start keys built hroom
    obtain ⟨length, -, hlength, -, rfl⟩ := exists_length_of_budget built
    exact VoteTracker.exists_insertAll (VoteBucket.tableBounded_table _ hlength)
      (by rwa [Int.zero_add])

/-- The greatest weight that the bound lets in, in one bucket that two keys share. -/
theorem VoteBucket.exists_runs_of_lambda_mul_le_full :
    (∃ start s, VoteSketch.ofBudget 48 4 1 = .ok start ∧
      (∀ unit ∈ ([⟨1, 67108862⟩, ⟨2, 1⟩, ⟨3, 0⟩] : List Entry), 0 ≤ unit.count) ∧
      lambda * weightOf allKeys [⟨1, 67108862⟩, ⟨2, 1⟩, ⟨3, 0⟩] ≤ Count.greatest ∧
      Estimator.insertAll start [⟨1, 67108862⟩, ⟨2, 1⟩, ⟨3, 0⟩] = .ok s) ∧
    ∃ start t outs, VoteTracker.ofBudget 48 1 = .ok start ∧
      lambda * (([7, 7, 1, 2] : List Key).length : Int) ≤ Count.greatest + 1 ∧
      Tracker.insertAll start [7, 7, 1, 2] = .ok (t, outs) := by
  obtain ⟨sketches, trackers⟩ := exists_runs_of_lambda_mul_le 48 4 1
  constructor
  · have hbuilt : (do return (← VoteSketch.ofBudget 48 4 1).rows.length : Outcome Nat) = .ok 4 := by
      decide +kernel
    obtain ⟨start, built, -⟩ := Checked.bind_eq_ok.mp hbuilt
    obtain ⟨s, run⟩ := sketches start [⟨1, 67108862⟩, ⟨2, 1⟩, ⟨3, 0⟩] built (by decide) (by decide)
    exact ⟨start, s, built, by decide, by decide, run⟩
  · have hbuilt : (do return (← VoteTracker.ofBudget 48 1).rows.length : Outcome Nat) = .ok 4 := by
      decide +kernel
    obtain ⟨start, built, -⟩ := Checked.bind_eq_ok.mp hbuilt
    obtain ⟨t, outs, run⟩ := trackers start [7, 7, 1, 2] built (by decide)
    exact ⟨start, t, outs, built, by decide, run⟩

/-! ## Runs above the bound -/

namespace VoteBucket

variable {row : Row VoteBucket}

/-- A resident with too many votes of its own cannot be voted against. -/
theorem offerAll_of_outgrown (rest : List (Row VoteBucket)) (unit : Entry)
    (hget : row.get unit.key = .ok b) (hne : b.all ≠ 0) (hkey : b.key ≠ unit.key)
    (hall : Count.Fits (b.all + unit.count)) (hlimit : Count.greatest < b.own * lambda) :
    offerAll (row :: rest) unit = .error (.overflow .multiply) := by
  have hoffer : b.offer unit = .error (.overflow .multiply) := by
    unfold offer
    rw [if_neg (mt isEmpty_iff.mp hne), if_neg hkey]
    rw [show Count.plus b.all unit.count = _ from Count.narrow_of_fits hall]
    rw [show Count.times b.own lambda = _ from Count.narrow_of_greatest_lt hlimit]
    rfl
  have hcell := Row.get_eq_ok_iff.mp hget
  rw [offerAll, Row.modify]
  simp only [hcell, bind, Except.bind, hoffer]

theorem offerAll_of_absorbed (rest : List (Row VoteBucket)) (unit : Entry)
    (hget : row.get unit.key = .ok b) (hoffer : b.offer unit = .ok (b', none)) :
    offerAll (row :: rest) unit = .ok (row.set unit.key b' :: rest, none, 0) := by
  have hmodify : row.modify unit.key (·.offer unit) = .ok (row.set unit.key b', none) :=
    Row.modify_eq_ok_iff.mpr ⟨b, b', hget, hoffer, rfl⟩
  rw [offerAll, hmodify]
  rfl

end VoteBucket

namespace VoteTracker

variable {row : Row VoteBucket} {rest : List (Row VoteBucket)} {key other : Key} {takeovers : Nat}

/-- As the units of a key add up in its bucket, they leave no room for
a unit of another key there. -/
theorem insertAll_of_outgrown {votes : Int} (hpos : 0 < row.length)
    (hget : row.get key = .ok ⟨key, votes, votes⟩) (hvotes : 1 ≤ votes) (hne : key ≠ other)
    (hshare : row.position other = row.position key) (more : Nat)
    (hfits : votes + more + 1 ≤ Count.greatest)
    (hlimit : Count.greatest < (votes + more) * lambda) :
    Tracker.insertAll (⟨row :: rest, takeovers⟩ : VoteTracker) (List.replicate more key ++ [other])
      = .error (.overflow .multiply) := by
  induction more generalizing row votes with
  | zero =>
    rw [Int.natCast_zero, Int.add_zero] at hfits hlimit
    have hsame : row.get other = .ok ⟨key, votes, votes⟩ := by rw [← hget, Row.get, Row.get, hshare]
    have hall : Count.Fits (votes + 1) := Count.fits_of_bounds (by omega) hfits
    have hoffer := VoteBucket.offerAll_of_outgrown rest ⟨other, 1⟩ hsame
      (by dsimp only; omega) hne hall hlimit
    have hinsert : Tracker.insert (⟨row :: rest, takeovers⟩ : VoteTracker) other
        = .error (.overflow .multiply) := by
      show insert ⟨row :: rest, takeovers⟩ other = _
      rw [insert, hoffer]
      rfl
    rw [List.replicate_zero, List.nil_append, Tracker.insertAll, hinsert]
    rfl
  | succ more ih =>
    rw [Nat.cast_succ, Int.add_comm (more : Int), ← Int.add_assoc] at hfits hlimit
    have hplus : Count.plus votes 1 = .ok (votes + 1) :=
      Count.narrow_of_fits (Count.fits_of_bounds (by omega) (by omega))
    have hne_zero : ¬(⟨key, votes, votes⟩ : VoteBucket).isEmpty = true :=
      mt VoteBucket.isEmpty_iff.mp (by dsimp only; omega)
    have hoffer : (⟨key, votes, votes⟩ : VoteBucket).offer ⟨key, 1⟩
        = .ok (⟨key, votes + 1, votes + 1⟩, none) := by
      rw [VoteBucket.offer, if_neg hne_zero, if_pos rfl, hplus]
      rfl
    have hall := VoteBucket.offerAll_of_absorbed rest ⟨key, 1⟩ hget hoffer
    have hset : (row.set key ⟨key, votes + 1, votes + 1⟩).get key
        = .ok ⟨key, votes + 1, votes + 1⟩ := by
      rw [Row.get_set hpos, if_pos rfl]
    have hrest := ih (by rwa [Row.length_set]) hset (by omega)
      (by rwa [Row.position_set, Row.position_set])
      hfits hlimit
    rw [List.replicate_succ, List.cons_append, Tracker.insertAll, insert_of_offerAll hall]
    simp only [bind, Except.bind, Nat.add_zero, hrest]

theorem insertAll_of_fresh (hpos : 0 < row.length)
    (hget : row.get key = .ok VoteBucket.empty) (hne : key ≠ other)
    (hshare : row.position other = row.position key) (more : Nat)
    (hfits : (1 : Int) + more + 1 ≤ Count.greatest)
    (hlimit : Count.greatest < ((1 : Int) + more) * lambda) :
    Tracker.insertAll (⟨row :: rest, takeovers⟩ : VoteTracker)
      (List.replicate (more + 1) key ++ [other])
      = .error (.overflow .multiply) := by
  have hall := VoteBucket.offerAll_of_absorbed rest ⟨key, 1⟩ hget rfl
  have hset : (row.set key ⟨key, 1, 1⟩).get key = .ok ⟨key, 1, 1⟩ := by
    rw [Row.get_set hpos, if_pos rfl]
  have hrest : Tracker.insertAll (⟨row.set key ⟨key, 1, 1⟩ :: rest, takeovers⟩ : VoteTracker)
      (List.replicate more key ++ [other]) = .error (.overflow .multiply) :=
    insertAll_of_outgrown (by rwa [Row.length_set]) hset (Int.le_refl 1) hne
      (by rwa [Row.position_set, Row.position_set]) more hfits hlimit
  rw [List.replicate_succ, List.cons_append, Tracker.insertAll, insert_of_offerAll hall]
  simp only [bind, Except.bind, Nat.add_zero, hrest]

end VoteTracker

/-- A run that faults in an elastic sketch, read off an evaluation that
leaves the sketch itself out. -/
theorem VoteSketch.exists_insertAll_eq_error {memory width : Nat} {seed : UInt64}
    {units : List Entry} {fault : Fault} (hrun : (do
      let start ← VoteSketch.ofBudget memory width seed
      return (Estimator.insertAll start units).map fun _ => () :
        Outcome (Checked Unit)) = .ok (.error fault)) :
    ∃ start, VoteSketch.ofBudget memory width seed = .ok start ∧
    Estimator.insertAll start units = .error fault := by
  obtain ⟨start, built, hrun⟩ := Checked.bind_eq_ok.mp hrun
  have hfault := Checked.pure_eq_ok.mp hrun
  refine ⟨start, built, ?_⟩
  cases run : Estimator.insertAll start units with
  | error other => simpa [run, Except.map] using hfault
  | ok s => simp [run, Except.map] at hfault

/-- **Little more weight overflows.**  In a bucket that two keys share, the votes of one come to
2^26, of which `lambda` times as many do not fit, and then a unit of the other arrives.  The weight
is far below what a count could hold; and so it is where a heavy newcomer overflows all votes of the
bucket, which count it twice as it takes over. -/
theorem VoteBucket.exists_overflowing_runs :
    (∃ start, VoteSketch.ofBudget 48 4 1 = .ok start ∧
      (∀ unit ∈ ([⟨1, 67108864⟩, ⟨2, 1⟩] : List Entry), 0 ≤ unit.count) ∧
      weightOf allKeys [⟨1, 67108864⟩, ⟨2, 1⟩] ≤ Count.greatest ∧
      Estimator.insertAll start [⟨1, 67108864⟩, ⟨2, 1⟩] = .error (.overflow .multiply)) ∧
    (∃ start, VoteSketch.ofBudget 48 4 1 = .ok start ∧
      (∀ unit ∈ ([⟨1, 1⟩, ⟨2, 1073741824⟩] : List Entry), 0 ≤ unit.count) ∧
      weightOf allKeys [⟨1, 1⟩, ⟨2, 1073741824⟩] ≤ Count.greatest ∧
      Estimator.insertAll start [⟨1, 1⟩, ⟨2, 1073741824⟩] = .error (.overflow .add)) ∧
    ∃ start, VoteTracker.ofBudget 48 1 = .ok start ∧
      ((List.replicate 67108864 (1 : Key) ++ [2]).length : Int) ≤ Count.greatest ∧
      Tracker.insertAll start (List.replicate 67108864 1 ++ [2])
        = .error (.overflow .multiply) := by
  refine ⟨?product, ?sum, ?tracker⟩
  case product =>
    have hrun : (do
        let start ← VoteSketch.ofBudget 48 4 1
        return (Estimator.insertAll start [⟨1, 67108864⟩, ⟨2, 1⟩]).map fun _ => () :
          Outcome (Checked Unit))
          = .ok (.error (.overflow .multiply)) := by decide +kernel
    obtain ⟨start, built, run⟩ := VoteSketch.exists_insertAll_eq_error hrun
    exact ⟨start, built, by decide, by decide, run⟩
  case sum =>
    have hrun : (do
        let start ← VoteSketch.ofBudget 48 4 1
        return (Estimator.insertAll start [⟨1, 1⟩, ⟨2, 1073741824⟩]).map fun _ => () :
          Outcome (Checked Unit))
          = .ok (.error (.overflow .add)) := by decide +kernel
    obtain ⟨start, built, run⟩ := VoteSketch.exists_insertAll_eq_error hrun
    exact ⟨start, built, by decide, by decide, run⟩
  case tracker =>
    have hbuilt : (do return (← VoteTracker.ofBudget 48 1).rows.length : Outcome Nat) = .ok 4 := by
      decide +kernel
    obtain ⟨start, built, -⟩ := Checked.bind_eq_ok.mp hbuilt
    refine ⟨start, built, by rw [List.length_append, List.length_replicate]; decide, ?_⟩
    -- with one bucket in each row all keys share it
    obtain ⟨length, -, -, hlength, rfl⟩ := exists_length_of_budget built
    obtain rfl : length = 1 := hlength
    refine VoteTracker.insertAll_of_fresh (by decide) (Row.get_eq_ok_iff.mpr ?_)
      (by decide) ?_ 67108863
      (by decide) (by decide)
    · simp [Row.fill, Row.position, Row.length, Nat.mod_one]
    · simp [Row.fill, Row.position, Row.length, Nat.mod_one]

end HeavyHitters
