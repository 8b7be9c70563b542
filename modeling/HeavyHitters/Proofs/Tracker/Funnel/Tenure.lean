import HeavyHitters.Proofs.Tracker.Pipelines

/-!
# The tenure of a resident

A cell of a vote stage keeps two numbers of its resident, the count and the votes.  Both are
determined by what was offered to the cell since the resident was admitted: the count is the weight
offered for the resident's key, whatever the number of offers; the votes are `lambda` for each offer
of that key, less one for each offer of another key, whatever their weight.

* `Defended.Offered` are the four things that an offer to a cell can come to.
* `Stage.Admits` says of a run and one more unit that the unit moves into a cell, and
  `Stage.Tenure` divides a run at the last such unit: the unit that was admitted and what
  was offered to the stage since.
* `Stage.Incumbent` is what a tenure makes of a cell, with one lemma for each
  thing that an offer can come to.
* `Stage.Recorded` is the invariant of a run, and `Stage.recorded_of_offerAll` says that it holds.
* `Stage.Incumbency` is the law of a vote stage, what an occupied cell holds and when the next offer
  of another key evicts the resident, and `Stage.tenures_decide` says that it holds after any run.
-/

namespace HeavyHitters

/-! ## Cells -/

namespace Defended

variable {lambda : Int} {unit : Entry} {old new : Defended} {given : Option Entry}

/-- What an offer to a defended cell can come to: the cell afterwards and the unit that goes on. -/
inductive Offered (lambda : Int) (unit : Entry) (old : Defended) :
    Defended → Option Entry → Prop where
  /-- The unit moves into an empty cell. -/
  | settled (hempty : old.resident.isEmpty = true) : Offered lambda unit old ⟨unit, lambda⟩ none
  /-- The unit is added to the resident of its key. -/
  | merged (hempty : old.resident.isEmpty = false) (hkey : old.resident.key = unit.key)
      (hfits : Count.Fits (old.votes + lambda)) :
      Offered lambda unit old ⟨⟨old.resident.key, old.resident.count + unit.count⟩,
        old.votes + lambda⟩ none
  /-- The unit takes the last vote of another key's resident, and its place. -/
  | evicted (hempty : old.resident.isEmpty = false) (hkey : old.resident.key ≠ unit.key)
      (hspent : old.votes ≤ 1) :
      Offered lambda unit old ⟨unit, lambda⟩ (some old.resident)
  /-- The unit takes a vote of another key's resident and goes on. -/
  | passed (hempty : old.resident.isEmpty = false) (hkey : old.resident.key ≠ unit.key)
      (hleft : 1 < old.votes) :
      Offered lambda unit old ⟨old.resident, old.votes - 1⟩ (some unit)

theorem offered_of_offer (h : old.offer lambda unit = .ok (new, given)) :
    Offered lambda unit old new given := by
  unfold offer at h
  cases hempty : old.resident.isEmpty with
  | true =>
    rw [hempty, if_pos rfl] at h
    obtain ⟨rfl, rfl⟩ := Prod.mk.inj (Checked.pure_eq_ok.mp h)
    exact .settled hempty
  | false =>
    rw [hempty, if_neg Bool.false_ne_true] at h
    split at h
    · next hkey =>
      obtain ⟨count, hcount, h⟩ := Checked.bind_eq_ok.mp h
      obtain ⟨votes, hvotes, h⟩ := Checked.bind_eq_ok.mp h
      obtain ⟨rfl, rfl⟩ := Prod.mk.inj (Checked.pure_eq_ok.mp h)
      obtain ⟨-, rfl⟩ := Count.plus_eq_ok_iff.mp hcount
      obtain ⟨hfits, rfl⟩ := Count.plus_eq_ok_iff.mp hvotes
      exact .merged hempty hkey hfits
    · next hkey =>
      obtain ⟨votes, hvotes, h⟩ := Checked.bind_eq_ok.mp h
      obtain ⟨-, rfl⟩ := Count.minus_eq_ok_iff.mp hvotes
      split at h
      · obtain ⟨rfl, rfl⟩ := Prod.mk.inj (Checked.pure_eq_ok.mp h)
        exact .evicted hempty hkey (by omega)
      · obtain ⟨rfl, rfl⟩ := Prod.mk.inj (Checked.pure_eq_ok.mp h)
        exact .passed hempty hkey (by omega)

/-- A unit of another key takes a vote, and the place with the last one, whatever its weight. -/
theorem offer_of_key_ne (hempty : old.resident.isEmpty = false) (hkey : old.resident.key ≠ unit.key)
    (hpos : 1 ≤ old.votes) (hfits : old.votes ≤ Count.greatest) :
    old.offer lambda unit = .ok (if old.votes = 1 then (⟨unit, lambda⟩, some old.resident)
      else (⟨old.resident, old.votes - 1⟩, some unit)) := by
  have hminus : Count.minus old.votes 1 = .ok (old.votes - 1) :=
    Count.narrow_of_fits (Count.fits_of_bounds (by unfold Count.greatest at *; omega) (by omega))
  rw [offer, hempty, if_neg Bool.false_ne_true, if_neg hkey, Checked.bind_of_eq_ok hminus]
  by_cases hlast : old.votes = 1
  · rw [if_pos hlast, if_pos (by omega)]
    rfl
  · rw [if_neg hlast, if_neg (by omega)]
    rfl

end Defended

namespace Stage

variable {lambda : Int} {start stage stage' : Stage} {row : Row Defended} {i : Nat}
  {past since : List Entry} {admitted unit : Entry} {given : Option Entry} {cell : Defended}

/-! ## Runs of offers -/

/-- The position of a key's bucket. -/
def position : Stage → Key → Nat
  | .vote _ row => row.position
  | .basic row => row.position

/-- The resident at a position of a stage. -/
def residentAt : Stage → Nat → Option Entry
  | .vote _ row => row.residentAt
  | .basic row => row.residentAt

/-- Offers units in order and drops what goes on. -/
def offerAll (stage : Stage) (units : List Entry) : Checked Stage :=
  units.foldlM (fun stage unit => Prod.fst <$> stage.offer unit) stage

theorem offerAll_concat (run : start.offerAll past = .ok stage)
    (ho : stage.offer unit = .ok (stage', given)) :
    start.offerAll (past ++ [unit]) = .ok stage' := by
  rw [offerAll, List.foldlM_append]
  refine Checked.bind_eq_ok.mpr ⟨stage, run, ?_⟩
  rw [List.foldlM_cons]
  exact Checked.bind_eq_ok.mpr ⟨stage', Checked.map_eq_ok.mpr ⟨_, ho, rfl⟩, rfl⟩

theorem offer_vote_eq_ok (ho : (Stage.vote lambda row).offer unit = .ok (stage', given)) :
    ∃ old new, row.get unit.key = .ok old ∧ old.offer lambda unit = .ok (new, given) ∧
      stage' = .vote lambda (row.set unit.key new) := by
  obtain ⟨⟨row', next⟩, hmodify, ho⟩ := Checked.bind_eq_ok.mp ho
  obtain ⟨rfl, rfl⟩ := Prod.mk.inj (Checked.pure_eq_ok.mp ho)
  obtain ⟨old, new, hget, hoffer, rfl⟩ := Row.modify_eq_ok_iff.mp hmodify
  exact ⟨old, new, hget, hoffer, rfl⟩

/-! ## Tenures -/

/-- After a run the unit moves into the cell at a position: it is offered there, and what
goes on is what the cell held. -/
def Admits (start : Stage) (i : Nat) (past : List Entry) (unit : Entry) : Prop :=
  ∃ stage stage', start.offerAll past = .ok stage ∧ stage.position unit.key = i ∧
    stage.offer unit = .ok (stage', stage.residentAt i)

/-- The last unit of a run that was admitted to a position, and what was
offered to the stage since. -/
inductive Tenure (start : Stage) (i : Nat) : List Entry → Entry → List Entry → Prop where
  | begins {past : List Entry} {unit : Entry} (h : Admits start i past unit) :
      Tenure start i (past ++ [unit]) unit []
  | lasts {past since : List Entry} {admitted unit : Entry} (h : Tenure start i past admitted since)
      (hother : ¬Admits start i past unit) :
        Tenure start i (past ++ [unit]) admitted (since ++ [unit])

/-- A tenure divides the run. -/
theorem Tenure.exists_before (h : Tenure start i past admitted since) :
    ∃ before, past = before ++ admitted :: since := by
  induction h with
  | @begins past unit => exact ⟨past, rfl⟩
  | @lasts past since admitted unit _ _ ih =>
    obtain ⟨before, rfl⟩ := ih
    exact ⟨before, by rw [List.append_assoc, List.cons_append]⟩

/-- At the end of a run it is seen from the next offer if the unit is admitted. -/
theorem admits_iff (run : start.offerAll past = .ok stage)
    (ho : stage.offer unit = .ok (stage', given)) :
    Admits start i past unit ↔ stage.position unit.key = i ∧ given = stage.residentAt i := by
  constructor
  · rintro ⟨s, s', hs, hposition, hoffer⟩
    obtain rfl := Except.ok.inj (run.symm.trans hs)
    exact ⟨hposition, (Prod.mk.inj (Except.ok.inj (ho.symm.trans hoffer))).2⟩
  · rintro ⟨hposition, rfl⟩
    exact ⟨stage, stage', run, hposition, ho⟩

/-- The offers of the key that was admitted. -/
def hits (admitted : Entry) (since : List Entry) : Nat :=
  since.countP fun unit => unit.key == admitted.key

/-- The offers of other keys to the cell of the key that was admitted. -/
def misses (start : Stage) (admitted : Entry) (since : List Entry) : Nat :=
  since.countP fun unit =>
    start.position unit.key == start.position admitted.key && unit.key != admitted.key

/-- What a tenure makes of a cell. -/
structure Incumbent (lambda : Int) (start : Stage) (i : Nat) (admitted : Entry) (since : List Entry)
    (cell : Defended) : Prop where
  position_eq : start.position admitted.key = i
  resident_eq : cell.resident = ⟨admitted.key, weightOf (· == admitted.key) (admitted :: since)⟩
  count_pos : 1 ≤ cell.resident.count
  votes_eq : cell.votes = lambda * (1 + hits admitted since) - misses start admitted since
  votes_pos : 1 ≤ cell.votes
  votes_le : cell.votes ≤ Count.greatest

/-- A unit that was just admitted has `lambda` votes. -/
theorem incumbent_of_unit (hlambda : 0 < lambda) (hfits : lambda ≤ Count.greatest)
    (hunit : 1 ≤ unit.count) (hposition : start.position unit.key = i) :
    Incumbent lambda start i unit [] ⟨unit, lambda⟩ where
  position_eq := hposition
  resident_eq := by simp
  count_pos := hunit
  votes_eq := by simp [hits, misses]
  votes_pos := by dsimp only; omega
  votes_le := hfits

namespace Incumbent

theorem key_eq (h : Incumbent lambda start i admitted since cell) :
    cell.resident.key = admitted.key := by
  rw [h.resident_eq]

/-- What is offered to other cells does not matter. -/
theorem elsewhere (h : Incumbent lambda start i admitted since cell)
    (hposition : start.position unit.key ≠ i) :
    Incumbent lambda start i admitted (since ++ [unit]) cell := by
  have hkey : unit.key ≠ admitted.key := fun hkey => hposition (hkey ▸ h.position_eq)
  refine ⟨h.position_eq, ?_, h.count_pos, ?_, h.votes_pos, h.votes_le⟩
  · rw [h.resident_eq]
    simp [hkey]
  · rw [h.votes_eq]
    simp [hits, misses, hkey, h.position_eq, hposition]

/-- A unit of its key adds its weight to the incumbent and `lambda` to the votes. -/
theorem merged (h : Incumbent lambda start i admitted since cell) (hlambda : 0 < lambda)
    (hunit : 1 ≤ unit.count) (hkey : cell.resident.key = unit.key)
    (hfits : Count.Fits (cell.votes + lambda)) : Incumbent lambda start i admitted (since ++ [unit])
      ⟨⟨cell.resident.key, cell.resident.count + unit.count⟩, cell.votes + lambda⟩ := by
  have hown : unit.key = admitted.key := hkey.symm.trans h.key_eq
  refine ⟨h.position_eq, ?_, ?_, ?_, ?_, hfits.2⟩
  · rw [h.resident_eq]
    simp [hown, Int.add_assoc]
  · have := h.count_pos
    show 1 ≤ cell.resident.count + unit.count
    omega
  · have hhits : hits admitted (since ++ [unit]) = hits admitted since + 1 := by simp [hits, hown]
    have hmisses : misses start admitted (since ++ [unit]) = misses start admitted since := by
      simp [misses, hown]
    show cell.votes + lambda = _
    rw [hhits, hmisses, h.votes_eq, Int.natCast_succ, ← Int.add_assoc 1,
      Int.mul_add lambda _ 1, Int.mul_one]
    omega
  · have := h.votes_pos
    show 1 ≤ cell.votes + lambda
    omega

/-- A unit of another key that goes on takes a vote. -/
theorem passed (h : Incumbent lambda start i admitted since cell)
    (hposition : start.position unit.key = i) (hkey : cell.resident.key ≠ unit.key)
    (hleft : 1 < cell.votes) :
    Incumbent lambda start i admitted (since ++ [unit]) ⟨cell.resident, cell.votes - 1⟩ := by
  have hother : unit.key ≠ admitted.key := fun hown => hkey (h.key_eq.trans hown.symm)
  refine ⟨h.position_eq, ?_, h.count_pos, ?_, ?_, ?_⟩
  · show cell.resident = _
    rw [h.resident_eq]
    simp [hother]
  · have hhits : hits admitted (since ++ [unit]) = hits admitted since := by simp [hits, hother]
    have hmisses : misses start admitted (since ++ [unit]) = misses start admitted since + 1 := by
      simp [misses, hother, h.position_eq, hposition]
    show cell.votes - 1 = _
    rw [hhits, hmisses, h.votes_eq, Int.natCast_succ]
    omega
  · show 1 ≤ cell.votes - 1
    omega
  · have := h.votes_le
    show cell.votes - 1 ≤ _
    omega

end Incumbent

/-! ## The invariant of a run -/

/-- A run has led to a row of cells, and each that is occupied is that of an incumbent. -/
structure Recorded (lambda : Int) (start : Stage) (past : List Entry)
    (row : Row Defended) : Prop where
  run : start.offerAll past = .ok (.vote lambda row)
  length_pos : 0 < row.length
  position_eq : ∀ key, row.position key = start.position key
  incumbent : ∀ i cell, row.cells[i]? = some cell → cell.resident.isEmpty = true ∨
    ∃ admitted since, Tenure start i past admitted since ∧
    Incumbent lambda start i admitted since cell

/-- **An offer keeps the record.**  At the cell that it is made to, each thing that it can come to
either begins a tenure or lets the one there last. -/
theorem Recorded.offer (h : Recorded lambda start past row) (hlambda : 0 < lambda)
    (hfits : lambda ≤ Count.greatest) (hunit : 1 ≤ unit.count)
    (ho : (Stage.vote lambda row).offer unit = .ok (stage', given)) :
    ∃ row', stage' = .vote lambda row' ∧ Recorded lambda start (past ++ [unit]) row' := by
  have hadmits := fun i => admits_iff (i := i) h.run ho
  obtain ⟨old, new, hget, hoffer, rfl⟩ := offer_vote_eq_ok ho
  have hat := Row.residentAt_of_get hget
  have hposition := h.position_eq unit.key
  refine ⟨_, rfl, offerAll_concat h.run ho, by rw [Row.length_set]; exact h.length_pos,
    fun key => (Row.position_set row unit.key key new).trans (h.position_eq key),
    fun i cell hcell => ?_⟩
  change (row.cells.setIfInBounds (row.position unit.key) new)[i]? = some cell at hcell
  rw [Array.getElem?_setIfInBounds] at hcell
  by_cases hi : row.position unit.key = i
  case neg =>
    rw [if_neg hi] at hcell
    refine (h.incumbent i cell hcell).imp_right ?_
    rintro ⟨admitted, since, htenure, hincumbent⟩
    exact ⟨admitted, since ++ [unit], htenure.lasts fun ha => hi ((hadmits i).mp ha).1,
      hincumbent.elsewhere (hposition ▸ hi)⟩
  case pos =>
    subst hi
    rw [if_pos rfl, if_pos (row.position_lt unit.key h.length_pos)] at hcell
    obtain rfl := Option.some.inj hcell
    have hincumbent := h.incumbent _ old (Row.get_eq_ok_iff.mp hget)
    have hnew : Incumbent lambda start (row.position unit.key) unit [] ⟨unit, lambda⟩ :=
      incumbent_of_unit hlambda hfits hunit hposition.symm
    have hresident : old.resident.isEmpty = false →
        row.residentAt (row.position unit.key) = some old.resident :=
      fun hempty => hat.trans (if_neg (by simp [hempty]))
    cases Defended.offered_of_offer hoffer with
    | settled hempty =>
      have hnone : row.residentAt (row.position unit.key) = none := hat.trans (if_pos hempty)
      exact Or.inr ⟨unit, [], .begins ((hadmits _).mpr ⟨rfl, hnone.symm⟩), hnew⟩
    | merged hempty hkey hvotes =>
      obtain ⟨admitted, since, htenure, hincumbent⟩ := hincumbent.resolve_left (by simp [hempty])
      refine Or.inr ⟨admitted, since ++ [unit], htenure.lasts fun ha => ?_,
        hincumbent.merged hlambda hunit hkey hvotes⟩
      cases ((hadmits _).mp ha).2.trans (hresident hempty)
    | evicted hempty hkey hspent =>
      exact Or.inr ⟨unit, [], .begins ((hadmits _).mpr ⟨rfl, (hresident hempty).symm⟩), hnew⟩
    | passed hempty hkey hleft =>
      obtain ⟨admitted, since, htenure, hincumbent⟩ := hincumbent.resolve_left (by simp [hempty])
      refine Or.inr ⟨admitted, since ++ [unit], htenure.lasts fun ha => ?_,
        hincumbent.passed hposition.symm hkey hleft⟩
      exact hkey (congrArg Record.key
        (Option.some.inj (((hadmits _).mp ha).2.trans (hresident hempty)))).symm

/-- A new vote stage has a row of empty cells, of which nothing is recorded. -/
theorem recorded_of_ofKind {length : Nat} {hash : KeyHash} (hlength : 1 ≤ length)
    (built : ofKind (.vote lambda) length hash = .ok start) :
    ∃ row, start = .vote lambda row ∧ Recorded lambda start [] row := by
  obtain ⟨_, -, built⟩ := Checked.bind_eq_ok.mp built
  obtain rfl := Checked.pure_eq_ok.mp built
  refine ⟨_, rfl, rfl, by rw [Row.length_fill]; exact hlength, fun _ => rfl,
    fun i cell hcell => Or.inl ?_⟩
  obtain rfl := Array.eq_of_mem_replicate (Array.mem_of_getElem? hcell)
  rfl

theorem recorded_of_offerAll {length : Nat} {hash : KeyHash} (hlength : 1 ≤ length)
    (hlambda : 0 < lambda) (hfits : lambda ≤ Count.greatest)
    (built : ofKind (.vote lambda) length hash = .ok start) (hpast : ∀ unit ∈ past, 1 ≤ unit.count)
    (run : start.offerAll past = .ok stage) :
    ∃ row, stage = .vote lambda row ∧ Recorded lambda start past row := by
  refine @Checked.past_foldlM _ _ _ (fun past stage => ∃ row, stage = .vote lambda row ∧
    Recorded lambda start past row)
    (fun unit => 1 ≤ unit.count) _ ?_ [] past start stage
      (recorded_of_ofKind hlength built) hpast run
  rintro past _ stage' unit ⟨row, rfl, hrecorded⟩ hunit hstep
  obtain ⟨⟨stage', given⟩, ho, rfl⟩ := Checked.map_eq_ok.mp hstep
  exact hrecorded.offer hlambda hfits hunit ho

/-! ## The law of a vote stage -/

/-- What a resident holds of what was offered to its cell since it was admitted, and what the next
offer of another key makes of it. -/
structure Incumbency (lambda : Int) (start : Stage) (past : List Entry) (row : Row Defended)
    (i : Nat) (cell : Defended) (admitted : Entry) (since : List Entry) : Prop where
  tenure : Tenure start i past admitted since
  exists_before : ∃ before, past = before ++ admitted :: since
  /-- The count is the weight of all offers of the key, the one that was admitted included. -/
  resident_eq : cell.resident = ⟨admitted.key, weightOf (· == admitted.key) (admitted :: since)⟩
  votes_eq : cell.votes = lambda * (1 + hits admitted since) - misses start admitted since
  votes_pos : 1 ≤ cell.votes
  /-- An offer of another key that makes the misses equal to all votes given evicts the resident. -/
  evicts : ∀ unit, row.position unit.key = i → unit.key ≠ cell.resident.key →
    (misses start admitted since + 1 : Int) = lambda * (1 + hits admitted since) →
    (Stage.vote lambda row).offer unit
      = .ok (.vote lambda (row.set unit.key ⟨unit, lambda⟩), some cell.resident)
  /-- Any other offer of another key goes on as it is and leaves all
  residents, whatever its weight. -/
  withstands : ∀ unit, row.position unit.key = i → unit.key ≠ cell.resident.key →
    (misses start admitted since + 1 : Int) ≠ lambda * (1 + hits admitted since) →
    ∃ row', (Stage.vote lambda row).offer unit = .ok (.vote lambda row', some unit) ∧
      ∀ j, row'.residentAt j = row.residentAt j

theorem offer_vote_of_get {old new : Defended} (hget : row.get unit.key = .ok old)
    (hoffer : old.offer lambda unit = .ok (new, given)) :
    (Stage.vote lambda row).offer unit = .ok (.vote lambda (row.set unit.key new), given) := by
  rw [offer, Row.modify_eq_ok_iff.mpr ⟨old, new, hget, hoffer, rfl⟩]
  rfl

/-- A cell gets other votes without a change of the residents. -/
theorem residentAt_set_votes {old : Defended} {key : Key} (hpos : 0 < row.length)
    (hget : row.get key = .ok old) (votes : Int) (j : Nat) :
    (row.set key ⟨old.resident, votes⟩).residentAt j = row.residentAt j := by
  rw [Row.residentAt_set hpos]
  split
  · next hj => rw [hj, Row.residentAt_of_get hget]; rfl
  · rfl

theorem Recorded.incumbency (h : Recorded lambda start past row) (hcell : row.cells[i]? = some cell)
    (hempty : cell.resident.isEmpty = false) :
    ∃ admitted since, Incumbency lambda start past row i cell admitted since := by
  obtain ⟨admitted, since, htenure, hincumbent⟩ :=
    (h.incumbent i cell hcell).resolve_left (by simp [hempty])
  have hvotes := hincumbent.votes_eq
  have hvalue : ∀ unit : Entry, unit.key ≠ cell.resident.key → cell.offer lambda unit
      = .ok (if cell.votes = 1 then (⟨unit, lambda⟩, some cell.resident)
        else (⟨cell.resident, cell.votes - 1⟩, some unit)) := fun unit hkey =>
    Defended.offer_of_key_ne hempty hkey.symm hincumbent.votes_pos hincumbent.votes_le
  refine ⟨admitted, since, htenure, htenure.exists_before, hincumbent.resident_eq, hvotes,
    hincumbent.votes_pos, ?evicts, ?withstands⟩
  case evicts =>
    intro unit hposition hkey hspent
    have hget : row.get unit.key = .ok cell := Row.get_eq_ok_iff.mpr (hposition ▸ hcell)
    refine offer_vote_of_get hget ?_
    rw [hvalue unit hkey, if_pos (by omega)]
  case withstands =>
    intro unit hposition hkey hspent
    have hget : row.get unit.key = .ok cell := Row.get_eq_ok_iff.mpr (hposition ▸ hcell)
    refine ⟨row.set unit.key ⟨cell.resident, cell.votes - 1⟩, offer_vote_of_get hget ?_,
      residentAt_set_votes h.length_pos hget _⟩
    rw [hvalue unit hkey, if_neg (by omega)]

/--
**A vote stage evicts exactly when the votes are spent.**  After any run of offers, what an
occupied cell holds and when its resident is evicted is told by what was offered to the cell
since the resident was admitted.
-/
theorem tenures_decide (lambda : Int) (length : Nat) (hash : KeyHash)
    (start stage : Stage) (past : List Entry) (hlambda : 0 < lambda)
    (hfits : lambda ≤ Count.greatest) (hlength : 1 ≤ length)
    (built : ofKind (.vote lambda) length hash = .ok start) (hpast : ∀ unit ∈ past, 1 ≤ unit.count)
    (run : start.offerAll past = .ok stage) :
    ∃ row, stage = .vote lambda row ∧ ∀ (i : Nat) (cell : Defended), row.cells[i]? = some cell →
      cell.resident.isEmpty = false → ∃ admitted since,
      Incumbency lambda start past row i cell admitted since := by
  obtain ⟨row, rfl, hrecorded⟩ := recorded_of_offerAll hlength hlambda hfits built hpast run
  exact ⟨row, rfl, fun i cell hcell hempty => hrecorded.incumbency hcell hempty⟩

/-- One cell with two votes for an offer: the second key takes a vote, the third one the last vote
and the cell, and two offers of it weigh five. -/
theorem tenures_decide_one_cell :
    ∃ start stage : Stage, (0 : Int) < 2 ∧ (2 : Int) ≤ Count.greatest ∧ 1 ≤ 1 ∧
      ofKind (.vote 2) 1 (KeyHash.ofSeed 7) = .ok start ∧
      (∀ unit ∈ ([⟨1, 1⟩, ⟨2, 1⟩, ⟨3, 4⟩, ⟨3, 1⟩] : List Entry), 1 ≤ unit.count) ∧
      start.offerAll [⟨1, 1⟩, ⟨2, 1⟩, ⟨3, 4⟩, ⟨3, 1⟩] = .ok stage ∧
      ∃ row cell, stage = .vote 2 row ∧ row.cells[0]? = some cell ∧ cell.resident = ⟨3, 5⟩ ∧
        ∃ admitted since, Incumbency 2 start
        [⟨1, 1⟩, ⟨2, 1⟩, ⟨3, 4⟩, ⟨3, 1⟩] row 0 cell admitted since := by
  have hrun : (do
      let start ← ofKind (.vote 2) 1 (KeyHash.ofSeed 7)
      let stage ← start.offerAll [⟨1, 1⟩, ⟨2, 1⟩, ⟨3, 4⟩, ⟨3, 1⟩]
      return stage.residentAt 0 : Checked (Option Entry)) = .ok (some ⟨3, 5⟩) := by decide +kernel
  obtain ⟨start, built, hrun⟩ := Checked.bind_eq_ok.mp hrun
  obtain ⟨stage, run, hresident⟩ := Checked.bind_eq_ok.mp hrun
  have hpast : ∀ unit ∈ ([⟨1, 1⟩, ⟨2, 1⟩, ⟨3, 4⟩, ⟨3, 1⟩] : List Entry), 1 ≤ unit.count := by decide
  obtain ⟨row, rfl, hlaw⟩ :=
    tenures_decide 2 1 (KeyHash.ofSeed 7) start stage _ (by decide) (by decide) (by decide)
    built hpast run
  obtain ⟨cell, hcell, hres⟩ := Option.bind_eq_some_iff.mp (Checked.pure_eq_ok.mp hresident)
  obtain ⟨hcount, heq⟩ := Entry.resident_eq_some_iff.mp hres
  have hempty : cell.resident.isEmpty = false :=
    Bool.eq_false_iff.mpr (mt Record.isEmpty_iff.mp hcount)
  exact ⟨start, .vote 2
    row, by decide, by decide, by decide, built, hpast, run, row, cell, rfl, hcell, heq,
    hlaw 0 cell hcell hempty⟩

end Stage

end HeavyHitters
