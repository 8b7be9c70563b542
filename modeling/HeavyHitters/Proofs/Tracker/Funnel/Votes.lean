import HeavyHitters.Proofs.Tracker.Room
import Mathlib.Algebra.Order.Ring.Int

/-!
# How many votes fit a funnel

A unit of a resident's key adds its weight to the count of the cell and `lambda` to the votes,
whatever its weight.  As a unit weighs at least one, a resident never has more votes than
`lambda` times its count, and its count is part of what was inserted of its key.  So the
counts of a funnel fit as long as the number of keys does, while the votes overflow once a key
has come often enough for `lambda`.

* `Defended.Backed` is the invariant of a cell, and `Defended.Backed.exists_offer`
  says that an offer has a value.
* `Stage.Ready` is the invariant of a stage with room for what is yet to come;
  `Stage.Ready.exists_offer` and `Funnel.exists_cascade` say that a unit finds its way through such
  stages, `Funnel.exists_insertAll` that a run does.
* `Funnel.insertAll_replicate` says that a stage of votes goes no further.
* `Funnel.exists_insertAll_of_lambda_mul_le` is the bound for runs of a
  built funnel, from both sides.
* `Funnel.exists_overflowing_votes` are such runs: of two packets, and of the default layout.
-/

namespace HeavyHitters

variable {unit : Entry} {bound : Key → Int}

/-! ## Cells -/

namespace Defended

variable {lambda : Int} {cell : Defended} {resident : Entry} {votes : Int}

/-- A cell in which a resident has a vote, and no more than `lambda` of them
for each unit of its weight. -/
def Backed (lambda : Int) (cell : Defended) : Prop :=
  ∀ e ∈ Cell.resident cell, 1 ≤ cell.votes ∧ cell.votes ≤ lambda * e.count

theorem backed_of_bounds (hcount : 1 ≤ resident.count) (hvotes : 1 ≤ votes)
    (hle : votes ≤ lambda * resident.count) : Backed lambda ⟨resident, votes⟩ := by
  intro e he
  have hres : Cell.resident (⟨resident, votes⟩ : Defended) = some resident :=
    Entry.resident_of_pos hcount
  obtain rfl := Option.some.inj (hres.symm.trans he)
  exact ⟨hvotes, hle⟩

/-- A unit that moves in has `lambda` votes. -/
theorem backed_of_unit (hlambda : 1 ≤ lambda) (hunit : 1 ≤ unit.count) :
    Backed lambda ⟨unit, lambda⟩ :=
  backed_of_bounds hunit hlambda (le_mul_of_one_le_right (by omega) hunit)

/-- A unit of its key adds `lambda` votes to a resident and at least one to its count. -/
theorem exists_offer_of_key_eq (hlambda : 1 ≤ lambda) (hunit : 1 ≤ unit.count)
    (hcount : 1 ≤ resident.count) (hvotes : 1 ≤ votes) (hle : votes ≤ lambda * resident.count)
    (hkey : resident.key = unit.key)
    (hroom : lambda * (resident.count + unit.count) ≤ Count.greatest) :
    ∃ cell' given, offer lambda ⟨resident, votes⟩ unit = .ok (cell', given) ∧
    cell'.Backed lambda := by
  have hempty : ¬resident.isEmpty = true := mt Record.isEmpty_iff.mp (by omega)
  have hraised : lambda ≤ lambda * unit.count := le_mul_of_one_le_right (by omega) hunit
  have hgrown : votes + lambda ≤ lambda * (resident.count + unit.count) := by
    rw [mul_add]
    omega
  have hsmaller : resident.count + unit.count ≤ lambda * (resident.count + unit.count) :=
    le_mul_of_one_le_left (by omega) hlambda
  have hplus : Count.plus resident.count unit.count = .ok (resident.count + unit.count) :=
    Count.narrow_of_fits (Count.fits_of_bounds (by omega) (by omega))
  have hraise : Count.plus votes lambda = .ok (votes + lambda) :=
    Count.narrow_of_fits (Count.fits_of_bounds (by omega) (by omega))
  refine ⟨⟨⟨resident.key, resident.count + unit.count⟩, votes + lambda⟩, none, ?_, ?_⟩
  · rw [offer, if_neg hempty, if_pos hkey, hplus]
    simp only [bind, Except.bind, hraise]
    rfl
  · exact backed_of_bounds (by dsimp only; omega) (by omega) hgrown

/-- A unit of another key takes a vote, and with the last one the place of the resident. -/
theorem exists_offer_of_key_ne (hlambda : 1 ≤ lambda) (hunit : 1 ≤ unit.count)
    (hcount : 1 ≤ resident.count) (hvotes : 1 ≤ votes) (hle : votes ≤ lambda * resident.count)
    (hkey : resident.key ≠ unit.key) (hroom : lambda * resident.count ≤ Count.greatest) :
    ∃ cell' given, offer lambda ⟨resident, votes⟩ unit = .ok (cell', given) ∧
    cell'.Backed lambda := by
  have hempty : ¬resident.isEmpty = true := mt Record.isEmpty_iff.mp (by omega)
  have hminus : Count.minus votes 1 = .ok (votes - 1) :=
    Count.narrow_of_fits (Count.fits_of_bounds (by unfold Count.greatest at *; omega) (by omega))
  rw [offer, if_neg hempty, if_neg hkey, hminus]
  simp only [bind, Except.bind]
  by_cases hspent : votes - 1 ≤ 0
  · exact ⟨_, _, if_pos hspent, backed_of_unit hlambda hunit⟩
  · exact ⟨_, _, if_neg hspent, backed_of_bounds hcount (by omega) (by omega)⟩

/-- **An offer to a backed cell has a value**, if a counter can hold
`lambda` times the bound of a key. -/
theorem Backed.exists_offer (h : cell.Backed lambda) (hlambda : 1 ≤ lambda) (hunit : 1 ≤ unit.count)
    (hwithin : Cell.Within bound unit cell) (hroom : ∀ key, lambda * bound key ≤ Count.greatest) :
    ∃ cell' given, cell.offer lambda unit = .ok (cell', given) ∧ cell'.Backed lambda := by
  obtain ⟨resident, votes⟩ := cell
  by_cases hempty : resident.isEmpty = true
  · exact ⟨⟨unit, lambda⟩, none, if_pos hempty, backed_of_unit hlambda hunit⟩
  have hres : Cell.resident (⟨resident, votes⟩ : Defended) = some resident := if_neg hempty
  obtain ⟨hvotes, hle⟩ := h resident hres
  obtain ⟨hcount, hbound⟩ := hwithin resident hres
  have hlimit : lambda * weightOf (· == resident.key) [resident, unit] ≤ Count.greatest :=
    Int.le_trans (Int.mul_le_mul_of_nonneg_left hbound (by omega)) (hroom resident.key)
  by_cases hkey : resident.key = unit.key
  · have hweight : weightOf (· == resident.key)
      [resident, unit] = resident.count + unit.count := by simp [hkey]
    rw [hweight] at hlimit
    exact exists_offer_of_key_eq hlambda hunit hcount hvotes hle hkey hlimit
  · have hweight : weightOf (· == resident.key) [resident, unit] = resident.count := by
      simp [Ne.symm hkey]
    rw [hweight] at hlimit
    exact exists_offer_of_key_ne hlambda hunit hcount hvotes hle hkey hlimit

end Defended

/-! ## Stages -/

/-- What a unit of weight one adds to the greater of the two counters of a cell. -/
def StageKind.raise : StageKind → Int
  | .vote lambda => lambda
  | .basic => 1

namespace Stage

/-- The rule of admission of a stage. -/
def kind : Stage → StageKind
  | .vote lambda _ => .vote lambda
  | .basic _ => .basic

/-- The cells of a vote stage are backed. -/
def Backed : Stage → Prop
  | .vote lambda row => 1 ≤ lambda ∧ ∀ cell ∈ row.cells, cell.Backed lambda
  | .basic _ => True

/-- A stage in good order, the counters of which can hold what a
weight of `bound` raises them to. -/
structure Ready (bound : Key → Int) (stage : Stage) : Prop where
  placed : stage.Placed
  backed : stage.Backed
  room : ∀ key, stage.kind.raise * bound key ≤ Count.greatest

variable {stage : Stage}

/-- **An offer to a ready stage has a value**, if the stage holds of each key no more than the bound
together with the unit, and the stage stays ready. -/
theorem Ready.exists_offer (h : stage.Ready bound) (hunit : 1 ≤ unit.count)
    (hbound : ∀ key, weightOf (· == key) stage.residents + weightOf (· == key) [unit] ≤ bound key) :
    ∃ stage' given, stage.offer unit = .ok (stage', given) ∧ stage'.Ready bound := by
  cases stage with
  | vote lambda row =>
    obtain ⟨hrow, ⟨hlambda, hbacked⟩, hroom⟩ := h
    obtain ⟨row', given, hmodify, hrow'⟩ := Row.Placed.exists_modify hrow hbacked hbound
      fun cell hcell hwithin => hcell.exists_offer hlambda hunit hwithin hroom
    have hstage : (Stage.vote lambda row).offer unit = .ok (.vote lambda row', given) := by
      rw [offer, hmodify]
      rfl
    exact ⟨_, given, hstage, (Placed.offer hrow hunit hstage).1, ⟨hlambda, hrow'⟩, hroom⟩
  | basic row =>
    obtain ⟨hrow, -, hroom⟩ := h
    simp only [kind, StageKind.raise, Int.one_mul] at hroom
    obtain ⟨row', given, hmodify, hrow', -⟩ := Row.Placed.exists_keepHeavier hrow hroom hunit hbound
    have hstage : (Stage.basic row).offer unit = .ok (.basic row', given) := by
      rw [offer, hmodify]
      rfl
    exact ⟨_, given, hstage, hrow', trivial, by simpa [kind, StageKind.raise] using hroom⟩

/-- A new stage is ready. -/
theorem ready_of_ofKind {kind : StageKind} {length : Nat} {hash : KeyHash} (hlength : length ≠ 0)
    (hlambda : ∀ lambda, kind = .vote lambda → 1 ≤ lambda)
    (hroom : ∀ key, kind.raise * bound key ≤ Count.greatest)
    (built : ofKind kind length hash = .ok stage) : stage.Ready bound := by
  have hplaced := (fresh_of_ofKind hlength built).1
  obtain ⟨_, -, built⟩ := Checked.bind_eq_ok.mp built
  cases kind with
  | vote lambda =>
    obtain rfl := Checked.pure_eq_ok.mp built
    refine ⟨hplaced, ⟨hlambda lambda rfl, fun cell hcell => ?_⟩, hroom⟩
    rw [Array.eq_of_mem_replicate hcell]
    rintro e ⟨⟩
  | basic =>
    obtain rfl := Checked.pure_eq_ok.mp built
    exact ⟨hplaced, trivial, hroom⟩

end Stage

/-! ## Runs below the bound -/

namespace Funnel

/-- **A unit finds its way through ready stages**, if they hold of each key no more than the
bound together with the unit. -/
theorem exists_cascade {stages : List Stage} {unit : Entry}
    (h : ∀ stage ∈ stages, stage.Ready bound) (hunit : 1 ≤ unit.count) (hbound : ∀ key,
      weightOf (· == key) (stages.flatMap Stage.residents) +
        weightOf (· == key) [unit] ≤ bound key) :
    ∃ stages' out, cascade Stage.offer stages unit = .ok (stages', out) ∧
      ∀ stage ∈ stages', stage.Ready bound := by
  refine HeavyHitters.exists_cascade (fun _ hstage => hstage.placed.positive) ?_ h hunit hbound
  intro stage unit hstage hunit hbound
  obtain ⟨stage', given, hoffer, hstage'⟩ := hstage.exists_offer hunit hbound
  exact ⟨stage', given, hoffer, hstage', (hstage.placed.offer hunit hoffer).2⟩

/-- A run through ready stages, if what they hold of each key and what is yet to come
of it are within the bound. -/
theorem exists_insertAll {t : Funnel} {keys : List Key} (h : ∀ stage ∈ t.stages, stage.Ready bound)
    (hbound : ∀ key, weightOf (· == key) t.residents + keys.count key ≤ bound key) :
    ∃ t' outs, Tracker.insertAll t keys = .ok (t', outs) := by
  refine conserves.exists_insertAll (fun t => ∀ stage ∈ t.stages, stage.Ready bound) ?_
    (fun stage hs => (h stage hs).placed) h hbound
  intro t key _ hready hroom
  obtain ⟨stages, out, hcascade, hready'⟩ :=
    @exists_cascade _ _ ⟨key, 1⟩ hready (Int.le_refl 1) hroom
  refine ⟨⟨stages⟩, out, ?_, hready'⟩
  show t.insert key = _
  rw [insert, hcascade]
  rfl

theorem one_le_of_checkVotes {layout : List StageKind}
    (h : checkVotes layout = .ok ()) {lambda : Int} (hmem : .vote lambda ∈ layout) :
    1 ≤ lambda := by
  induction layout with
  | nil => cases hmem
  | cons kind rest ih =>
    cases kind with
    | basic =>
      rcases List.mem_cons.mp hmem with hmem | hmem
      · cases hmem
      · exact ih h hmem
    | vote lambda' =>
      rw [checkVotes] at h
      split at h
      · cases h
      · rcases List.mem_cons.mp hmem with hmem | hmem
        · cases hmem
          omega
        · exact ih h hmem

/-- The stages of an accepted layout are ready for any weight that they all have room for. -/
theorem ready_of_ofLayout {memory : Nat} {layout : List StageKind} {ratio : Float}
    {seed : UInt64} {t : Funnel}
    (hroom : ∀ kind ∈ layout, ∀ key, kind.raise * bound key ≤ Count.greatest)
    (built : ofLayout memory layout ratio seed = .ok t) :
    ∀ stage ∈ t.stages, stage.Ready bound := by
  obtain ⟨hvotes, length, built⟩ := exists_of_ofLayout built
  refine forall_of_buildStages (fun kind hkind _ _ _ hlength => ?_) built
  refine Stage.ready_of_ofKind hlength (fun lambda hlambda => ?_) (hroom kind hkind)
  exact one_le_of_checkVotes hvotes (hlambda ▸ hkind)

/-! ## Runs above the bound -/

section Overflow

variable {lambda : Int} {row : Row Defended} {rest : List Stage} {key : Key} {count : Int}

/-- A resident takes a unit of its key in while its votes fit, and else
one of the two sums overflows. -/
theorem insert_of_holder (hlambda : 1 ≤ lambda) (hcount : 1 ≤ count)
    (hget : row.get key = .ok ⟨⟨key, count⟩, lambda * count⟩) :
    insert ⟨.vote lambda row :: rest⟩ key =
      if lambda * (count + 1) ≤ Count.greatest then
        .ok (⟨.vote lambda (row.set key ⟨⟨key, count + 1⟩, lambda * (count + 1)⟩) :: rest⟩, none)
      else .error (.overflow .add) := by
  have hcell := Row.get_eq_ok_iff.mp hget
  have hempty : ¬(⟨key, count⟩ : Entry).isEmpty = true :=
    mt Record.isEmpty_iff.mp (by dsimp only; omega)
  have hgrown : lambda * count + lambda = lambda * (count + 1) := (mul_add_one lambda count).symm
  have hvotes : Count.plus (lambda * count) lambda = Count.narrow .add (lambda * (count + 1)) := by
    rw [Count.plus, hgrown]
  rw [insert, cascade, Stage.offer, Row.modify]
  simp only [hcell, Defended.offer, if_neg hempty, hvotes]
  by_cases hfits : lambda * (count + 1) ≤ Count.greatest
  · have hle : count + 1 ≤ lambda * (count + 1) := le_mul_of_one_le_left (by omega) hlambda
    have hplus : Count.plus count 1 = .ok (count + 1) :=
      Count.narrow_of_fits (Count.fits_of_bounds (by omega) (by omega))
    rw [if_pos hfits, hplus, Count.narrow_of_fits (Count.fits_of_bounds (by omega) hfits)]
    rfl
  · rw [if_neg hfits, Count.narrow_of_greatest_lt (by omega)]
    by_cases hsum : Count.Fits (count + 1)
    · rw [show Count.plus count 1 = _ from Count.narrow_of_fits hsum]
      rfl
    · rw [show Count.plus count 1 = _ from if_neg hsum]
      rfl

theorem insertAll_of_holder (hpos : 0 < row.length) (hlambda : 1 ≤ lambda) (hcount : 1 ≤ count)
    (hget : row.get key = .ok ⟨⟨key, count⟩, lambda * count⟩)
    (hfits : lambda * count ≤ Count.greatest) (more : Nat)
    (hlimit : Count.greatest < lambda * (count + more)) :
    Tracker.insertAll (⟨.vote lambda row :: rest⟩ : Funnel) (List.replicate more key)
      = .error (.overflow .add) := by
  induction more generalizing row count with
  | zero =>
    rw [Int.natCast_zero, Int.add_zero] at hlimit
    omega
  | succ more ih =>
    rw [List.replicate_succ, Tracker.insertAll]
    change (insert ⟨.vote lambda row :: rest⟩ key >>= _) = _
    rw [insert_of_holder hlambda hcount hget]
    by_cases hnext : lambda * (count + 1) ≤ Count.greatest
    · have hset : (row.set key ⟨⟨key, count + 1⟩, lambda * (count + 1)⟩).get key
          = .ok ⟨⟨key, count + 1⟩, lambda * (count + 1)⟩ := by rw [Row.get_set hpos, if_pos rfl]
      have hrest := ih (by rwa [Row.length_set]) (by omega) hset hnext
        (by rwa [Nat.cast_succ, Int.add_comm (more : Int), ← Int.add_assoc] at hlimit)
      rw [if_pos hnext]
      simp only [bind, Except.bind, hrest]
    · rw [if_neg hnext]
      rfl

/-- **A first stage of votes goes no further**: a key that comes so often that its
votes do not fit overflows them. -/
theorem insertAll_replicate {memory : Nat} {layout : List StageKind} {ratio : Float}
    {seed : UInt64} {t : Funnel}
    (built : ofLayout memory (.vote lambda :: layout) ratio seed = .ok t)
    (hfits : lambda ≤ Count.greatest) (key : Key) {n : Nat} (hlimit : Count.greatest < lambda * n) :
    Tracker.insertAll t (List.replicate n key) = .error (.overflow .add) := by
  obtain ⟨hvotes, length, built⟩ := exists_of_ofLayout built
  have hlambda : 1 ≤ lambda := one_le_of_checkVotes hvotes List.mem_cons_self
  obtain ⟨stage, others, -, hlength, hstage, -, hstages⟩ := exists_of_buildStages_cons built
  generalize KeyHash.ofSeed _ = hash at hstage
  obtain ⟨_, -, hstage⟩ := Checked.bind_eq_ok.mp hstage
  obtain rfl := Checked.pure_eq_ok.mp hstage
  obtain ⟨stages⟩ := t
  obtain rfl : stages = _ := hstages
  have hpos : 0 < (Row.fill length Defended.empty hash).length := by rw [Row.length_fill]; omega
  cases n with
  | zero =>
    rw [Int.natCast_zero, Int.mul_zero] at hlimit
    exact absurd hlimit (by decide)
  | succ n =>
    -- the first unit moves in with `lambda` votes
    obtain ⟨cell, hget⟩ := (Row.fill length Defended.empty hash).exists_get_eq_ok key hpos
    have hcell := Row.get_eq_ok_iff.mp hget
    obtain rfl : cell = Defended.empty := Array.eq_of_mem_replicate (Row.mem_cells_of_get hget)
    have hinsert : insert ⟨.vote lambda (Row.fill length Defended.empty hash) :: others⟩ key
        = .ok (⟨.vote lambda ((Row.fill length Defended.empty hash).set key ⟨⟨key, 1⟩, lambda⟩)
          :: others⟩, none) := by
      rw [insert, cascade, Stage.offer, Row.modify]
      simp only [hcell]
      rfl
    have hrest := @insertAll_of_holder lambda
      ((Row.fill length Defended.empty hash).set key ⟨⟨key, 1⟩, lambda⟩) others
      key 1 (by rwa [Row.length_set]) hlambda (Int.le_refl 1)
        (by rw [Row.get_set hpos, if_pos rfl, Int.mul_one])
      (by rwa [Int.mul_one]) n (by rwa [Nat.cast_succ, Int.add_comm (n : Int)] at hlimit)
    rw [List.replicate_succ, Tracker.insertAll]
    change (insert _ key >>= _) = _
    rw [hinsert]
    simp only [bind, Except.bind, hrest]

end Overflow

/--
**Nothing overflows while every key comes so seldom that its votes fit in every stage**: if `lambda`
times the number of its packets can be counted, for each `lambda` of the layout.  In a first stage
of votes a single key overflows its votes as soon as it comes more often.
-/
theorem exists_insertAll_of_lambda_mul_le (memory : Nat) (layout : List StageKind)
    (ratio : Float) (seed : UInt64) (start : Funnel)
    (built : ofLayout memory layout ratio seed = .ok start) :
    (∀ keys : List Key, (keys.length : Int) ≤ Count.greatest →
      (∀ lambda, .vote lambda ∈ layout → ∀ key, lambda * (keys.count key : Int) ≤ Count.greatest) →
      ∃ t outs, Tracker.insertAll start keys = .ok (t, outs)) ∧
    ∀ lambda rest, layout = .vote lambda :: rest → lambda ≤ Count.greatest →
    ∀ (key : Key) (n : Nat),
      Count.greatest < lambda * n →
      Tracker.insertAll start (List.replicate n key) = .error (.overflow .add) := by
  constructor
  · intro keys hlength hvotes
    have hroom : ∀ kind ∈ layout, ∀ key, kind.raise * (keys.count key : Int) ≤ Count.greatest := by
      intro kind hkind key
      cases kind with
      | vote lambda => exact hvotes lambda hkind key
      | basic =>
        have := keys.count_le_length (a := key)
        show 1 * (keys.count key : Int) ≤ _
        omega
    have hready := ready_of_ofLayout hroom built
    have hempty : start.residents = [] := (fresh_of_ofLayout built).2
    exact exists_insertAll hready fun key => by rw [hempty, weightOf_nil, Int.zero_add]
  · rintro lambda rest rfl hfits key n hlimit
    exact insertAll_replicate built hfits key hlimit

/-- Three packets have votes that just fit, four of one key do not. -/
theorem exists_insertAll_of_lambda_mul_le_three :
    ∃ start t outs, ofLayout 32 [.vote 715827882, .basic] 1.0 1 = .ok start ∧
      (([5, 5, 6] : List Key).length : Int) ≤ Count.greatest ∧
      (∀ lambda, .vote lambda ∈ [StageKind.vote 715827882, .basic] → ∀ key,
        lambda * (([5, 5, 6] : List Key).count key : Int) ≤ Count.greatest) ∧
      Tracker.insertAll start [5, 5, 6] = .ok (t, outs) ∧ (715827882 : Int) ≤ Count.greatest ∧
      Count.greatest < 715827882 * ((4 : Nat) : Int) ∧
      Tracker.insertAll start (List.replicate 4 5) = .error (.overflow .add) := by
  have hbuilt :
    (do return (← ofLayout 32 [.vote 715827882, .basic] 1.0 1).lengths : Outcome (List Nat))
      = .ok [1, 1] := by decide +kernel
  obtain ⟨start, built, -⟩ := Checked.bind_eq_ok.mp hbuilt
  obtain ⟨below, above⟩ :=
    exists_insertAll_of_lambda_mul_le 32 [.vote 715827882, .basic] 1.0 1 start built
  have hvotes : ∀ lambda, .vote lambda ∈ [StageKind.vote 715827882, .basic] → ∀ key,
      lambda * (([5, 5, 6] : List Key).count key : Int) ≤ Count.greatest := by
    intro lambda hlambda key
    obtain rfl : lambda = 715827882 := by simpa using hlambda
    have hcount : ([5, 5, 6] : List Key).count key ≤ 3 := List.count_le_length
    unfold Count.greatest
    omega
  obtain ⟨t, outs, run⟩ := below [5, 5, 6] (by decide) hvotes
  exact ⟨start, t, outs, built, by decide, hvotes, run, by decide, by decide,
    above 715827882 [.basic] rfl (by decide) 5 4 (by decide)⟩

/-- **Two packets may overflow the votes**, if each has 2^30 of them, and 2^28 packets of one key
overflow those of the default layout.  As many packets could be counted many times over. -/
theorem exists_overflowing_votes :
    (∃ start, ofLayout 12 [.vote 1073741824] 1.0 1 = .ok start ∧
      (([1, 1] : List Key).length : Int) ≤ Count.greatest ∧
      Tracker.insertAll start [1, 1] = .error (.overflow .add)) ∧
    ∃ start, ofBudget 1024 1 = .ok start ∧
      ((List.replicate 268435456 (1 : Key)).length : Int) ≤ Count.greatest ∧
      Tracker.insertAll start (List.replicate 268435456 1) = .error (.overflow .add) := by
  refine ⟨?pair, ?default⟩
  case pair =>
    have hbuilt : (do return (← ofLayout 12 [.vote 1073741824] 1.0 1).lengths : Outcome (List Nat))
        = .ok [1] := by
      decide +kernel
    obtain ⟨start, built, -⟩ := Checked.bind_eq_ok.mp hbuilt
    exact ⟨start, built, by decide, insertAll_replicate (n := 2) built (by decide) 1 (by decide)⟩
  case default =>
    have hbuilt : (do return (← ofBudget 1024 1).lengths : Outcome (List Nat))
        = .ok [44, 22, 11, 5, 2, 1] := by
      decide +kernel
    obtain ⟨start, built, -⟩ := Checked.bind_eq_ok.mp hbuilt
    have hlayout : ofLayout 1024 (.vote 8 :: defaultLayout.tail) defaultRatio 1 = .ok start := built
    refine ⟨start, built, by rw [List.length_replicate]; decide, ?_⟩
    exact insertAll_replicate hlayout (by decide) 1 (by decide)

end Funnel

end HeavyHitters
