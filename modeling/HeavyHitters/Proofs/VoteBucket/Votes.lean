import HeavyHitters.Proofs.VoteBucket
import Mathlib.Algebra.BigOperators.Group.List.Basic

/-!
# Votes in a table of buckets

A resident always has votes of its own, and all votes of its bucket together stay below the multiple
of them that would have it outvoted, also right after a takeover, where the votes of the newcomer
count twice.  A takeover leaves the votes of the old resident to the newcomer while the old resident
goes on with one, so it adds one unit of weight to what was there.

* `VoteBucket.Tenable` is the bound on the votes of a resident, and `VoteBucket.Poll.tenable` says
  that every poll leaves a tenable resident behind.
* `VoteBucket.Passage.account` is the account of one unit on its way through a table.
-/

namespace HeavyHitters

/-- Replacing one element of a list changes a sum over it by the values
of the old and the new one. -/
theorem sum_map_set {α : Type} (f : α → Int) {as : List α} {i : Nat} {old : α} (new : α)
    (h : as[i]? = some old) : ((as.set i new).map f).sum + f old = (as.map f).sum + f new := by
  obtain ⟨hi, hold⟩ := List.getElem?_eq_some_iff.mp h
  rw [List.map_set, List.sum_set', dif_pos (by rwa [List.length_map]), List.getElem_map, hold]
  omega

namespace VoteBucket

variable {unit : Entry} {b b' : VoteBucket} {given : Option Entry}

/-! ## One bucket -/

/-- A resident that has votes of its own and is not outvoted. -/
structure Tenable (b : VoteBucket) : Prop where
  own_pos : 1 ≤ b.own
  own_le_all : b.own ≤ b.all
  all_lt : b.all < lambda * b.own

/-- A bucket is as it was built, or its resident is tenable. -/
def Sound (b : VoteBucket) : Prop := b = empty ∨ b.Tenable

theorem Sound.tenable (h : b.Sound) (hne : b.all ≠ 0) : b.Tenable := by
  rcases h with rfl | ht
  · exact absurd rfl hne
  · exact ht

theorem Sound.own_eq_zero (h : b.Sound) (hempty : b.all = 0) : b.own = 0 := by
  rcases h with rfl | ⟨hown, hall, -⟩
  · rfl
  · omega

/-- **A poll leaves a tenable resident behind**, whoever that is. -/
theorem Poll.tenable (h : Poll unit b b' given) (hb : b.Sound) (hunit : 1 ≤ unit.count) :
    b'.Tenable := by
  cases h with
  | settled =>
    refine ⟨hunit, Int.le_refl _, ?_⟩
    dsimp only [lambda]
    omega
  | merged hne =>
    obtain ⟨hown, hall, hlt⟩ := hb.tenable hne
    dsimp only [lambda] at hlt
    refine ⟨?_, ?_, ?_⟩ <;> dsimp only [lambda] <;> omega
  | takenOver hne =>
    -- the weight of the unit counts twice among all votes, but `lambda` times
    -- among those to be outvoted by
    obtain ⟨hown, hall, hlt⟩ := hb.tenable hne
    dsimp only [lambda] at hlt
    refine ⟨?_, ?_, ?_⟩ <;> dsimp only [lambda] <;> omega
  | passed hne _ hvotes =>
    obtain ⟨hown, hall, -⟩ := hb.tenable hne
    dsimp only [lambda] at hvotes
    refine ⟨hown, ?_, ?_⟩ <;> dsimp only [lambda] <;> omega

/-- A unit that is taken in adds its weight to the votes of the resident. -/
theorem Poll.own_of_none (h : Poll unit b b' none) (hb : b.Sound) :
    b'.own = b.own + unit.count := by
  cases h with
  | settled hempty => rw [hb.own_eq_zero hempty, Int.zero_add]
  | merged => rfl

/-- A unit that is given on leaves its weight behind if its key is not the one that was
offered, and then weighs one. -/
theorem Poll.own_of_some {passed : Entry} (h : Poll unit b b' (some passed)) :
    b'.own + passed.count
      = b.own + unit.count + ((if passed.key = unit.key then 0 else 1 : Nat) : Int) := by
  cases h with
  | takenOver _ hkey => rw [if_neg hkey]; rfl
  | passed => rw [if_pos rfl]; exact (Int.add_zero _).symm

/-- Units of one go on as units of one. -/
theorem Poll.given_count (h : Poll unit b b' given) (hunit : unit.count = 1) :
    ∀ e ∈ given, e.count = 1 := by
  cases h with
  | settled => simp
  | merged => simp
  | takenOver => simp
  | passed => simpa using hunit

/-! ## Tables -/

/-- A table of which every bucket is sound. -/
def TableSound (rows : List (Row VoteBucket)) : Prop := ∀ row ∈ rows, ∀ b ∈ row.cells, b.Sound

/-- The votes that all residents of a table have of their own. -/
def tableVotes (rows : List (Row VoteBucket)) : Int :=
  (rows.map fun row => (row.cells.toList.map (·.own)).sum).sum

variable {row : Row VoteBucket} {key : Key}

theorem sum_own_set {old : VoteBucket} (hget : row.get key = .ok old) (new : VoteBucket) :
    ((row.set key new).cells.toList.map (·.own)).sum + old.own
      = (row.cells.toList.map (·.own)).sum + new.own := by
  rw [Row.set, Array.toList_setIfInBounds]
  refine sum_map_set _ new ?_
  rw [Array.getElem?_toList]
  exact Row.get_eq_ok_iff.mp hget

theorem tableSound_table (hashes : List KeyHash) (length : Nat) :
    TableSound (table hashes length empty) := by
  intro row hr b hb
  obtain ⟨hash, rfl⟩ := mem_table hr
  exact .inl (Array.eq_of_mem_replicate hb)

theorem tableVotes_table (hashes : List KeyHash) (length : Nat) :
    tableVotes (table hashes length empty) = 0 := by
  unfold tableVotes
  refine List.sum_eq_zero fun votes hv => ?_
  obtain ⟨row, hr, rfl⟩ := List.mem_map.mp hv
  obtain ⟨hash, rfl⟩ := mem_table hr
  simp [Row.fill, empty]

/-- A poll keeps the buckets of a row sound, and changes the votes in the
row by those in the bucket. -/
theorem Poll.sound (h : Poll unit b b' given) (hrow : ∀ c ∈ row.cells, c.Sound)
    (hget : row.get unit.key = .ok b) (hunit : 1 ≤ unit.count) :
    b.Sound ∧ ∀ c ∈ (row.set unit.key b').cells, c.Sound := by
  have hb : b.Sound := hrow b (Row.mem_cells_of_get hget)
  exact ⟨hb, Row.forall_mem_cells_set hrow (.inr (h.tenable hb hunit))⟩

/--
**The account of a unit on its way.**  The votes that residents have of their own and the weight
that goes on are those of before, the unit, and one for each bucket that is taken over.
-/
theorem Passage.account {rows rows' : List (Row VoteBucket)} {out : Option Entry} {takeovers : Nat}
    (h : Passage unit rows rows' out takeovers) (hs : TableSound rows) (hunit : 1 ≤ unit.count) :
    TableSound rows' ∧
      tableVotes rows' + weightOf allKeys out.toList = tableVotes rows +
        unit.count + takeovers := by
  induction h with
  | carriedOut => exact ⟨hs, by simp [tableVotes, allKeys]⟩
  | @takenIn unit row rows old new hget hpoll =>
    obtain ⟨hrow, hrest⟩ := List.forall_mem_cons.mp hs
    obtain ⟨hold, hset⟩ := hpoll.sound hrow hget hunit
    have hown := hpoll.own_of_none hold
    have hsum := sum_own_set hget new
    refine ⟨List.forall_mem_cons.mpr ⟨hset, hrest⟩, ?_⟩
    simp only [tableVotes, List.map_cons, List.sum_cons, Option.toList_none, weightOf_nil]
    omega
  | @givenOn unit passed row rows rows' old new out more hget hpoll _ ih =>
    obtain ⟨hrow, hrest⟩ := List.forall_mem_cons.mp hs
    obtain ⟨-, hset⟩ := hpoll.sound hrow hget hunit
    have hown := hpoll.own_of_some
    have hsum := sum_own_set hget new
    obtain ⟨hsound, hvotes⟩ := ih hrest (hpoll.given_positive hunit passed rfl)
    refine ⟨List.forall_mem_cons.mpr ⟨hset, hsound⟩, ?_⟩
    simp only [tableVotes, List.map_cons, List.sum_cons] at hvotes ⊢
    omega

/-- A unit of one leaves a table as a unit of one. -/
theorem Passage.out_count {rows rows' : List (Row VoteBucket)}
    {out : Option Entry} {takeovers : Nat} (h : Passage unit rows rows' out takeovers)
    (hunit : unit.count = 1) : ∀ e ∈ out, e.count = 1 := by
  induction h with
  | carriedOut => simpa using hunit
  | takenIn => simp
  | givenOn _ hpoll _ ih => exact ih (hpoll.given_count hunit _ rfl)

end VoteBucket

end HeavyHitters
