import HeavyHitters.Proofs.Counters
import HeavyHitters.SignedRow
import Mathlib.Algebra.BigOperators.Ring.Finset

/-!
# Rows of counters in closed form

A row of counters to which units were added, with counts of any sign, is a function of the
units: each counter is the weight of the keys in its bucket.  A signed row is the same of the
units with the signs of their keys on them.  So the order of the units does not matter, and of
each key only its net weight does.

* `Row.totals` and `SignedRow.totals` are the rows that hold given units.
* `Row.update_totals_eq_ok_iff` and `SignedRow.add_totals_eq_ok_iff` say that adding a unit leads
  from one to the next, unless it overflows.
* `SignedRow.estimateOf` is what the keys of a bucket add to the estimate for one of them, and
  `SignedRow.estimate_totals` says that a signed row answers just that.
-/

namespace HeavyHitters

open Finset

/-! ## Rows -/

namespace Row

variable {row row' : Row Int} {units others : List Entry} {unit : Entry} {key : Key}

/-- The row with the same buckets in which each counter is the weight of the keys of its bucket. -/
def totals (row : Row Int) (units : List Entry) : Row Int :=
  { row with
    cells := Array.ofFn fun bucket : Fin row.length =>
      weightOf (row.position · == bucket.val) units }

@[simp] theorem length_totals : (row.totals units).length = row.length := by
  simp [totals, Row.length]

@[simp] theorem position_totals : (row.totals units).position key = row.position key := by
  simp [totals, position, Row.length]

theorem getElem?_totals (bucket : Nat) : (row.totals units).cells[bucket]? =
    if bucket < row.length then some (weightOf (row.position · == bucket) units) else none := by
  simp only [totals, Array.getElem?_ofFn]
  split <;> rfl

theorem get_totals (h : 0 < row.length) (key : Key) :
    (row.totals units).get key = .ok (weightOf (row.shares key) units) := by
  have hp : row.position key < row.length := row.position_lt key h
  rw [get_eq_ok_iff, position_totals, getElem?_totals, if_pos hp]
  rfl

/-- The keys of some units that have the bucket of a key, without the key itself. -/
def partners (row : Row Int) (units : List Entry) (key : Key) : Finset Key :=
  {other ∈ (units.map (·.key)).toFinset | other ≠ key ∧ row.position other = row.position key}

/-- No other key of some units has the bucket of the key. -/
def Alone (row : Row Int) (units : List Entry) (key : Key) : Prop :=
  ∀ unit ∈ units, row.position unit.key = row.position key → unit.key = key

instance (row : Row Int) (units : List Entry) (key : Key) : Decidable (row.Alone units key) :=
  inferInstanceAs (Decidable (∀ unit ∈ units, _ → _))

/-- A row that was not added to holds nothing. -/
theorem totals_fill (length : Nat) (hash : KeyHash) :
    (fill length 0 hash).totals [] = fill length 0 hash := by
  unfold totals
  congr 1
  refine Array.ext (by simp [Row.length, fill]) fun i hi hi' => ?_
  simp [fill]

/-- A row with buckets that holds nothing. -/
structure Vacant (row : Row Int) : Prop where
  length_pos : 0 < row.length
  totals_nil : row.totals [] = row

theorem vacant_fill {length : Nat} (hl : length ≠ 0) (hash : KeyHash) :
    (fill length 0 hash).Vacant where
  length_pos := by
    rw [length_fill]
    exact Nat.pos_of_ne_zero hl
  totals_nil := totals_fill length hash

theorem map_totals_nil {rows : List (Row Int)} (h : ∀ row ∈ rows, row.Vacant) :
    rows.map (·.totals []) = rows :=
  (List.map_congr_left fun row hr => (h row hr).totals_nil).trans (List.map_id rows)

/-- Rows that hold the same weight of every key are the same. -/
theorem totals_congr (h : ∀ key, weightOf (· == key) others = weightOf (· == key) units) :
    row.totals others = row.totals units := by
  unfold totals
  congr 2
  funext bucket
  exact weightOf_congr h

/-- Where the counter of a unit's key is set to the sum, the row holds one unit more. -/
theorem set_totals (h : 0 < row.length) :
    (row.totals units).set unit.key (weightOf (row.shares unit.key) units + unit.count)
      = row.totals (units ++ [unit]) := by
  have hp : row.position unit.key < row.length := row.position_lt unit.key h
  have hcells : (row.totals units).cells.size = row.length := length_totals
  suffices hsame : ((row.totals units).set unit.key
      (weightOf (row.shares unit.key) units + unit.count)).cells
        = (row.totals (units ++ [unit])).cells by
    simpa [set, totals] using hsame
  refine Array.ext_getElem? fun bucket => ?_
  simp only [set, position_totals, Array.getElem?_setIfInBounds, getElem?_totals, hcells, if_pos hp,
    weightOf_append_singleton]
  by_cases hb : row.position unit.key = bucket
  · subst hb
    simp only [if_pos hp, if_true, beq_self_eq_true]
    rfl
  · simp [hb]

/-- Adding a unit leads to the row that holds one unit more, if the sum fits. -/
theorem update_totals_eq_ok_iff (h : 0 < row.length) :
    (row.totals units).update unit.key (Count.plus · unit.count) = .ok row' ↔
      Count.Fits (weightOf (row.shares unit.key) units + unit.count) ∧
        row' = row.totals (units ++ [unit]) := by
  simp only [update_eq_ok_iff, get_totals h, Except.ok.injEq, Count.plus_eq_ok_iff]
  constructor
  · rintro ⟨old, new, rfl, ⟨hfits, rfl⟩, rfl⟩
    exact ⟨hfits, set_totals h⟩
  · rintro ⟨hfits, rfl⟩
    exact ⟨_, _, rfl, ⟨hfits, rfl⟩, (set_totals h).symm⟩

/-- A unit for which the sum is too great overflows it. -/
theorem update_totals_eq_error (h : 0 < row.length)
    (hover : Count.greatest < weightOf (row.shares unit.key) units + unit.count) :
    (row.totals units).update unit.key (Count.plus · unit.count) = .error (.overflow .add) := by
  have hget := get_eq_ok_iff.mp (@get_totals row units h unit.key)
  unfold update modify
  simp only [hget, Count.plus, Count.narrow_of_greatest_lt hover]
  rfl

end Row

/-! ## Signed rows -/

namespace SignedRow

variable {r r' : SignedRow} {units others : List Entry} {unit : Entry} {key : Key}

/-- Units with the signs of their keys on their counts. -/
def signed (r : SignedRow) (units : List Entry) : List Entry :=
  units.map fun unit => ⟨unit.key, unit.count * r.signs.sign unit.key⟩

/-- The signed row with the same buckets and signs that holds the given units. -/
def totals (r : SignedRow) (units : List Entry) : SignedRow :=
  { r with row := r.row.totals (r.signed units) }

/-- The estimate for a key in a signed row that holds some units: the net weight of
the key, and that of each other key of its bucket, added if the two keys have the same
sign and taken away if not. -/
def estimateOf (r : SignedRow) (units : List Entry) (key : Key) : Int :=
  weightOf (· == key) units
    + ∑ other ∈ r.row.partners units key,
        r.signs.sign key * r.signs.sign other * weightOf (· == other) units

theorem signed_append_singleton : r.signed (units ++ [unit])
    = r.signed units ++ [⟨unit.key, unit.count * r.signs.sign unit.key⟩] := by
  simp [signed]

/-- All units of a key have the same sign on them. -/
theorem weightOf_signed (r : SignedRow) (units : List Entry) (key : Key) :
    weightOf (· == key) (r.signed units) = weightOf (· == key) units * r.signs.sign key := by
  induction units with
  | nil => simp [signed]
  | cons unit units ih =>
    rw [show r.signed (unit :: units)
      = ⟨unit.key, unit.count * r.signs.sign unit.key⟩ :: r.signed units from rfl]
    rw [weightOf_cons, weightOf_cons, ih, Int.add_mul]
    by_cases hk : unit.key = key
    · simp [hk]
    · simp [hk]

theorem map_totals_nil {rows : List SignedRow} (h : ∀ r ∈ rows, r.row.Vacant) :
    rows.map (·.totals []) = rows := by
  refine (List.map_congr_left fun r hr => ?_).trans (List.map_id rows)
  rw [totals, show r.signed [] = [] from rfl, (h r hr).totals_nil]
  rfl

theorem table_ne_nil {rows : Nat} (h : rows ≠ 0) (length : Nat) (seeds : SeedStream) :
    (table rows length seeds).1 ≠ [] := by
  intro he
  have hrows := congrArg List.length he
  rw [length_table] at hrows
  exact h hrows

/-- The rows of a built table hold nothing. -/
theorem vacant_of_mem_table {rows length : Nat} {seeds : SeedStream} (hl : length ≠ 0)
    (h : r ∈ (table rows length seeds).1) : r.row.Vacant := by
  obtain ⟨⟨hash, signs⟩, -, rfl⟩ := List.mem_map.mp h
  exact Row.vacant_fill hl hash

theorem totals_congr (h : ∀ key, weightOf (· == key) others = weightOf (· == key) units) :
    r.totals others = r.totals units := by
  have hrow : r.row.totals (r.signed others) = r.row.totals (r.signed units) :=
    Row.totals_congr fun key => by rw [weightOf_signed, weightOf_signed, h]
  rw [totals, totals, hrow]

/-- Adding a unit leads to the row that holds one unit more, if the signed count and the sum fit. -/
theorem add_totals_eq_ok_iff (h : 0 < r.row.length) :
    (r.totals units).add unit.key unit.count = .ok r' ↔
      (Count.Fits (unit.count * r.signs.sign unit.key) ∧
        Count.Fits (weightOf (r.row.shares unit.key) (r.signed units)
          + unit.count * r.signs.sign unit.key)) ∧ r' = r.totals (units ++ [unit]) := by
  have hset := @Row.set_totals r.row (r.signed units)
    ⟨unit.key, unit.count * r.signs.sign unit.key⟩ h
  unfold add
  simp only [Checked.bind_eq_ok, Checked.pure_eq_ok, Row.update_eq_ok_iff, Count.times_eq_ok_iff,
    Count.plus_eq_ok_iff, totals, Row.get_totals h, Except.ok.injEq, signed_append_singleton]
  constructor
  · rintro ⟨row, ⟨old, new, rfl, ⟨count, ⟨hsigned, rfl⟩, hfits, rfl⟩, rfl⟩, rfl⟩
    exact ⟨⟨hsigned, hfits⟩, by rw [hset]⟩
  · rintro ⟨⟨hsigned, hfits⟩, rfl⟩
    exact ⟨_, ⟨_, _, rfl, ⟨_, ⟨hsigned, rfl⟩, hfits, rfl⟩, rfl⟩, by rw [hset]⟩

/-- **The counter of a key with the sign taken off is the estimate for the key**, since the sign of
the key cancels out in its own weight. -/
theorem weightOf_signed_mul_sign (r : SignedRow) (units : List Entry) (key : Key) :
    weightOf (r.row.shares key) (r.signed units) * r.signs.sign key = r.estimateOf units key := by
  have hkeys : ∀ unit ∈ r.signed units, unit.key ∈ insert key (units.map (·.key)).toFinset := by
    intro unit hu
    obtain ⟨other, ho, rfl⟩ := List.mem_map.mp hu
    exact mem_insert_of_mem (List.mem_toFinset.mpr (List.mem_map.mpr ⟨other, ho, rfl⟩))
  have hbucket :
      ({other ∈ insert key (units.map (·.key)).toFinset | r.row.shares key other} : Finset Key)
        = insert key (r.row.partners units key) := by
    ext other
    by_cases ho : other = key
    · simp [ho, Row.shares]
    · simp [ho, Row.shares, Row.partners]
  have hkey : key ∉ r.row.partners units key := by simp [Row.partners]
  have hsign := r.signs.sign_mul_self key
  calc weightOf (r.row.shares key) (r.signed units) * r.signs.sign key
      = (∑ other ∈ insert key (r.row.partners units key), weightOf (· == other) (r.signed units))
          * r.signs.sign key := by rw [weightOf_eq_sum hkeys, hbucket]
    _ = weightOf (· == key) units * (r.signs.sign key * r.signs.sign key)
          + ∑ other ∈ r.row.partners units key,
            weightOf (· == other) (r.signed units) * r.signs.sign key := by
        rw [sum_insert hkey, Int.add_mul, weightOf_signed, Int.mul_assoc, sum_mul]
    _ = r.estimateOf units key := by
        rw [hsign, Int.mul_one, estimateOf]
        congr 1
        refine sum_congr rfl fun other _ => ?_
        rw [weightOf_signed]
        ac_rfl

theorem estimate_totals (h : 0 < r.row.length) (key : Key) :
    (r.totals units).estimate key = Count.narrow .multiply (r.estimateOf units key) := by
  unfold estimate
  rw [show (r.totals units).row = r.row.totals (r.signed units) from rfl, Row.get_totals h,
    ← weightOf_signed_mul_sign]
  rfl

/-- Of a key that is alone in its bucket the estimate is its net weight. -/
theorem estimateOf_of_alone (h : r.row.Alone units key) :
    r.estimateOf units key = weightOf (· == key) units := by
  have hempty : r.row.partners units key = ∅ := by
    refine filter_eq_empty_iff.mpr fun other ho hpartner => ?_
    obtain ⟨unit, hu, rfl⟩ := List.mem_map.mp (List.mem_toFinset.mp ho)
    exact hpartner.1 (h unit hu hpartner.2)
  rw [estimateOf, hempty, sum_empty, Int.add_zero]

/-- Signs take the weight of any keys no further from zero than it was. -/
theorem weightOf_signed_within (r : SignedRow) (hpos : ∀ unit ∈ units, 0 ≤ unit.count)
    (select : Key → Bool) : -weightOf select units ≤ weightOf select (r.signed units) ∧
      weightOf select (r.signed units) ≤ weightOf select units := by
  induction units with
  | nil => simp [signed]
  | cons unit units ih =>
    have hunit := hpos unit List.mem_cons_self
    have hrest := ih fun other ho => hpos other (List.mem_cons_of_mem unit ho)
    simp only [signed, List.map_cons, weightOf_cons] at hrest ⊢
    rcases r.signs.sign_eq unit.key with hsign | hsign
    · rw [hsign]
      split <;> omega
    · rw [hsign]
      split <;> omega

/-- So it is no further from zero than the weight of all. -/
theorem weightOf_signed_bounds (r : SignedRow) (hpos : ∀ unit ∈ units, 0 ≤ unit.count)
    (select : Key → Bool) : -weightOf allKeys units ≤ weightOf select (r.signed units) ∧
      weightOf select (r.signed units) ≤ weightOf allKeys units := by
  have hwithin := r.weightOf_signed_within hpos select
  have hle : weightOf select units ≤ weightOf allKeys units := weightOf_le_all hpos
  omega

theorem estimateOf_bounds (r : SignedRow) (hpos : ∀ unit ∈ units, 0 ≤ unit.count) (key : Key) :
    -weightOf allKeys units ≤ r.estimateOf units key ∧
    r.estimateOf units key ≤ weightOf allKeys units := by
  have hbounds := r.weightOf_signed_bounds hpos (r.row.shares key)
  rw [← weightOf_signed_mul_sign]
  rcases r.signs.sign_eq key with hsign | hsign
  · rw [hsign]
    omega
  · rw [hsign]
    omega

end SignedRow

end HeavyHitters
