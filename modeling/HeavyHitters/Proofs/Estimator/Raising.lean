import HeavyHitters.Estimator.Conservative
import HeavyHitters.Proofs.Counters

/-!
# Raising with a limit

An insert with conservative update visits the rows in order and carries a limit along.  Whatever
branch is taken at a row, the outcome is the same: the limit becomes the lesser of itself and the
raised counter, and the counter becomes the greater of itself and that limit.

* `Conservative.Raising` says so, and `Conservative.raise_eq_ok_iff` that raising does nothing else
  and fails only where a raised counter does not fit.
* `Conservative.Raising.forall₂_raised` bounds from both sides what happens to each counter.
* `Conservative.Raising.le_get` says that no raised counter is left below a
  bound that held for all of them.
-/

namespace HeavyHitters

namespace Row

variable {row row' : Row Int} {key other : Key} {weight current : Int}

/-- A row in which a key has a bucket has cells. -/
theorem length_pos_of_get (h : row.get key = .ok current) : 0 < row.length :=
  Nat.zero_lt_of_lt (Array.getElem?_eq_some_iff.mp (get_eq_ok_iff.mp h)).1

/-- Putting back what was there changes nothing. -/
theorem set_of_get (h : row.get key = .ok current) : row.set key current = row := by
  have hcell := get_eq_ok_iff.mp h
  obtain ⟨hash, cells⟩ := row
  unfold set
  congr 1
  refine Array.ext_getElem? fun i => ?_
  rw [Array.getElem?_setIfInBounds]
  split
  · next hi =>
    rw [← hi, hcell]
    exact if_pos (Array.getElem?_eq_some_iff.mp hcell).1
  · rfl

/-- The counter of a key was raised, by at most a weight. -/
def Raised (key : Key) (weight : Int) (row row' : Row Int) : Prop :=
  ∃ current raised, row.get key = .ok current ∧ row' = row.set key raised ∧
    current ≤ raised ∧ raised ≤ current + weight

/-- Every key sees its counter raised by at most the weight. -/
theorem Raised.get_bounds (h : Raised key weight row row') (hw : 0 ≤ weight) {before after : Int}
    (hbefore : row.get other = .ok before) (hafter : row'.get other = .ok after) :
    before ≤ after ∧ after ≤ before + weight := by
  obtain ⟨current, raised, hget, rfl, hlow, hhigh⟩ := h
  rw [get_set (length_pos_of_get hget)] at hafter
  by_cases hp : row.position other = row.position key
  · rw [if_pos hp] at hafter
    have hsame : row.get other = row.get key := by rw [Row.get, Row.get, hp]
    rw [hsame, hget] at hbefore
    cases hbefore
    cases hafter
    exact ⟨hlow, hhigh⟩
  · rw [if_neg hp, hbefore] at hafter
    cases hafter
    exact ⟨Int.le_refl before, Int.le_add_of_nonneg_right hw⟩

end Row

namespace Conservative

variable {key : Key} {weight limit : Int} {rows rows' : List (Row Int)}

/-- What raising does to the rows in turn: the limit takes the raised counter in, and the
counter is raised to the limit. -/
inductive Raising (key : Key) (weight : Int) :
    (limit : Int) → List (Row Int) → List (Row Int) → Prop where
  | nil {limit : Int} : Raising key weight limit [] []
  | cons {limit current : Int} {row : Row Int} {rows rows' : List (Row Int)}
      (get_eq : row.get key = .ok current) (fits : Count.Fits (current + weight))
      (rest : Raising key weight (min limit (current + weight)) rows rows') :
      Raising key weight limit (row :: rows)
        (row.set key (max current (min limit (current + weight))) :: rows')

/-- The three branches at a row are one: the limit takes the raised counter in, and the counter is
raised to the limit if it is below. -/
theorem raise_cons (hw : 0 ≤ weight) (row : Row Int) (rows : List (Row Int)) (limit : Int) :
    raise key weight (row :: rows) limit = (do
      let current ← row.get key
      let raised ← Count.plus current weight
      let rest ← raise key weight rows (min limit raised)
      return row.set key (max current (min limit raised)) :: rest) := by
  rw [raise]
  cases hget : row.get key with
  | error fault => rfl
  | ok current =>
    cases hplus : Count.plus current weight with
    | error fault => simp only [bind, Except.bind, hplus]
    | ok raised =>
      obtain ⟨-, rfl⟩ := Count.plus_eq_ok_iff.mp hplus
      simp only [bind, Except.bind, hplus]
      split
      · next hlt =>
        rw [show min limit (current + weight) = current + weight by omega,
          show max current (current + weight) = current + weight by omega]
      · next hge =>
        rw [show min limit (current + weight) = limit by omega]
        split
        · next hbelow => rw [show max current limit = limit by omega]
        · next hpast => rw [show max current limit = current by omega, Row.set_of_get hget]

/-- **Raising keeps to the limit in every row**, and has a value if all raised counters fit. -/
theorem raise_eq_ok_iff (hw : 0 ≤ weight) :
    raise key weight rows limit = .ok rows' ↔ Raising key weight limit rows rows' := by
  induction rows generalizing limit rows' with
  | nil =>
    constructor
    · intro h
      cases h
      exact .nil
    · intro h
      cases h
      rfl
  | cons row rows ih =>
    rw [raise_cons hw]
    constructor
    · intro h
      obtain ⟨current, hget, h⟩ := Checked.bind_eq_ok.mp h
      obtain ⟨raised, hplus, h⟩ := Checked.bind_eq_ok.mp h
      obtain ⟨hfits, rfl⟩ := Count.plus_eq_ok_iff.mp hplus
      obtain ⟨rest, hrest, h⟩ := Checked.bind_eq_ok.mp h
      obtain rfl := Checked.pure_eq_ok.mp h
      exact .cons hget hfits (ih.mp hrest)
    · intro h
      cases h with
      | @cons _ current _ _ rest hget hfits hrest =>
        refine Checked.bind_eq_ok.mpr ⟨current, hget, ?_⟩
        refine Checked.bind_eq_ok.mpr ⟨_, Count.plus_eq_ok_iff.mpr ⟨hfits, rfl⟩, ?_⟩
        exact Checked.bind_eq_ok.mpr ⟨rest, ih.mpr hrest, rfl⟩

/-- Each counter is raised by at most the weight. -/
theorem Raising.forall₂_raised (hw : 0 ≤ weight) (h : Raising key weight limit rows rows') :
    List.Forall₂ (Row.Raised key weight) rows rows' := by
  induction h with
  | nil => exact .nil
  | cons hget hfits hrest ih => exact .cons ⟨_, _, hget, rfl, by omega, by omega⟩ ih

/-- Every counter of the key has room for the weight. -/
theorem Raising.fits (h : Raising key weight limit rows rows') :
    ∀ row ∈ rows, ∀ current, row.get key = .ok current → Count.Fits (current + weight) := by
  induction h with
  | nil => intro row hr; cases hr
  | cons hget hfits hrest ih =>
    refine List.forall_mem_cons.mpr ⟨fun other ho => ?_, ih⟩
    rw [hget] at ho
    cases ho
    exact hfits

/-- What is below the limit and below every counter with the weight on it is below every counter
afterwards. -/
theorem Raising.le_get (h : Raising key weight limit rows rows') {bound : Int}
    (hlimit : bound ≤ limit)
    (hbound : ∀ row ∈ rows, ∀ current, row.get key = .ok current → bound ≤ current + weight) :
    ∀ row' ∈ rows', ∀ raised, row'.get key = .ok raised → bound ≤ raised := by
  induction h with
  | nil => intro row' hr; cases hr
  | @cons limit current row rows rows' hget hfits hrest ih =>
    have hcurrent := hbound row List.mem_cons_self current hget
    refine List.forall_mem_cons.mpr ⟨?_, ?_⟩
    · intro raised hraised
      rw [Row.get_set (Row.length_pos_of_get hget), if_pos rfl] at hraised
      cases hraised
      omega
    · exact ih (by omega) fun other ho => hbound other (List.mem_cons_of_mem row ho)

end Conservative

end HeavyHitters
