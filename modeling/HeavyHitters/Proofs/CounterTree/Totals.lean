import HeavyHitters.Proofs.CounterTree.Inflow
import Mathlib.Algebra.BigOperators.Group.Finset.Piecewise

/-!
# Trees as a function of their leaf totals

Nothing of the history of a tree is left in its counters but the total that was poured into each
leaf.  So the order of the units does not matter, nor whether a weight comes at once or in parts.

* `CounterTree.pouredOf` is the weight that the units of selected keys pour in.
* `CounterTree.addAll` is a run, and `CounterTree.addAll_eq_of_poured_eq` says that it
  depends on the leaf totals alone.
* `CounterTree.Regular` is the shape of a tree that grew out of an empty one.
* `CounterTree.Absorbed.counterAt_eq` and `CounterTree.Absorbed.weight_add_inflow` give the counters
  of such a tree and their account.
* `CounterTree.Absorbed.min_pouredOf_le_estimate` and `CounterTree.Absorbed.estimate_le_pouredOf`
  bound its estimates from both sides.
-/

namespace HeavyHitters

open Finset

namespace CounterTree

open CounterLevel

/-! ## The weight of selected keys -/

/-- The weight that units of the selected keys pour in; a unit without weight pours nothing in. -/
def pouredOf (select : Key → Bool) (units : List Entry) : Nat :=
  (units.map fun unit => if select unit.key then unit.count.toNat else 0).sum

section

variable {select larger : Key → Bool} {unit : Entry} {units : List Entry}

@[simp] theorem pouredOf_nil : pouredOf select [] = 0 := rfl

@[simp] theorem pouredOf_cons (unit : Entry) (units : List Entry) :
    pouredOf select (unit :: units)
      = (if select unit.key then unit.count.toNat else 0) + pouredOf select units :=
  rfl

theorem pouredOf_perm {others : List Entry} (h : units.Perm others) :
    pouredOf select units = pouredOf select others :=
  (h.map _).sum_eq

/-- Only keys of units with weight matter. -/
theorem pouredOf_mono (h : ∀ unit ∈ units, 0 < unit.count → select unit.key = true →
    larger unit.key = true) : pouredOf select units ≤ pouredOf larger units := by
  induction units with
  | nil => exact Nat.le_refl 0
  | cons unit units ih =>
    have hunits := ih fun other ho => h other (List.mem_cons_of_mem unit ho)
    have hunit := h unit List.mem_cons_self
    rw [pouredOf_cons, pouredOf_cons]
    by_cases hw : 0 < unit.count
    · by_cases hs : select unit.key = true
      · rw [if_pos hs, if_pos (hunit hw hs)]
        omega
      · rw [if_neg hs]
        omega
    · rw [Int.toNat_of_nonpos (by omega), ite_self, ite_self]
      omega

theorem pouredOf_append (units others : List Entry) :
    pouredOf select (units ++ others) = pouredOf select units + pouredOf select others := by
  simp [pouredOf]

/-- What neighbours get is what their parent gets in all. -/
theorem pouredOf_pair (part : Key → Nat) (units : List Entry) (parent : Nat) :
    pouredOf (part · == 2 * parent) units + pouredOf (part · == 2 * parent + 1) units
      = pouredOf (part · / 2 == parent) units := by
  induction units with
  | nil => rfl
  | cons unit units ih =>
    have hhalf : part unit.key / 2 = parent ↔
        part unit.key = 2 * parent ∨ part unit.key = 2 * parent + 1 := by omega
    simp only [pouredOf_cons, beq_iff_eq, ← ih]
    by_cases hleft : part unit.key = 2 * parent
    · rw [if_pos hleft, if_neg (by omega), if_pos (by omega)]
      omega
    · by_cases hright : part unit.key = 2 * parent + 1
      · rw [if_neg hleft, if_pos hright, if_pos (by omega)]
        omega
      · rw [if_neg hleft, if_neg hright, if_neg (by omega)]
        omega

theorem gathered_pouredOf (part : Key → Nat) (units : List Entry) (depth ancestor : Nat) :
    gathered depth (fun position => pouredOf (part · == position) units) ancestor
      = pouredOf (part · / 2 ^ depth == ancestor) units := by
  induction depth generalizing part with
  | zero => simp [gathered]
  | succ depth ih =>
    simp only [gathered, pouredOf_pair]
    rw [ih fun key => part key / 2]
    simp only [Nat.div_div_eq_div_mul, Nat.pow_succ']

end

theorem poured_eq_pouredOf (t : CounterTree) (units : List Entry) :
    t.poured units = fun leaf => pouredOf (t.leaf · == leaf) units := by
  funext leaf
  simp only [poured, pouredOf, beq_iff_eq]

/-- All leaves together get all the weight. -/
theorem sum_poured {t : CounterTree} (h : ∀ key, t.leaf key < t.leaves) (units : List Entry) :
    ∑ leaf ∈ range t.leaves, t.poured units leaf = (units.map (·.count.toNat)).sum := by
  induction units with
  | nil => simp [poured]
  | cons unit units ih =>
    have hunit : ∑ leaf ∈ range t.leaves, (if t.leaf unit.key = leaf then unit.count.toNat else 0)
        = unit.count.toNat := by
      rw [sum_ite_eq, if_pos (mem_range.mpr (h unit.key))]
    simp only [poured, List.map_cons, List.sum_cons] at ih ⊢
    rw [sum_add_distrib, hunit, ih]

/-! ## Runs -/

/-- Adds units in order; a unit without weight is passed over. -/
def addAll (t : CounterTree) (units : List Entry) : CounterTree :=
  units.foldl (fun t unit => if unit.count ≤ 0 then t else t.add unit.key unit.count.toNat) t

theorem addAll_append (t : CounterTree) (units others : List Entry) :
    t.addAll (units ++ others) = (t.addAll units).addAll others :=
  List.foldl_append

theorem addAll_singleton (t : CounterTree) (unit : Entry) :
    t.addAll [unit] = if unit.count ≤ 0 then t else t.add unit.key unit.count.toNat :=
  rfl

theorem Absorbed.addAll {t : CounterTree} {past : List Entry} (h : t.Absorbed past)
    (units : List Entry) : (t.addAll units).Absorbed (past ++ units) := by
  induction units generalizing t past with
  | nil => rwa [List.append_nil]
  | cons unit units ih =>
    rw [List.append_cons]
    by_cases hu : unit.count ≤ 0
    · have := ih (h.append_of_nonpos hu)
      rwa [CounterTree.addAll, List.foldl_cons, if_pos hu]
    · have := ih (h.add unit)
      rwa [CounterTree.addAll, List.foldl_cons, if_neg hu]

/-- A run changes neither the hash function of a tree nor the marks and sizes of its levels. -/
theorem addAll_frame (t : CounterTree) (units : List Entry) :
    (t.addAll units).hash = t.hash ∧ shape (t.addAll units).levels = shape t.levels := by
  induction units generalizing t with
  | nil => exact ⟨rfl, rfl⟩
  | cons unit units ih =>
    rw [addAll, List.foldl_cons]
    split
    · exact ih t
    · obtain ⟨hhash, hshape⟩ := ih (t.add unit.key unit.count.toNat)
      exact ⟨hhash, hshape.trans (shape_carryUp _ _ _)⟩

theorem leaves_eq_of_shape_eq {t start : CounterTree} (h : shape t.levels = shape start.levels) :
    t.leaves = start.leaves := by
  have hleaves : ∀ t : CounterTree, t.leaves = ((shape t.levels).head?.map Prod.snd).getD 0 := by
    intro t
    rw [leaves, shape, List.head?_map, Option.map_map]
    rfl
  rw [hleaves, hleaves, h]

@[simp] theorem leaves_addAll (t : CounterTree) (units : List Entry) :
    (t.addAll units).leaves = t.leaves :=
  leaves_eq_of_shape_eq (t.addAll_frame units).2

@[simp] theorem leaf_addAll (t : CounterTree) (units : List Entry) :
    (t.addAll units).leaf = t.leaf := by
  funext key
  rw [leaf, leaf, leaves_addAll, (t.addAll_frame units).1]

@[simp] theorem poured_addAll (t : CounterTree) (units others : List Entry) :
    (t.addAll units).poured others = t.poured others := by
  simp only [poured_eq_pouredOf, leaf_addAll]

/-- **A run depends on the leaf totals alone.** -/
theorem addAll_eq_of_poured_eq {t : CounterTree} (h : t.Absorbed []) {units others : List Entry}
    (heq : t.poured others = t.poured units) : t.addAll others = t.addAll units := by
  have hframe := t.addAll_frame units
  have hframe' := t.addAll_frame others
  have hlevels : (t.addAll others).levels = (t.addAll units).levels := by
    have hheld := (h.addAll units).holds
    have hheld' := (h.addAll others).holds
    rw [List.nil_append, poured_addAll] at hheld hheld'
    rw [heq] at hheld'
    exact hheld'.eq_of_shape_eq hheld (hframe'.2.trans hframe.2.symm)
  have hhash : (t.addAll others).hash = (t.addAll units).hash := hframe'.1.trans hframe.1.symm
  generalize t.addAll others = a at hlevels hhash
  generalize t.addAll units = b at hlevels hhash
  obtain ⟨hash, levels⟩ := a
  obtain ⟨hash', levels'⟩ := b
  rw [show hash = hash' from hhash, show levels = levels' from hlevels]

/-! ## Trees grown from an empty one -/

/-- The mark of a saturated counter on a level. -/
def mark (level : Nat) : Nat := marks.getD level 0

/-- The inflow of each level of a tree, from the units that were poured in. -/
def inflow (t : CounterTree) (units : List Entry) : (level : Nat) → Nat → Nat :=
  inflowAt marks (t.poured units)

/-- The counter at a position of a level. -/
def counterAt (t : CounterTree) (level position : Nat) : Option Nat :=
  t.levels[level]?.bind (·.counters[position]?)

theorem inflowAt_take (marks : List Nat) (inflow : Nat → Nat) {height level : Nat}
    (h : level ≤ height) :
    inflowAt (marks.take height) inflow level = inflowAt marks inflow level := by
  induction level with
  | zero => rfl
  | succ level ih =>
    rw [inflowAt, inflowAt, ih (by omega), List.getD_eq_getElem?_getD, List.getD_eq_getElem?_getD,
      List.getElem?_take_of_lt (by omega)]

/-- A tree whose levels have the marks of their counters and halve in size from the leaves up. -/
structure Regular (t : CounterTree) (height : Nat) : Prop where
  height_mem : height ∈ [1, 2, 3]
  two_pow_dvd : 2 ^ (height - 1) ∣ t.leaves
  shape_eq : shape t.levels
    = (List.range height).map fun level => (mark level, t.leaves >>> level)

theorem regular_empty {height : Nat} (hheight : height ∈ [1, 2, 3]) (width : Nat) (hash : KeyHash) :
    (empty height width hash).Regular height := by
  refine ⟨hheight, ⟨width, ?_⟩, ?_⟩
  all_goals
    rcases List.mem_cons.mp hheight with rfl | hheight
    · simp [shape, empty, leaves, marks, mark]
    rcases List.mem_cons.mp hheight with rfl | hheight
    · simp [shape, empty, leaves, marks, mark, List.range_succ, Nat.shiftLeft_eq,
        Nat.shiftRight_eq_div_pow, Nat.mul_comm]
    obtain rfl := List.mem_singleton.mp hheight
    simp [shape, empty, leaves, marks, mark, List.range_succ, Nat.shiftLeft_eq,
      Nat.shiftRight_eq_div_pow]
    omega

namespace Regular

variable {t : CounterTree} {height : Nat}

theorem addAll (h : t.Regular height) (units : List Entry) : (t.addAll units).Regular height where
  height_mem := h.height_mem
  two_pow_dvd := by rw [leaves_addAll]; exact h.two_pow_dvd
  shape_eq := by rw [leaves_addAll, (t.addAll_frame units).2]; exact h.shape_eq

theorem height_bounds (h : t.Regular height) : 0 < height ∧ height ≤ 3 := by
  have := h.height_mem
  simp only [List.mem_cons, List.not_mem_nil, or_false] at this
  omega

theorem length_eq (h : t.Regular height) : t.levels.length = height := by
  have := congrArg List.length h.shape_eq
  simpa [shape] using this

theorem exists_level (h : t.Regular height) {index : Nat} (hi : index < height) : ∃ level,
    t.levels[index]? = some level ∧ level.mark = mark index ∧
      level.counters.size = t.leaves >>> index := by
  have hshape := congrArg (·[index]?) h.shape_eq
  simp only [shape, List.getElem?_map, List.getElem?_range hi, Option.map_some,
    Option.map_eq_some_iff, Prod.mk.injEq] at hshape
  exact hshape

theorem map_mark_eq (h : t.Regular height) : t.levels.map (·.mark) = marks.take height := by
  have hmarks : t.levels.map (·.mark) = (List.range height).map mark := by
    have := congrArg (List.map Prod.fst) h.shape_eq
    rw [shape, List.map_map, List.map_map] at this
    exact this
  rw [hmarks]
  rcases List.mem_cons.mp h.height_mem with rfl | hheight
  · rfl
  rcases List.mem_cons.mp hheight with rfl | hheight
  · rfl
  obtain rfl := List.mem_singleton.mp hheight
  rfl

theorem halving (h : t.Regular height) : Halving t.levels := by
  refine List.isChain_iff_getElem.mpr fun index hi => ?_
  rw [h.length_eq] at hi
  obtain ⟨level, hl, -, hsize⟩ := h.exists_level (Nat.lt_of_succ_lt hi)
  obtain ⟨parent, hp, -, hparent⟩ := h.exists_level hi
  obtain ⟨_, rfl⟩ := List.getElem?_eq_some_iff.mp hl
  obtain ⟨_, rfl⟩ := List.getElem?_eq_some_iff.mp hp
  -- the number of leaves can be halved once more
  obtain ⟨width, hwidth⟩ : 2 ^ (index + 1) ∣ t.leaves :=
    Nat.dvd_trans (Nat.pow_dvd_pow 2 (by omega)) h.two_pow_dvd
  rw [hsize, hparent, hwidth, Nat.shiftRight_eq_div_pow, Nat.shiftRight_eq_div_pow,
    Nat.mul_div_cancel_left _ (Nat.two_pow_pos _), Nat.pow_succ, Nat.mul_assoc,
    Nat.mul_div_cancel_left _ (Nat.two_pow_pos _)]

theorem exists_levels_eq_cons (h : t.Regular height) : ∃ first above,
    t.levels = first :: above ∧ first.mark = mark 0 ∧ first.counters.size = t.leaves := by
  obtain ⟨first, hl, hmark, hsize⟩ := h.exists_level h.height_bounds.1
  cases hlevels : t.levels with
  | nil => simp [hlevels] at hl
  | cons other above =>
    obtain rfl : other = first := by simpa [hlevels] using hl
    exact ⟨other, above, rfl, hmark, by simpa using hsize⟩

/-- What a path of counters can stand for. -/
theorem capacity_eq (h : t.Regular height) :
    capacity t.levels = ∑ level ∈ range height, (mark level - 1) := by
  have hmarks : capacity t.levels = ((marks.take height).map (· - 1)).sum := by
    rw [← h.map_mark_eq, List.map_map]
    rfl
  rw [hmarks]
  rcases List.mem_cons.mp h.height_mem with rfl | hheight
  · rfl
  rcases List.mem_cons.mp hheight with rfl | hheight
  · rfl
  obtain rfl := List.mem_singleton.mp hheight
  rfl

end Regular

namespace Absorbed

variable {t : CounterTree} {height level : Nat} {units : List Entry}

theorem counter_eq_min (h : t.Absorbed units) (hr : t.Regular height) {found : CounterLevel}
    (hl : t.levels[level]? = some found) (hlevel : level < height) (position : Nat) :
    found.counter position = min (t.inflow units level position) found.mark := by
  rw [h.holds.counter_eq hl position, hr.map_mark_eq, inflowAt_take _ _ (Nat.le_of_lt hlevel)]
  rfl

/-- Each counter is its inflow if that is below the mark, and the mark if not. -/
theorem counterAt_eq (h : t.Absorbed units) (hr : t.Regular height) (hlevel : level < height)
    {position : Nat} (hp : position < t.leaves >>> level) :
    t.counterAt level position = some (if t.inflow units level position < mark level
      then t.inflow units level position else mark level) := by
  obtain ⟨found, hl, hmark, hsize⟩ := hr.exists_level hlevel
  have hin : position < found.counters.size := by omega
  have hcounter := h.counter_eq_min hr hl hlevel position
  have hget : found.counters[position]? = some (found.counter position) := by
    rw [CounterLevel.counter, Array.getD_eq_getD_getElem?, Array.getElem?_eq_getElem hin]
    rfl
  rw [counterAt, hl, Option.bind_some, hget, hcounter, hmark]
  congr 1
  split <;> omega

theorem leaf_lt (h : t.Absorbed units) (hr : t.Regular height) (key : Key) :
    t.leaf key < t.leaves := by
  obtain ⟨first, above, hlevels, -, hsize⟩ := hr.exists_levels_eq_cons
  have hpath := h.hasPath key
  rw [hlevels] at hpath
  have := hpath.1
  omega

/-- The ancestor of a leaf is a position of its level. -/
theorem leaf_shiftRight_lt (h : t.Absorbed units) (hr : t.Regular height) (key : Key)
    (hlevel : level < height) : t.leaf key >>> level < t.leaves >>> level := by
  have hleaf := h.leaf_lt hr key
  obtain ⟨width, hwidth⟩ : 2 ^ level ∣ t.leaves :=
    Nat.dvd_trans (Nat.pow_dvd_pow 2 (by omega)) hr.two_pow_dvd
  rw [hwidth] at hleaf ⊢
  rw [Nat.shiftRight_eq_div_pow, Nat.shiftRight_eq_div_pow,
    Nat.mul_div_cancel_left _ (Nat.two_pow_pos _)]
  exact Nat.div_lt_of_lt_mul hleaf

/-- What the counters below a level stand for and the inflow of the level are the whole weight. -/
theorem weight_add_inflow (h : t.Absorbed units) (hr : t.Regular height) (hlevel : level < height) :
    ((t.levels.take level).map weight).sum
      + ∑ position ∈ range (t.leaves >>> level), t.inflow units level position
        = (units.map (·.count.toNat)).sum := by
  obtain ⟨found, hl, -, hsize⟩ := hr.exists_level hlevel
  obtain ⟨first, above, hlevels, -, hleaves⟩ := hr.exists_levels_eq_cons
  have hholds := h.holds
  have hhalving := hr.halving
  have hmarks := hr.map_mark_eq
  rw [hlevels] at hholds hhalving hmarks hl
  have haccount := hholds.weight_add_inflow hhalving hl
  rw [hmarks, inflowAt_take _ _ (Nat.le_of_lt hlevel), hsize, hleaves,
    sum_poured (h.leaf_lt hr)] at haccount
  rw [hlevels]
  exact haccount

/-- An estimate covers the weight of its key, as far as a path can stand for it. -/
theorem min_pouredOf_le_estimate (h : t.Absorbed units) (hr : t.Regular height) (key : Key) :
    min (pouredOf (· == key) units) (∑ level ∈ range height, (mark level - 1))
      ≤ t.estimate key := by
  have habove := h.holds.le_weightAbove (t.leaf key)
  have hkey : pouredOf (· == key) units ≤ pouredOf (t.leaf · == t.leaf key) units :=
    pouredOf_mono fun unit _ _ hk => by simp [show unit.key = key by simpa using hk]
  simp only [hr.capacity_eq, poured_eq_pouredOf] at habove
  rw [estimate]
  omega

/-- An estimate is at most the weight under the top ancestor of its key's leaf. -/
theorem estimate_le_pouredOf (h : t.Absorbed units) (hr : t.Regular height) (key : Key) :
    t.estimate key ≤ pouredOf (fun other =>
      t.leaf other >>> (height - 1) == t.leaf key >>> (height - 1)) units := by
  have hle := h.holds.weightAbove_le (t.leaf key)
  rw [hr.length_eq, poured_eq_pouredOf, gathered_pouredOf] at hle
  simpa only [estimate, Nat.shiftRight_eq_div_pow] using hle

/-- Where the leaf of a key is not saturated, the estimate is the weight of the leaf. -/
theorem estimate_eq_pouredOf (h : t.Absorbed units) (hr : t.Regular height) {key : Key}
    (hlt : pouredOf (t.leaf · == t.leaf key) units < mark 0) :
    t.estimate key = pouredOf (t.leaf · == t.leaf key) units := by
  obtain ⟨first, above, hlevels, hmark, -⟩ := hr.exists_levels_eq_cons
  have hholds := h.holds
  rw [hlevels, poured_eq_pouredOf] at hholds
  rw [estimate, hlevels]
  exact hholds.weightAbove_eq_of_lt (by rwa [hmark])

end Absorbed

end CounterTree

end HeavyHitters
