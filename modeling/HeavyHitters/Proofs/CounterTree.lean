import HeavyHitters.CounterTree
import HeavyHitters.Proofs.Weight
import Mathlib.Algebra.Ring.Nat

/-!
# What the counters of a tree hold

The counters of a tree are a function of the weight that was poured into its leaves, whatever the
order.  A level takes in an inflow at each position; a counter shows its inflow up to the mark, and
what an inflow has beyond the mark less one is the inflow of the parent.

* `CounterLevel.Holds` says that levels show an inflow in this way.
* `CounterLevel.Holds.carryUp` is the step: carrying weight up adds it to the inflow of one leaf.
* `CounterLevel.Holds.le_weightAbove` bounds an estimate from below by the inflow of its leaf.
* `CounterTree.Absorbed` says so of a tree and the units of weight it has been given.
-/

namespace HeavyHitters

namespace CounterLevel

/-! ## Inflows -/

/-- An inflow with more weight at one position. -/
def pour (inflow : Nat → Nat) (position weight : Nat) : Nat → Nat :=
  fun other => if other = position then inflow other + weight else inflow other

/-- What an inflow carries on to the parents. -/
def carried (mark : Nat) (inflow : Nat → Nat) : Nat → Nat :=
  fun parent => (inflow (2 * parent) - (mark - 1)) + (inflow (2 * parent + 1) - (mark - 1))

/-- Weight poured in at a position reaches the parent as far as it makes the inflow exceed. -/
theorem carried_pour (mark : Nat) (inflow : Nat → Nat) (position weight : Nat) :
    carried mark (pour inflow position weight) = pour (carried mark inflow) (position / 2)
      ((inflow position + weight - (mark - 1)) - (inflow position - (mark - 1))) := by
  funext parent
  simp only [carried, pour]
  by_cases hp : parent = position / 2
  · rw [if_pos hp]
    rcases Nat.mod_two_eq_zero_or_one position with h | h
    · obtain rfl : position = 2 * parent := by omega
      rw [if_pos rfl, if_neg (by omega)]
      omega
    · obtain rfl : position = 2 * parent + 1 := by omega
      rw [if_pos rfl, if_neg (by omega)]
      omega
  · rw [if_neg hp, if_neg (by omega), if_neg (by omega)]

theorem le_carried (mark : Nat) (inflow : Nat → Nat) (position : Nat) :
    inflow position - (mark - 1) ≤ carried mark inflow (position / 2) := by
  unfold carried
  rcases Nat.mod_two_eq_zero_or_one position with h | h
  · rw [show 2 * (position / 2) = position by omega]
    omega
  · rw [show 2 * (position / 2) + 1 = position by omega]
    omega

/-! ## Levels that show an inflow -/

/-- Every counter shows its inflow up to the mark, and the parents show what that carries on. -/
def Holds : List CounterLevel → (inflow : Nat → Nat) → Prop
  | [], _ => True
  | level :: above, inflow => 0 < level.mark ∧
      (∀ position, level.counter position = min (inflow position) level.mark) ∧
      Holds above (carried level.mark inflow)

/-- A position has an ancestor on every level. -/
def HasPath : List CounterLevel → (position : Nat) → Prop
  | [], _ => True
  | level :: above, position => position < level.counters.size ∧ HasPath above (position / 2)

/-- The counter at a position may be set to what it has to show of the inflow with more weight. -/
theorem counter_set_eq_min {level : CounterLevel} {inflow : Nat → Nat} {position weight value : Nat}
    (h : ∀ other, level.counter other = min (inflow other) level.mark)
    (hsize : position < level.counters.size)
    (hvalue : value = min (inflow position + weight) level.mark) (other : Nat) :
    (level.set position value).counter other
      = min (pour inflow position weight other) level.mark := by
  rw [counter_set, pour]
  by_cases hp : position = other
  · subst hp
    rw [if_pos ⟨rfl, hsize⟩, if_pos rfl, hvalue]
  · rw [if_neg fun hc => hp hc.1, if_neg (Ne.symm hp), h other]

theorem pour_zero (inflow : Nat → Nat) (position : Nat) : pour inflow position 0 = inflow := by
  funext other
  exact ite_self _

/-- **Carrying weight up adds it to the inflow of one position.** -/
theorem Holds.carryUp {levels : List CounterLevel} {inflow : Nat → Nat} (h : Holds levels inflow)
    {position : Nat} (path : HasPath levels position) (weight : Nat) :
    Holds (carryUp levels position weight) (pour inflow position weight) := by
  induction levels generalizing inflow position weight with
  | nil => trivial
  | cons level above ih =>
    obtain ⟨hmark, hcounter, habove⟩ := h
    obtain ⟨hsize, hpath⟩ := path
    have hvalue := hcounter position
    have hcarried := carried_pour level.mark inflow position weight
    simp only [CounterLevel.carryUp]
    split
    · -- the counter is not saturated, so it shows the whole of its inflow
      rename_i hlt
      split
      · rename_i hfit
        refine ⟨hmark, counter_set_eq_min hcounter hsize (by omega), ?_⟩
        rw [show (level.set position _).mark = level.mark from rfl, hcarried, show inflow position
          + weight - (level.mark - 1) - (inflow position - (level.mark - 1)) = 0 by
            omega, pour_zero]
        exact habove
      · rename_i hfull
        refine ⟨hmark, counter_set_eq_min hcounter hsize (by omega), ?_⟩
        rw [show (level.set position _).mark = level.mark from rfl, hcarried,
          show inflow position + weight - (level.mark - 1) - (inflow position - (level.mark - 1))
            = weight - (level.mark - 1 - level.counter position) by omega]
        exact ih habove hpath _
    · -- a saturated counter stays as it is, and the whole weight goes on
      rename_i hsat
      refine ⟨hmark, fun other => ?_, ?_⟩
      · rw [hcounter other, pour]
        by_cases hp : other = position
        · subst hp
          rw [if_pos rfl]
          omega
        · rw [if_neg hp]
      · rw [hcarried,
          show inflow position + weight - (level.mark - 1) - (inflow position - (level.mark - 1))
            = weight by omega]
        exact ih habove hpath _

theorem HasPath.carryUp {levels : List CounterLevel} {position : Nat}
    (h : HasPath levels position) (target weight : Nat) :
    HasPath (carryUp levels target weight) position := by
  induction levels generalizing position target weight with
  | nil => trivial
  | cons level above ih =>
    obtain ⟨hsize, hpath⟩ := h
    have hset : ∀ value, position < (level.set target value).counters.size := fun value => by
      rwa [CounterLevel.set, Array.size_setIfInBounds]
    simp only [CounterLevel.carryUp]
    split
    · split
      · exact ⟨hset _, hpath⟩
      · exact ⟨hset _, ih hpath _ _⟩
    · exact ⟨hsize, ih hpath _ _⟩

/-- The weight that a path of counters can stand for. -/
def capacity (levels : List CounterLevel) : Nat := (levels.map (·.mark - 1)).sum

/-- An estimate is no less than the inflow of its leaf, up to what a path can stand for. -/
theorem Holds.le_weightAbove {levels : List CounterLevel} {inflow : Nat → Nat}
    (h : Holds levels inflow) (position : Nat) :
    min (inflow position) (capacity levels) ≤ weightAbove levels position := by
  induction levels generalizing inflow position with
  | nil => exact Nat.min_le_right _ _
  | cons level above ih =>
    obtain ⟨hmark, hcounter, habove⟩ := h
    have hvalue := hcounter position
    have hparent := le_carried level.mark inflow position
    have hup := ih habove (position / 2)
    rw [capacity, List.map_cons, List.sum_cons, ← capacity]
    simp only [weightAbove]
    split <;> omega

theorem map_mark_carryUp (levels : List CounterLevel) (position weight : Nat) :
    (carryUp levels position weight).map (·.mark) = levels.map (·.mark) := by
  induction levels generalizing position weight with
  | nil => rfl
  | cons level above ih =>
    simp only [carryUp]
    split
    · split
      · rfl
      · rw [List.map_cons, ih]
        rfl
    · rw [List.map_cons, ih]
      rfl

theorem capacity_carryUp (levels : List CounterLevel) (position weight : Nat) :
    capacity (carryUp levels position weight) = capacity levels := by
  have h := congrArg (List.map (· - 1)) (map_mark_carryUp levels position weight)
  rw [List.map_map, List.map_map] at h
  exact congrArg List.sum h

end CounterLevel

namespace CounterTree

open CounterLevel

/-! ## Trees and units of weight -/

/-- The weight that units pour into a leaf; a unit without weight pours nothing in. -/
def poured (t : CounterTree) (units : List Entry) (leaf : Nat) : Nat :=
  (units.map fun unit => if t.leaf unit.key = leaf then unit.count.toNat else 0).sum

/-- The counters of a tree show the units of weight that were poured in. -/
structure Absorbed (t : CounterTree) (units : List Entry) : Prop where
  hasPath : ∀ key, HasPath t.levels (t.leaf key)
  holds : Holds t.levels (t.poured units)

theorem leaf_add (t : CounterTree) (key other : Key) (weight : Nat) :
    (t.add key weight).leaf other = t.leaf other := by
  have hsize : (t.add key weight).leaves = t.leaves := by
    obtain ⟨hash, levels⟩ := t
    cases levels with
    | nil => rfl
    | cons level above =>
      simp only [add, leaves, carryUp]
      split
      · split <;> simp [CounterLevel.set]
      · rfl
  rw [leaf, hsize, leaf]
  rfl

theorem poured_append_singleton (t : CounterTree) (units : List Entry) (unit : Entry) :
    t.poured (units ++ [unit]) = pour (t.poured units) (t.leaf unit.key) unit.count.toNat := by
  funext leaf
  simp only [poured, pour, List.map_append, List.sum_append, List.map_cons, List.map_nil,
    List.sum_singleton]
  by_cases hl : leaf = t.leaf unit.key
  · rw [if_pos hl.symm, if_pos hl]
  · rw [if_neg (Ne.symm hl), if_neg hl, Nat.add_zero]

/-- **One unit more keeps a tree in step with what was poured in.** -/
theorem Absorbed.add {t : CounterTree} {units : List Entry} (h : t.Absorbed units) (unit : Entry) :
    (t.add unit.key unit.count.toNat).Absorbed (units ++ [unit]) where
  hasPath key := by
    rw [leaf_add]
    exact (h.hasPath key).carryUp _ _
  holds := by
    have hpoured : (t.add unit.key unit.count.toNat).poured (units ++ [unit])
        = t.poured (units ++ [unit]) := by
      funext leaf
      simp only [poured, leaf_add]
    rw [hpoured, poured_append_singleton]
    exact h.holds.carryUp (h.hasPath unit.key) _

/-- A unit without weight changes nothing. -/
theorem Absorbed.append_of_nonpos {t : CounterTree} {units : List Entry} (h : t.Absorbed units)
    {unit : Entry} (hu : unit.count ≤ 0) : t.Absorbed (units ++ [unit]) where
  hasPath := h.hasPath
  holds := by
    rw [poured_append_singleton, Int.toNat_of_nonpos hu, pour_zero]
    exact h.holds

theorem weightOf_le_poured (t : CounterTree) (units : List Entry) (key : Key) :
    weightOf (· == key) units ≤ t.poured units (t.leaf key) := by
  induction units with
  | nil => exact Int.le_refl 0
  | cons unit units ih =>
    rw [weightOf_cons, poured, List.map_cons, List.sum_cons, ← poured]
    by_cases hk : unit.key = key
    · simp only [hk, BEq.rfl, if_true]
      omega
    · rw [if_neg (by simpa using hk)]
      omega

/-- An estimate is no less than the key's weight, up to what a path can stand for. -/
theorem Absorbed.le_estimate {t : CounterTree} {units : List Entry} (h : t.Absorbed units)
    (key : Key) : min (weightOf (· == key) units) (capacity t.levels) ≤ t.estimate key := by
  have hpoured := t.weightOf_le_poured units key
  have habove := h.holds.le_weightAbove (t.leaf key)
  rw [estimate]
  omega

/-! ## Empty trees -/

theorem holds_zero {levels : List CounterLevel}
    (h : ∀ level ∈ levels, 0 < level.mark ∧ ∀ position, level.counter position = 0) :
    Holds levels fun _ => 0 := by
  induction levels with
  | nil => trivial
  | cons level above ih =>
    obtain ⟨hmark, hcounter⟩ := h level List.mem_cons_self
    refine ⟨hmark, fun position => by rw [hcounter, Nat.zero_min], ?_⟩
    have hcarried : carried level.mark (fun _ => 0) = fun _ => 0 := by
      funext parent
      simp [carried]
    rw [hcarried]
    exact ih fun other hmem => h other (List.mem_cons_of_mem _ hmem)

theorem counter_replicate (mark size position : Nat) :
    (⟨mark, Array.replicate size 0⟩ : CounterLevel).counter position = 0 := by
  rw [counter, Array.getD_eq_getD_getElem?, Array.getElem?_replicate]
  split <;> rfl

theorem holds_empty (height width : Nat) (hash : KeyHash) :
    Holds (empty height width hash).levels fun _ => 0 := by
  refine holds_zero fun level hmem => ?_
  obtain ⟨index, hindex, rfl⟩ := List.mem_mapIdx.mp hmem
  refine ⟨?_, counter_replicate _ _⟩
  have hmark : ∀ mark ∈ marks, 0 < mark := by decide
  exact hmark _ (List.mem_of_mem_take (List.getElem_mem hindex))

/-- Every leaf of an empty tree has a path to the top, since each level has half as many counters as
the one below. -/
theorem hasPath_empty {height width : Nat} (hheight : height ∈ [1, 2, 3]) (hwidth : 0 < width)
    (hash : KeyHash) (key : Key) :
    HasPath (empty height width hash).levels ((empty height width hash).leaf key) := by
  have hleaf : (empty height width hash).leaf key
      = (hash.hash key).toNat % (width <<< (height - 1)) := by
    rcases List.mem_cons.mp hheight with rfl | hheight
    · simp [leaf, leaves, empty, marks]
    rcases List.mem_cons.mp hheight with rfl | hheight
    · simp [leaf, leaves, empty, marks]
    obtain rfl := List.mem_singleton.mp hheight
    simp [leaf, leaves, empty, marks]
  -- halving a leaf once for each level leaves less than `width`
  have hpos : 0 < width <<< (height - 1) := by
    rw [Nat.shiftLeft_eq]
    exact Nat.mul_pos hwidth (Nat.two_pow_pos _)
  have hlt := Nat.mod_lt (hash.hash key).toNat hpos
  rw [← hleaf] at hlt
  generalize (empty height width hash).leaf key = leaf at hlt ⊢
  rcases List.mem_cons.mp hheight with rfl | hheight
  · simpa [empty, marks, HasPath] using hlt
  rcases List.mem_cons.mp hheight with rfl | hheight
  · simp [empty, marks, HasPath, Nat.shiftLeft_eq] at hlt ⊢
    omega
  obtain rfl := List.mem_singleton.mp hheight
  simp [empty, marks, HasPath, Nat.shiftLeft_eq] at hlt ⊢
  omega

theorem absorbed_empty {height width : Nat} (hheight : height ∈ [1, 2, 3]) (hwidth : 0 < width)
    (hash : KeyHash) : (empty height width hash).Absorbed [] where
  hasPath := hasPath_empty hheight hwidth hash
  holds := holds_empty height width hash

theorem capacity_empty (height width : Nat) (hash : KeyHash) :
    capacity (empty height width hash).levels = ((marks.take height).map (· - 1)).sum := by
  have hmarks : (empty height width hash).levels.map (·.mark) = marks.take height := by
    refine List.ext_getElem ?_ fun index _ _ => ?_
    · simp [empty]
    · simp [empty]
  rw [capacity, ← hmarks, List.map_map]
  rfl

end CounterTree

end HeavyHitters
