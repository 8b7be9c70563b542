import HeavyHitters.Estimator.CountMin
import HeavyHitters.Estimator.TreeSketch
import HeavyHitters.Proofs.CounterTree
import HeavyHitters.Proofs.Estimator.Raising

/-!
# Estimates that are never too low

Count-min, its conservative variant and the tree sketch err to one side only: no estimate is below
the weight that the key was given, as long as the total weight fits a counter.

* `Estimator.OneSided` is an invariant that relates an estimator to the units it has been given,
  together with the bound on its answers.
* `Estimator.OneSided.given_insertAll` carries the invariant along a run.
* `FreshOneSided` lists the three estimators as they are built, and `FreshOneSided.oneSided` reduces
  each of them to its invariant.
-/

namespace HeavyHitters

namespace Estimator

variable {ε : Type} [Estimator ε]

/-- An invariant of an estimator and the units it has been given, under
which no answer is too low. -/
structure OneSided (Given : List Entry → ε → Prop) : Prop where
  given_insert : ∀ {units : List Entry} {e e' : ε} {unit : Entry}, Given units e →
    0 ≤ unit.count → insert e unit.key unit.count = .ok e' → Given (units ++ [unit]) e'
  le_query : ∀ {units : List Entry} {e : ε}, Given units e → (∀ unit ∈ units, 0 ≤ unit.count) →
    weightOf allKeys units ≤ Count.greatest → ∀ key,
    ∃ estimate, query e key = .ok estimate ∧ weightOf (· == key) units ≤ estimate

theorem OneSided.given_insertAll {Given : List Entry → ε → Prop} (h : OneSided Given)
    {units more : List Entry} {e e' : ε} (he : Given units e) (hpos : ∀ unit ∈ more, 0 ≤ unit.count)
    (run : insertAll e more = .ok e') : Given (units ++ more) e' :=
  Checked.past_foldlM h.given_insert he hpos run

end Estimator

/-! ## Count-min -/

namespace CountMin

/-- Every counter shows the units that were given. -/
def Given (units : List Entry) (s : CountMin) : Prop :=
  s.rows ≠ [] ∧ ∀ row ∈ s.rows, row.Shows units

/-- An insert keeps what the counters show, whatever the sign of its weight. -/
theorem Given.insert {units : List Entry} {s s' : CountMin} {unit : Entry} (h : Given units s)
    (hi : s.insert unit.key unit.count = .ok s') : Given (units ++ [unit]) s' := by
  obtain ⟨hne, hshows⟩ := h
  obtain ⟨rows, hm, hi⟩ := Checked.bind_eq_ok.mp hi
  obtain rfl := Checked.pure_eq_ok.mp hi
  refine ⟨?_, fun row' hr => ?_⟩
  · rintro rfl
    exact hne (List.eq_nil_of_length_eq_zero (Checked.length_mapM hm).symm)
  · obtain ⟨row, hmem, hu⟩ := Checked.exists_of_mem_mapM hm hr
    exact (hshows row hmem).update hu

theorem oneSided : Estimator.OneSided Given where
  given_insert h _ hi := h.insert hi
  le_query {units s} h hpos _ key := by
    obtain ⟨estimate, hq, hle⟩ :=
      Row.exists_leastOf h.1 (fun row hr => (h.2 row hr).covers hpos) key
    exact ⟨estimate, Outcome.ofChecked_eq_ok.mpr hq, hle⟩

theorem given_of_ofBudget {memory rows width : Nat} {seed : UInt64} {s : CountMin}
    (h : ofBudget memory rows width seed = .ok s) : Given [] s := by
  obtain ⟨length, hrows, hlength, -, rfl⟩ := exists_length_of_budget h
  exact ⟨table_ne_nil hrows _ _ _, Row.shows_table hlength _⟩

end CountMin

/-! ## Conservative update -/

namespace Conservative

/-- Every counter covers the units that were given. -/
def Given (units : List Entry) (s : Conservative) : Prop :=
  s.rows ≠ [] ∧ ∀ row ∈ s.rows, row.Covers units

variable {units : List Entry} {unit : Entry} {rows rows' : List (Row Int)}

/-- A unit of a key that is held in some row fits together with the weight of its key, since the
counter that is read for it covers that weight. -/
theorem weight_le_greatest_of_raising (hne : rows ≠ []) (h : ∀ row ∈ rows, row.Covers units)
    {limit : Int} (hr : Raising unit.key unit.count limit rows rows') :
    weightOf (· == unit.key) units + unit.count ≤ Count.greatest := by
  cases hr with
  | nil => exact absurd rfl hne
  | @cons _ current row _ _ hget hfits _ =>
    have := (h row List.mem_cons_self).le_get _ _ hget
    have := hfits.2
    omega

/-- **Raising with a limit keeps the weights covered**, if the limit covers the weight of the raised
key: a counter is raised to no less than the limit, or by the whole unit. -/
theorem covers_of_raising {limit : Int} (hr : Raising unit.key unit.count limit rows rows')
    (hunit : 0 ≤ unit.count) (h : ∀ row ∈ rows, row.Covers units)
    (hlimit : weightOf (· == unit.key) units + unit.count ≤ limit) :
    rows'.length = rows.length ∧ ∀ row ∈ rows', row.Covers (units ++ [unit]) := by
  induction hr with
  | nil => exact ⟨rfl, fun row hmem => nomatch hmem⟩
  | @cons limit current row rows rows' hget hfits hrest ih =>
    have hrow := h row List.mem_cons_self
    have hcurrent := hrow.le_get _ _ hget
    obtain ⟨hlength, hothers⟩ :=
      ih (fun other ho => h other (List.mem_cons_of_mem row ho)) (by omega)
    refine ⟨congrArg (· + 1) hlength, List.forall_mem_cons.mpr ⟨?_, hothers⟩⟩
    exact hrow.set hget (by omega) (by omega)

theorem oneSided : Estimator.OneSided Given where
  given_insert {units s s' unit} h hunit hi := by
    obtain ⟨rows, hr, hi⟩ := Checked.bind_eq_ok.mp hi
    obtain rfl := Checked.pure_eq_ok.mp hi
    have hraising := (raise_eq_ok_iff hunit).mp hr
    have hfits := weight_le_greatest_of_raising h.1 h.2 hraising
    obtain ⟨hlength, hcovers⟩ := covers_of_raising hraising hunit h.2 hfits
    refine ⟨?_, hcovers⟩
    rintro rfl
    exact h.1 (List.eq_nil_of_length_eq_zero hlength.symm)
  le_query {units s} h _ _ key := by
    obtain ⟨estimate, hq, hle⟩ := Row.exists_leastOf h.1 h.2 key
    exact ⟨estimate, Outcome.ofChecked_eq_ok.mpr hq, hle⟩

theorem given_of_ofBudget {memory rows width : Nat} {seed : UInt64} {s : Conservative}
    (h : ofBudget memory rows width seed = .ok s) : Given [] s := by
  obtain ⟨length, hrows, hlength, -, rfl⟩ := exists_length_of_budget h
  refine ⟨table_ne_nil hrows _ _ _, fun row hr => ?_⟩
  exact (Row.shows_table hlength _ row hr).covers fun unit hu => nomatch hu

end Conservative

/-! ## Trees -/

namespace TreeSketch

/-- Every tree shows the units that were given. -/
def Given (units : List Entry) (s : TreeSketch) : Prop :=
  s.trees ≠ [] ∧ ∀ tree ∈ s.trees, tree.Absorbed units

/-- A path of counters can stand for any weight that fits. -/
def Spacious (s : TreeSketch) : Prop :=
  ∀ tree ∈ s.trees, Count.greatest ≤ CounterLevel.capacity tree.levels

theorem Given.insert {units : List Entry} {s : TreeSketch} (h : Given units s) (unit : Entry) :
    Given (units ++ [unit]) (s.insert unit.key unit.count) := by
  unfold TreeSketch.insert
  split
  · rename_i hweight
    exact ⟨h.1, fun tree ht => (h.2 tree ht).append_of_nonpos hweight⟩
  · refine ⟨fun he => h.1 (List.map_eq_nil_iff.mp he), fun raised hr => ?_⟩
    obtain ⟨tree, ht, rfl⟩ := List.mem_map.mp hr
    exact (h.2 tree ht).add unit

theorem Spacious.insert {s : TreeSketch} (h : s.Spacious) (key : Key) (weight : Int) :
    (s.insert key weight).Spacious := by
  unfold TreeSketch.insert
  split
  · exact h
  · intro raised hr
    obtain ⟨tree, ht, rfl⟩ := List.mem_map.mp hr
    show Count.greatest ≤ CounterLevel.capacity (CounterLevel.carryUp tree.levels _ _)
    rw [CounterLevel.capacity_carryUp]
    exact h tree ht

theorem oneSided : Estimator.OneSided fun units s => Given units s ∧ Spacious s where
  given_insert {units s s' unit} h _ hi := by
    obtain rfl := Except.ok.inj hi
    exact ⟨h.1.insert unit, h.2.insert unit.key unit.count⟩
  le_query {units s} h hpos htotal key := by
    refine ⟨_, rfl, ?_⟩
    have hkey := @weightOf_le_all (· == key) units hpos
    have hne : (s.trees.map fun tree => (tree.estimate key : Int)) ≠ [] := fun he =>
      h.1.1 (List.map_eq_nil_iff.mp he)
    refine le_min ((Count.le_leastOf_iff hne).mpr fun estimate he => ?_) (by omega)
    obtain ⟨tree, ht, rfl⟩ := List.mem_map.mp he
    have := (h.1.2 tree ht).le_estimate key
    have := h.2 tree ht
    omega

/-- A built sketch has two empty trees of the height that belongs to the width. -/
theorem ofBudget_eq_ok {memory width : Nat} {seed : UInt64} {s : TreeSketch}
    (h : ofBudget memory width seed = .ok s) :
    ∃ height length, heightOf width = some height ∧ length ≠ 0 ∧
      s = ⟨height, (SeedStream.hashes ⟨seed⟩ treeCount).1.map
        (CounterTree.empty height length)⟩ := by
  unfold ofBudget at h
  split at h
  · cases h
  · rename_i height hheight
    dsimp only at h
    split at h
    · exact absurd h refuse_bind_ne_ok
    · rename_i hlength
      obtain ⟨-, -, h⟩ := Checked.bind_eq_ok.mp h
      obtain rfl := Checked.pure_eq_ok.mp h
      exact ⟨height, _, hheight, hlength, rfl⟩

theorem mem_of_heightOf {width height : Nat} (h : heightOf width = some height) :
    height ∈ [1, 2, 3] := by
  unfold heightOf at h
  split at h <;> simp_all

theorem given_of_ofBudget {memory width : Nat} {seed : UInt64} {s : TreeSketch}
    (h : ofBudget memory width seed = .ok s) : Given [] s := by
  obtain ⟨height, length, hheight, hlength, rfl⟩ := ofBudget_eq_ok h
  refine ⟨fun he => ?_, fun tree ht => ?_⟩
  · have hhashes := SeedStream.length_hashes ⟨seed⟩ treeCount
    rw [List.map_eq_nil_iff.mp he] at hhashes
    cases hhashes
  obtain ⟨hash, -, rfl⟩ := List.mem_map.mp ht
  exact CounterTree.absorbed_empty (mem_of_heightOf hheight) (Nat.pos_of_ne_zero hlength) hash

/-- With counters of up to four bytes a path can stand for more than a count can hold. -/
theorem spacious_of_ofBudget {memory : Nat} {seed : UInt64} {s : TreeSketch}
    (h : ofBudget memory 4 seed = .ok s) : s.Spacious := by
  obtain ⟨height, length, hheight, -, rfl⟩ := ofBudget_eq_ok h
  obtain rfl : 3 = height := Option.some.inj hheight
  intro tree ht
  obtain ⟨hash, -, rfl⟩ := List.mem_map.mp ht
  rw [CounterTree.capacity_empty]
  decide

end TreeSketch

/-! ## As they are built -/

/-- An estimator of one of the three kinds, as it is built from a budget and a seed. -/
inductive FreshOneSided : (ε : Type) → [Estimator ε] → ε → Prop where
  | countMin {memory rows width : Nat} {seed : UInt64} {e : CountMin}
      (built : CountMin.ofBudget memory rows width seed = .ok e) : FreshOneSided CountMin e
  | conservative {memory rows width : Nat} {seed : UInt64} {e : Conservative}
      (built : Conservative.ofBudget memory rows width seed = .ok e) : FreshOneSided Conservative e
  /-- Only with counters of four bytes the trees can show every weight that fits. -/
  | treeSketch {memory : Nat} {seed : UInt64} {e : TreeSketch}
      (built : TreeSketch.ofBudget memory 4 seed = .ok e) : FreshOneSided TreeSketch e

/-- A built estimator has been given nothing, in an invariant under which no answer is too low. -/
theorem FreshOneSided.oneSided {ε : Type} [Estimator ε] {start : ε} (h : FreshOneSided ε start) :
    ∃ Given : List Entry → ε → Prop, Estimator.OneSided Given ∧ Given [] start := by
  cases h with
  | countMin built => exact ⟨_, CountMin.oneSided, CountMin.given_of_ofBudget built⟩
  | conservative built => exact ⟨_, Conservative.oneSided, Conservative.given_of_ofBudget built⟩
  | treeSketch built =>
    exact ⟨_, TreeSketch.oneSided, TreeSketch.given_of_ofBudget built,
      TreeSketch.spacious_of_ofBudget built⟩

end HeavyHitters
