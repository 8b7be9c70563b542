import HeavyHitters.Cell
import Mathlib.Algebra.BigOperators.Group.Finset.Piecewise
import Mathlib.Algebra.Ring.Int.Defs
import Mathlib.Data.List.ReduceOption

/-!
# Weight of selected keys

Accounts of weight are kept for sets of keys, given by a test on keys.  One law for every set covers
what is asked of a single key (the set of that key), of a network (the set of its keys) and of the
whole (the set of all keys), and needs no look at where a unit is held.

* `weightOf` is the weight of the selected keys in a list of units.
* `Transfer` says that a unit was handed over: the weight of every set of keys that it brought is
  held afterwards or was given on.
-/

namespace HeavyHitters

/-- The weight that the units of the selected keys have together. -/
def weightOf (select : Key → Bool) : List Entry → Int
  | [] => 0
  | unit :: units => (if select unit.key then unit.count else 0) + weightOf select units

/-- All keys. -/
def allKeys : Key → Bool := fun _ => true

section

variable {select : Key → Bool} {units : List Entry}

@[simp] theorem weightOf_nil : weightOf select [] = 0 := rfl

@[simp] theorem weightOf_cons (unit : Entry) (units : List Entry) :
    weightOf select (unit :: units)
      = (if select unit.key then unit.count else 0) + weightOf select units :=
  rfl

@[simp] theorem weightOf_append (us vs : List Entry) :
    weightOf select (us ++ vs) = weightOf select us + weightOf select vs := by
  induction us with
  | nil => simp
  | cons u us ih => rw [List.cons_append, weightOf_cons, weightOf_cons, ih, Int.add_assoc]

theorem weightOf_perm {us vs : List Entry} (h : us.Perm vs) :
    weightOf select us = weightOf select vs := by
  induction h with
  | nil => rfl
  | cons u _ ih => rw [weightOf_cons, weightOf_cons, ih]
  | swap u v us => simp only [weightOf_cons]; omega
  | trans _ _ ih₁ ih₂ => rw [ih₁, ih₂]

/-- The weight of all keys is the sum of all counts. -/
theorem weightOf_allKeys (units : List Entry) :
    weightOf allKeys units = (units.map (·.count)).sum := by
  induction units with
  | nil => rfl
  | cons u us ih => rw [weightOf_cons, ih, List.map_cons, List.sum_cons]; rfl

theorem weightOf_nonneg (h : ∀ u ∈ units, 0 ≤ u.count) : 0 ≤ weightOf select units := by
  induction units with
  | nil => simp
  | cons u us ih =>
    have hu : 0 ≤ u.count := h u List.mem_cons_self
    have hus := ih fun v hv => h v (List.mem_cons_of_mem u hv)
    rw [weightOf_cons]
    split <;> omega

/-- A greater set of keys has no less weight. -/
theorem weightOf_mono {larger : Key → Bool} (hs : ∀ key, select key = true → larger key = true)
    (h : ∀ u ∈ units, 0 ≤ u.count) : weightOf select units ≤ weightOf larger units := by
  induction units with
  | nil => simp
  | cons u us ih =>
    have hu : 0 ≤ u.count := h u List.mem_cons_self
    have hus := ih fun v hv => h v (List.mem_cons_of_mem u hv)
    rw [weightOf_cons, weightOf_cons]
    by_cases hk : select u.key = true
    · rw [if_pos hk, if_pos (hs _ hk)]
      omega
    · rw [if_neg hk]
      split <;> omega

theorem weightOf_le_all (h : ∀ u ∈ units, 0 ≤ u.count) :
    weightOf select units ≤ weightOf allKeys units :=
  weightOf_mono (fun _ _ => rfl) h

/-- Selected keys weigh no less than any of their units. -/
theorem le_weightOf_of_mem (h : ∀ u ∈ units, 0 ≤ u.count) {u : Entry} (hu : u ∈ units)
    (hs : select u.key = true) : u.count ≤ weightOf select units := by
  obtain ⟨before, after, rfl⟩ := List.append_of_mem hu
  have hbefore : 0 ≤ weightOf select before :=
    weightOf_nonneg fun v hv => h v (List.mem_append_left _ hv)
  have hafter : 0 ≤ weightOf select after :=
    weightOf_nonneg fun v hv => h v (List.mem_append_right _ (List.mem_cons_of_mem u hv))
  rw [weightOf_append, weightOf_cons, if_pos hs]
  omega

/-- Selected keys weigh what they weigh one by one. -/
theorem weightOf_eq_sum {S : Finset Key} (h : ∀ u ∈ units, u.key ∈ S) :
    weightOf select units = ∑ key ∈ S with select key, weightOf (· == key) units := by
  induction units with
  | nil => simp
  | cons u us ih =>
    have hu : u.key ∈ S := h u List.mem_cons_self
    rw [weightOf_cons, ih fun v hv => h v (List.mem_cons_of_mem u hv)]
    simp [Finset.sum_add_distrib, hu]

/-- Sets that tell no two units apart weigh the same. -/
theorem weightOf_congr_left {other : Key → Bool} (h : ∀ u ∈ units, select u.key = other u.key) :
    weightOf select units = weightOf other units := by
  induction units with
  | nil => rfl
  | cons u us ih =>
    rw [weightOf_cons, weightOf_cons, h u List.mem_cons_self, ih fun v hv =>
      h v (List.mem_cons_of_mem u hv)]

/-- Where every key weighs the same, so does every set of keys. -/
theorem weightOf_congr {others : List Entry}
    (h : ∀ key, weightOf (· == key) others = weightOf (· == key) units) :
    weightOf select others = weightOf select units := by
  have hmem : ∀ u ∈ others ++ units, u.key ∈ ((others ++ units).map (·.key)).toFinset :=
    fun u hu => List.mem_toFinset.mpr (List.mem_map_of_mem hu)
  rw [weightOf_eq_sum fun u hu => hmem u (List.mem_append_left units hu),
    weightOf_eq_sum fun u hu => hmem u (List.mem_append_right others hu)]
  exact Finset.sum_congr rfl fun key _ => h key

/-- Units with the counts negated take the weight back. -/
theorem weightOf_negated (units : List Entry) :
    weightOf select (units.map fun unit => ⟨unit.key, -unit.count⟩) = -weightOf select units := by
  induction units with
  | nil => rfl
  | cons u us ih =>
    simp only [List.map_cons, weightOf_cons, ih]
    split <;> omega

/-- Keys that no unit has weigh nothing. -/
theorem weightOf_eq_zero (h : ∀ u ∈ units, select u.key = false) : weightOf select units = 0 := by
  induction units with
  | nil => rfl
  | cons u us ih =>
    rw [weightOf_cons, if_neg (by simp [h u List.mem_cons_self]),
      ih fun v hv => h v (List.mem_cons_of_mem u hv), Int.zero_add]

/-- Two sets that have no key in common weigh together what both weigh. -/
theorem weightOf_or {other : Key → Bool} (h : ∀ key, select key = true → other key = false) :
    weightOf (fun key => select key || other key) units = weightOf select units +
      weightOf other units := by
  induction units with
  | nil => rfl
  | cons u us ih =>
    rw [weightOf_cons, weightOf_cons, weightOf_cons, ih]
    cases hs : select u.key with
    | false =>
      simp only [Bool.false_or, Bool.false_eq_true, if_false]
      omega
    | true =>
      simp only [h u.key hs, Bool.or_false, Bool.false_eq_true, if_true, if_false]
      omega

/-- Groups that are told apart by a value weigh together what their keys weigh. -/
theorem sum_map_weightOf {κ : Type} [BEq κ] [LawfulBEq κ] (group : Key → κ) {values : List κ}
    (hnodup : values.Nodup) (units : List Entry) :
    (values.map fun value => weightOf (group · == value) units).sum
      = weightOf (fun key => values.contains (group key)) units := by
  induction values with
  | nil => exact (weightOf_eq_zero fun u _ => rfl).symm
  | cons value values ih =>
    obtain ⟨hvalue, hnodup⟩ := List.nodup_cons.mp hnodup
    rw [List.map_cons, List.sum_cons, ih hnodup, ← weightOf_or]
    · simp only [List.contains_cons]
    · intro key hkey
      rw [eq_of_beq hkey]
      simpa using hvalue

/-- The units of the selected keys weigh together what the selected keys weigh. -/
theorem weightOf_allKeys_filter (select : Key → Bool) (units : List Entry) :
    weightOf allKeys (units.filter fun unit => select unit.key) = weightOf select units := by
  induction units with
  | nil => rfl
  | cons u us ih =>
    rw [List.filter_cons, weightOf_cons]
    split
    · rw [weightOf_cons, ih]
      rfl
    · rw [ih, Int.zero_add]

theorem weightOf_filterMap_cons {α : Type} (f : α → Option Entry) (a : α) (as : List α) :
    weightOf select ((a :: as).filterMap f)
      = weightOf select (f a).toList + weightOf select (as.filterMap f) := by
  rw [List.filterMap_cons]
  cases f a <;> simp

/-- Replacing one element of a list changes the weight by what the old
and the new one contribute. -/
theorem weightOf_filterMap_set (select : Key → Bool) {α : Type} {f : α → Option Entry}
    {as : List α} {i : Nat} {old : α} (new : α) (h : as[i]? = some old) :
    weightOf select ((as.set i new).filterMap f) + weightOf select (f old).toList
      = weightOf select (as.filterMap f) + weightOf select (f new).toList := by
  induction as generalizing i with
  | nil => simp at h
  | cons a as ih =>
    cases i with
    | zero =>
      obtain rfl : a = old := by simpa using h
      rw [List.set_cons_zero, weightOf_filterMap_cons, weightOf_filterMap_cons]
      omega
    | succ i =>
      have := ih (i := i) (by simpa using h)
      rw [List.set_cons_succ, weightOf_filterMap_cons, weightOf_filterMap_cons]
      omega

/-- Where all elements but one contribute nothing, that one contributes everything. -/
theorem weightOf_filterMap_of_only {α : Type} {f : α → Option Entry} {as : List α} {i : Nat}
    (h : ∀ j a e, as[j]? = some a → f a = some e → select e.key = true → j = i) :
    weightOf select (as.filterMap f) = weightOf select (as[i]?.bind f).toList := by
  induction as generalizing i with
  | nil => simp
  | cons a as ih =>
    rw [weightOf_filterMap_cons]
    cases i with
    | zero =>
      have hrest : weightOf select (as.filterMap f) = 0 := by
        refine weightOf_eq_zero fun e he => ?_
        obtain ⟨b, hb, hf⟩ := List.mem_filterMap.mp he
        obtain ⟨j, hj⟩ := List.getElem?_of_mem hb
        by_contra hk
        have := h (j + 1) b e (by simpa using hj) hf (by simpa using hk)
        omega
      rw [hrest, Int.add_zero, List.getElem?_cons_zero, Option.bind_some]
    | succ i =>
      have hhead : weightOf select (f a).toList = 0 := by
        refine weightOf_eq_zero fun e he => ?_
        by_contra hk
        have := h 0 a e (by simp) (by simpa using he) (by simpa using hk)
        omega
      rw [hhead, Int.zero_add, List.getElem?_cons_succ]
      exact ih fun j b e hb hf hk => by
        have := h (j + 1) b e (by simpa using hb) hf hk
        omega

end

/--
A unit was handed over to a holder of units: of every set of keys the holder has afterwards,
together with what was given on, the weight it had before together with the unit's.
-/
structure Transfer (unit : Entry) (before after : List Entry) (given : Option Entry) : Prop where
  positive : ∀ e ∈ given, 1 ≤ e.count
  weight_eq : ∀ select, weightOf select after + weightOf select given.toList
    = weightOf select before + weightOf select [unit]

namespace Transfer

variable {unit : Entry} {before after : List Entry} {given : Option Entry}

/-- What is held beside does not matter. -/
theorem append_left (h : Transfer unit before after given) (held : List Entry) :
    Transfer unit (held ++ before) (held ++ after) given :=
  ⟨h.positive, fun select => by
    have := h.weight_eq select
    rw [weightOf_append, weightOf_append]
    omega⟩

theorem append_right (h : Transfer unit before after given) (held : List Entry) :
    Transfer unit (before ++ held) (after ++ held) given :=
  ⟨h.positive, fun select => by
    have := h.weight_eq select
    rw [weightOf_append, weightOf_append]
    omega⟩

/-- A unit that is given on may be handed over to a second holder. -/
theorem trans {passed : Entry} {before' after' : List Entry}
    (h : Transfer unit before after (some passed)) (h' : Transfer passed before' after' given) :
    Transfer unit (before ++ before') (after ++ after') given :=
  ⟨h'.positive, fun select => by
    have := h.weight_eq select
    have := h'.weight_eq select
    rw [weightOf_append, weightOf_append]
    simp only [Option.toList_some] at *
    omega⟩

end Transfer

end HeavyHitters
