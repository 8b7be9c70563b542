import HeavyHitters.Proofs.CounterTree.Totals
import HeavyHitters.Proofs.Estimator.OneSided
import Mathlib.Algebra.Order.BigOperators.Group.Finset

/-!
# What a tree sketch holds and answers

Each tree of a sketch shows the totals of its leaves and nothing else of what was
inserted.  An answer is never below the weight of its key, as far as a path of counters
and a count can hold it, and never above the weight that came in under the ancestor of the
key's leaf at the top, in either tree.

* `TreeSketch.insertAll_eq` says that a run of a sketch is a run of each of its trees.
* `TreeSketch.Reflects` is what the counters are to the units that were inserted, and
  `TreeSketch.reflects_of_insertAll` says that every run of a built sketch leads to it.
* `TreeSketch.Bounds` is what an answer is to the units, and `TreeSketch.bounds_of_insertAll` says
  that every answer after a run keeps to it.
-/

namespace HeavyHitters

open Finset

namespace TreeSketch

/-! ## Runs -/

/-- Adds units to each tree, in order. -/
def addAll (s : TreeSketch) (units : List Entry) : TreeSketch :=
  { s with trees := s.trees.map (·.addAll units) }

theorem insert_eq_addAll (s : TreeSketch) (key : Key) (weight : Int) :
    s.insert key weight = s.addAll [⟨key, weight⟩] := by
  unfold insert addAll
  split
  · next hw => simp [CounterTree.addAll_singleton, hw]
  · next hw => simp [CounterTree.addAll_singleton, hw]

theorem addAll_append (s : TreeSketch) (units others : List Entry) :
    s.addAll (units ++ others) = (s.addAll units).addAll others := by
  simp [addAll, CounterTree.addAll_append]

/-- A run of a sketch is a run of each of its trees. -/
theorem insertAll_eq (s : TreeSketch) (units : List Entry) :
    Estimator.insertAll s units = .ok (s.addAll units) := by
  induction units generalizing s with
  | nil => simp [addAll, CounterTree.addAll]
  | cons unit units ih =>
    rw [Estimator.insertAll_cons]
    show Estimator.insertAll (s.insert unit.key unit.count) units = _
    rw [ih, insert_eq_addAll, ← addAll_append]
    rfl

/-- The trees of a sketch are of its height and show the units that they were given. -/
def Grown (units : List Entry) (s : TreeSketch) : Prop :=
  ∀ tree ∈ s.trees, tree.Regular s.height ∧ tree.Absorbed units

theorem Grown.addAll {past : List Entry} {s : TreeSketch} (h : Grown past s) (units : List Entry) :
    Grown (past ++ units) (s.addAll units) := by
  intro tree ht
  obtain ⟨root, hr, rfl⟩ := List.mem_map.mp ht
  exact ⟨(h root hr).1.addAll units, (h root hr).2.addAll units⟩

/-- Units with the same leaf totals lead to the same sketch. -/
theorem Grown.addAll_eq {s : TreeSketch} (h : Grown [] s) {units others : List Entry}
    (heq : ∀ tree ∈ s.trees, ∀ leaf, tree.poured others leaf = tree.poured units leaf) :
    s.addAll others = s.addAll units := by
  unfold TreeSketch.addAll
  congr 1
  exact List.map_congr_left fun tree ht =>
    CounterTree.addAll_eq_of_poured_eq (h tree ht).2 (funext (heq tree ht))

/-- A built sketch has two trees, to which nothing was given. -/
theorem grown_of_ofBudget {memory width : Nat} {seed : UInt64} {s : TreeSketch}
    (h : ofBudget memory width seed = .ok s) :
    s.trees.length = treeCount ∧ Grown [] s := by
  obtain ⟨height, length, hheight, hlength, rfl⟩ := ofBudget_eq_ok h
  have hmem := mem_of_heightOf hheight
  refine ⟨by rw [List.length_map, SeedStream.length_hashes], fun tree ht => ?_⟩
  obtain ⟨hash, -, rfl⟩ := List.mem_map.mp ht
  exact ⟨CounterTree.regular_empty hmem _ hash,
    CounterTree.absorbed_empty hmem (Nat.pos_of_ne_zero hlength) hash⟩

/-! ## What the counters are -/

/-- Reading the counter on a key's path reads the counter of its leaf's ancestor. -/
theorem Grown.counter_eq_counterAt {units : List Entry} {s : TreeSketch} (h : Grown units s)
    {index level : Nat} {tree : CounterTree} (ht : s.trees[index]? = some tree)
    (hlevel : level < s.height) {key : Key} {value : Nat}
    (hvalue : tree.counterAt level (tree.leaf key >>> level) = some value) :
    s.counter index level key = .ok value := by
  have hheight := (h tree (List.mem_of_getElem? ht)).1.height_bounds
  obtain ⟨found, hfound, hget⟩ := Option.bind_eq_some_iff.mp hvalue
  have hlevels : (s.trees.flatMap (·.levels))[index * s.height + level]? = some found := by
    rw [getElem?_flatMap_of_length (fun other ho => (h other ho).1.length_eq) hlevel, ht,
      Option.bind_some, hfound]
  unfold counter
  rw [ht]
  dsimp only
  rw [if_neg (by omega), hlevels]
  dsimp only [bind, Except.bind, pure, Except.pure]
  rw [hget]

/-- What the counters of a sketch are to the units that were inserted into a built one. -/
structure Reflects (start s : TreeSketch) (units : List Entry) : Prop where
  length_trees : s.trees.length = treeCount
  /-- Each counter is the inflow of its position if that is below the mark, and the mark if not. -/
  counterAt_eq : ∀ tree ∈ s.trees, ∀ level < s.height, ∀ position < tree.leaves >>> level,
    tree.counterAt level position = some
      (if tree.inflow units level position < CounterTree.mark level
        then tree.inflow units level position else CounterTree.mark level)
  /-- So is the counter that is read for a key. -/
  counter_eq : ∀ index tree, s.trees[index]? = some tree → ∀ level < s.height, ∀ key,
    s.counter index level key = .ok
      (if tree.inflow units level (tree.leaf key >>> level) < CounterTree.mark level
        then tree.inflow units level (tree.leaf key >>> level) else CounterTree.mark level)
  /-- What the counters below a level stand for and the inflow of the
  level are all that was inserted. -/
  weight_add_inflow : ∀ tree ∈ s.trees, ∀ level < s.height,
    ((tree.levels.take level).map CounterLevel.weight).sum
      + ∑ position ∈ range (tree.leaves >>> level), tree.inflow units level position
        = (units.map (·.count.toNat)).sum
  /-- Units with the same leaf totals lead to the same sketch. -/
  of_poured_eq : ∀ others : List Entry,
    (∀ tree ∈ start.trees, ∀ leaf, tree.poured others leaf = tree.poured units leaf) →
      Estimator.insertAll start others = .ok s
  /-- The order of the units does not matter. -/
  of_perm : ∀ others : List Entry, others.Perm units → Estimator.insertAll start others = .ok s
  /-- A weight may come in two parts or at once. -/
  insert_insert : ∀ (key : Key) (a b : Int), 0 < a → 0 < b →
    (s.insert key a).insert key b = s.insert key (a + b)

theorem poured_append_of_pos (tree : CounterTree) (units : List Entry) {key : Key} {a b : Int}
    (ha : 0 < a) (hb : 0 < b) (leaf : Nat) :
    tree.poured (units ++ [⟨key, a⟩, ⟨key, b⟩]) leaf
      = tree.poured (units ++ [⟨key, a + b⟩]) leaf := by
  have hsum : (a + b).toNat = a.toNat + b.toNat := by omega
  simp only [CounterTree.poured_eq_pouredOf, CounterTree.pouredOf_append, CounterTree.pouredOf_cons,
    CounterTree.pouredOf_nil, hsum]
  split <;> omega

/-- **The counters of a sketch are a function of the leaf totals alone.** -/
theorem reflects_of_insertAll {memory width : Nat} {seed : UInt64} {start : TreeSketch}
    (built : ofBudget memory width seed = .ok start) (units : List Entry) :
    ∃ s, Estimator.insertAll start units = .ok s ∧ Reflects start s units := by
  obtain ⟨htrees, hstart⟩ := grown_of_ofBudget built
  have hgrown : Grown units (start.addAll units) := hstart.addAll units
  have hdetermined : ∀ others : List Entry, (∀ tree ∈ start.trees, ∀ leaf,
      tree.poured others leaf = tree.poured units leaf) →
        Estimator.insertAll start others = .ok (start.addAll units) := by
    intro others heq
    rw [insertAll_eq, hstart.addAll_eq heq]
  refine ⟨start.addAll units, insertAll_eq start units, ?_, ?_, ?_, ?_, hdetermined, ?_, ?_⟩
  · rw [← htrees]
    exact List.length_map _
  · intro tree ht level hlevel position hp
    obtain ⟨hregular, habsorbed⟩ := hgrown tree ht
    exact habsorbed.counterAt_eq hregular hlevel hp
  · intro index tree ht level hlevel key
    obtain ⟨hregular, habsorbed⟩ := hgrown tree (List.mem_of_getElem? ht)
    exact hgrown.counter_eq_counterAt ht hlevel (habsorbed.counterAt_eq hregular hlevel
      (habsorbed.leaf_shiftRight_lt hregular key hlevel))
  · intro tree ht level hlevel
    obtain ⟨hregular, habsorbed⟩ := hgrown tree ht
    exact habsorbed.weight_add_inflow hregular hlevel
  · intro others hperm
    refine hdetermined others fun tree _ leaf => ?_
    simp only [CounterTree.poured_eq_pouredOf, CounterTree.pouredOf_perm hperm]
  · intro key a b ha hb
    rw [insert_eq_addAll, insert_eq_addAll, insert_eq_addAll, ← addAll_append, ← addAll_append,
      ← addAll_append]
    exact hstart.addAll_eq fun tree _ => poured_append_of_pos tree units ha hb

/-- Two trees of four leaves: one leaf is filled up to the last unit below its mark,
another overflows past its parent. -/
theorem reflects_of_insertAll_two_levels : ∃ start s,
    ofBudget 16 2 1 = .ok start ∧
      Estimator.insertAll start [⟨5, 200⟩, ⟨9, 300⟩, ⟨5, -4⟩, ⟨8, 70000⟩, ⟨5, 54⟩] = .ok s ∧
      s.trees.map (fun tree => tree.levels.map (·.counters))
        = [[#[255, 255, 254, 0], #[65535, 0]], [#[255, 255, 0, 0], #[65535, 0]]] ∧
      Reflects start s [⟨5, 200⟩, ⟨9, 300⟩, ⟨5, -4⟩, ⟨8, 70000⟩, ⟨5, 54⟩] := by
  have hrun : (do
      let start ← ofBudget 16 2 1
      let s ← Outcome.ofChecked
        (Estimator.insertAll start [⟨5, 200⟩, ⟨9, 300⟩, ⟨5, -4⟩, ⟨8, 70000⟩, ⟨5, 54⟩])
      return s.trees.map (fun tree => tree.levels.map (·.counters)) : Outcome _)
        = .ok [[#[255, 255, 254, 0], #[65535, 0]], [#[255, 255, 0, 0], #[65535, 0]]] := by
    decide +kernel
  obtain ⟨start, built, hrun⟩ := Checked.bind_eq_ok.mp hrun
  obtain ⟨s, run, hrun⟩ := Checked.bind_eq_ok.mp hrun
  have run := Outcome.ofChecked_eq_ok.mp run
  obtain ⟨s', run', hreflects⟩ := reflects_of_insertAll built
    [⟨5, 200⟩, ⟨9, 300⟩, ⟨5, -4⟩, ⟨8, 70000⟩, ⟨5, 54⟩]
  obtain rfl := Except.ok.inj (run.symm.trans run')
  exact ⟨start, s, built, run, Checked.pure_eq_ok.mp hrun, hreflects⟩

/-! ## What an answer is -/

/-- What a path of counters can stand for. -/
def capacity (s : TreeSketch) : Nat := ∑ level ∈ range s.height, (CounterTree.mark level - 1)

/-- What the answer for a key is to the units that were inserted. -/
structure Bounds (s : TreeSketch) (units : List Entry) (key : Key) : Prop where
  /-- The answer is no less than the weight of the key, as far as a path of counters and a count can
  hold it. -/
  min_le_query : min (min ↑(CounterTree.pouredOf (· == key) units) ↑s.capacity) Count.greatest
    ≤ s.query key
  /-- The answer is no more than the weight under the top ancestor of the key's leaf in any tree. -/
  query_le_top : ∀ tree ∈ s.trees, s.query key ≤ CounterTree.pouredOf (fun other =>
    tree.leaf other >>> (s.height - 1) == tree.leaf key >>> (s.height - 1)) units
  /-- Where the weight of the key's leaf is below the mark, the answer is no more than that. -/
  query_le_leaf : ∀ tree ∈ s.trees,
    CounterTree.pouredOf (tree.leaf · == tree.leaf key) units < CounterTree.mark 0 →
      s.query key ≤ CounterTree.pouredOf (tree.leaf · == tree.leaf key) units
  /-- So it is the weight of the key if no other key with weight has the leaf. -/
  query_eq_of_alone : ∀ tree ∈ s.trees,
    CounterTree.pouredOf (tree.leaf · == tree.leaf key) units < CounterTree.mark 0 →
      (∀ unit ∈ units, 0 < unit.count → tree.leaf unit.key = tree.leaf key → unit.key = key) →
        s.query key = CounterTree.pouredOf (· == key) units

theorem query_le_estimate {s : TreeSketch} {tree : CounterTree} (ht : tree ∈ s.trees) (key : Key) :
    s.query key ≤ tree.estimate key := by
  have hmem : (tree.estimate key : Int) ∈ s.trees.map fun tree => (tree.estimate key : Int) :=
    List.mem_map.mpr ⟨tree, ht, rfl⟩
  have hle := (Count.le_leastOf_iff (List.ne_nil_of_mem hmem)).mp (Int.le_refl _) _ hmem
  unfold query
  omega

theorem le_query {s : TreeSketch} (hne : s.trees ≠ []) {key : Key} {bound : Int}
    (h : ∀ tree ∈ s.trees, bound ≤ tree.estimate key) :
    min bound Count.greatest ≤ s.query key := by
  have hestimates : (s.trees.map fun tree => (tree.estimate key : Int)) ≠ [] := fun he =>
    hne (List.map_eq_nil_iff.mp he)
  have hle : bound ≤ Count.leastOf (s.trees.map fun tree => (tree.estimate key : Int)) := by
    refine (Count.le_leastOf_iff hestimates).mpr fun estimate he => ?_
    obtain ⟨tree, ht, rfl⟩ := List.mem_map.mp he
    exact h tree ht
  unfold query
  omega

theorem Grown.min_le_query {units : List Entry} {s : TreeSketch} (h : Grown units s)
    (hne : s.trees ≠ []) (key : Key) :
    min (min ↑(CounterTree.pouredOf (· == key) units) ↑s.capacity)
      Count.greatest ≤ s.query key := by
  refine le_query hne fun tree ht => ?_
  obtain ⟨hregular, habsorbed⟩ := h tree ht
  have := habsorbed.min_pouredOf_le_estimate hregular key
  unfold capacity
  omega

theorem Grown.query_le_leaf {units : List Entry} {s : TreeSketch} (h : Grown units s) {key : Key}
    {tree : CounterTree} (ht : tree ∈ s.trees)
    (hlt : CounterTree.pouredOf (tree.leaf · == tree.leaf key) units < CounterTree.mark 0) :
    s.query key ≤ CounterTree.pouredOf (tree.leaf · == tree.leaf key) units := by
  obtain ⟨hregular, habsorbed⟩ := h tree ht
  have := query_le_estimate ht key
  rwa [habsorbed.estimate_eq_pouredOf hregular hlt] at this

/-- A weight below the mark of a leaf fits a path of counters and a count. -/
theorem Grown.le_capacity {units : List Entry} {s : TreeSketch} (h : Grown units s)
    {tree : CounterTree} (ht : tree ∈ s.trees) {weight : Nat} (hlt : weight < CounterTree.mark 0) :
    weight ≤ s.capacity ∧ (weight : Int) ≤ Count.greatest := by
  have hheight := (h tree ht).1.height_bounds
  have hmark : CounterTree.mark 0 = 255 := rfl
  have hfirst : CounterTree.mark 0 - 1 ≤ s.capacity :=
    single_le_sum (f := fun level => CounterTree.mark level - 1) (fun _ _ => Nat.zero_le _)
      (mem_range.mpr hheight.1)
  unfold Count.greatest
  omega

/-- **Answers are one-sided**, up to what a path of counters and a count can hold, and never above
what came in under the top ancestor. -/
theorem bounds_of_insertAll {memory width : Nat} {seed : UInt64} {start : TreeSketch}
    (built : ofBudget memory width seed = .ok start) (units : List Entry) :
    ∃ s, Estimator.insertAll start units = .ok s ∧ ∀ key, Bounds s units key := by
  obtain ⟨htrees, hstart⟩ := grown_of_ofBudget built
  have hgrown : Grown units (start.addAll units) := hstart.addAll units
  have hne : (start.addAll units).trees ≠ [] := by
    intro he
    rw [List.map_eq_nil_iff.mp he] at htrees
    cases htrees
  refine ⟨start.addAll units, insertAll_eq start units, fun key => ?_⟩
  have hlow := hgrown.min_le_query hne key
  refine ⟨hlow, fun tree ht => ?_, fun tree ht => hgrown.query_le_leaf ht, ?_⟩
  · obtain ⟨hregular, habsorbed⟩ := hgrown tree ht
    have := query_le_estimate ht key
    have := habsorbed.estimate_le_pouredOf hregular key
    omega
  · intro tree ht hlt halone
    have hhigh := hgrown.query_le_leaf ht hlt
    -- alone in its leaf, the key has the whole weight of the leaf
    have hsame : CounterTree.pouredOf (tree.leaf · == tree.leaf key) units
        ≤ CounterTree.pouredOf (· == key) units :=
      CounterTree.pouredOf_mono fun unit hu hw hleaf => by
        simpa using halone unit hu hw (by simpa using hleaf)
    have hkey : CounterTree.pouredOf (· == key) units
        ≤ CounterTree.pouredOf (tree.leaf · == tree.leaf key) units :=
      CounterTree.pouredOf_mono fun unit _ _ hk => by simp [show unit.key = key by simpa using hk]
    have := hgrown.le_capacity ht (Nat.lt_of_le_of_lt hkey hlt)
    omega

/-- The key 5 is alone in its leaf of the first tree, and its answer is exact; that of 9 is too
high, as in both trees its leaf shares the parent with that of 8. -/
theorem bounds_of_insertAll_two_levels : ∃ start s,
    ofBudget 16 2 1 = .ok start ∧
      Estimator.insertAll start [⟨5, 200⟩, ⟨9, 300⟩, ⟨5, -4⟩, ⟨8, 70000⟩, ⟨5, 54⟩] = .ok s ∧
      s.query 5 = 254 ∧ s.query 9 = 65788 ∧
      ∀ key, Bounds s [⟨5, 200⟩, ⟨9, 300⟩, ⟨5, -4⟩, ⟨8, 70000⟩, ⟨5, 54⟩] key := by
  have hrun : (do
      let start ← ofBudget 16 2 1
      let s ← Outcome.ofChecked
        (Estimator.insertAll start [⟨5, 200⟩, ⟨9, 300⟩, ⟨5, -4⟩, ⟨8, 70000⟩, ⟨5, 54⟩])
      return (s.query 5, s.query 9) : Outcome _) = .ok (254, 65788) := by decide +kernel
  obtain ⟨start, built, hrun⟩ := Checked.bind_eq_ok.mp hrun
  obtain ⟨s, run, hrun⟩ := Checked.bind_eq_ok.mp hrun
  obtain ⟨hfive, hnine⟩ := Prod.mk.inj (Checked.pure_eq_ok.mp hrun)
  have run := Outcome.ofChecked_eq_ok.mp run
  obtain ⟨s', run', hbounds⟩ := bounds_of_insertAll built
    [⟨5, 200⟩, ⟨9, 300⟩, ⟨5, -4⟩, ⟨8, 70000⟩, ⟨5, 54⟩]
  obtain rfl := Except.ok.inj (run.symm.trans run')
  exact ⟨start, s, built, run, hfive, hnine, hbounds⟩

end TreeSketch

end HeavyHitters
