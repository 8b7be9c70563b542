import HeavyHitters.Proofs.Counts
import HeavyHitters.Proofs.Geometry
import HeavyHitters.Proofs.Tracker.Accounts
import HeavyHitters.Tracker.SpaceSaving
import Mathlib.Data.List.Nodup

/-!
# Inserts of Space-Saving

The counters are held twice, in a map by key and in a set by size, and an insert has to change both
alike.  What an insert does is said once, in three cases; afterwards nothing looks at the containers
as they are built.

* `SpaceSaving.Matched` says that the two containers hold the same counters.
* `SpaceSaving.Step` lists what an insert can do, and `SpaceSaving.Sound.step_of_insert`
  says that it does nothing else.
* `SpaceSaving.Step.exists_rest` is a step seen as a change of one resident.
* `SpaceSaving.retains` is the account of a step: no weight is lost.
-/

namespace HeavyHitters

/-! ## The order of counters -/

instance : Std.TransCmp Entry.sizeCompare :=
  inferInstanceAs (Std.TransCmp (compareLex (compareOn Record.count) (compareOn Record.key)))

instance : Std.LawfulEqCmp Entry.sizeCompare where
  eq_of_compare := by
    rintro ⟨key, count⟩ ⟨key', count'⟩ h
    obtain ⟨hc, hk⟩ := compareLex_eq_eq.mp h
    obtain rfl : count = count' := Std.LawfulEqCmp.eq_of_compare hc
    obtain rfl : key = key' := Std.LawfulEqCmp.eq_of_compare hk
    rfl

/-- Counters are ordered by their counts, and by their keys where these are equal. -/
theorem Entry.sizeCompare_isLE_iff {e f : Entry} :
    (Entry.sizeCompare e f).isLE ↔ e.count < f.count ∨ e.count = f.count ∧ e.key ≤ f.key := by
  show ((compare e.count f.count).then (compare e.key f.key)).isLE ↔ _
  rcases lt_trichotomy e.count f.count with h | h | h
  · rw [Std.compare_eq_lt.mpr h]
    simp [h]
  · rw [h, Std.compare_self, Ordering.eq_then, Std.isLE_compare]
    simp
  · rw [Std.compare_eq_gt.mpr h]
    simp
    omega

theorem Entry.count_le_of_isLE {e f : Entry} (h : (Entry.sizeCompare e f).isLE) :
    e.count ≤ f.count := by
  rcases Entry.sizeCompare_isLE_iff.mp h with h | ⟨h, -⟩ <;> omega

/-! ## Sets in ascending order -/

section

variable {α : Type} {cmp : α → α → Ordering} [Std.TransCmp cmp] [Std.LawfulEqCmp cmp]
  {s : Std.TreeSet α cmp} {a : α}

theorem nodup_toList_treeSet (s : Std.TreeSet α cmp) : s.toList.Nodup :=
  s.distinct_toList.imp fun h heq => h (Std.LawfulEqCmp.compare_eq_iff_eq.mpr heq)

theorem toList_perm_cons_erase (h : a ∈ s) : s.toList.Perm (a :: (s.erase a).toList) := by
  have hnot : a ∉ (s.erase a).toList := by simp
  refine (List.perm_ext_iff_of_nodup (nodup_toList_treeSet s)
    (List.nodup_cons.mpr ⟨hnot, nodup_toList_treeSet _⟩)).mpr fun b => ?_
  simp only [List.mem_cons, Std.TreeSet.mem_toList, Std.TreeSet.mem_erase, ne_eq,
    Std.LawfulEqCmp.compare_eq_iff_eq]
  by_cases hb : b = a
  · simp [hb, h]
  · simp [hb, Ne.symm hb]

theorem toList_insert_perm_cons (h : a ∉ s) : (s.insert a).toList.Perm (a :: s.toList) := by
  refine (List.perm_ext_iff_of_nodup (nodup_toList_treeSet _)
    (List.nodup_cons.mpr ⟨by simpa using h, nodup_toList_treeSet s⟩)).mpr fun b => ?_
  simp only [List.mem_cons, Std.TreeSet.mem_toList, Std.TreeSet.mem_insert,
    Std.LawfulEqCmp.compare_eq_iff_eq, @eq_comm _ b]

theorem toList_erase_perm_of_not_mem (h : a ∉ s) : (s.erase a).toList.Perm s.toList := by
  refine (List.perm_ext_iff_of_nodup (nodup_toList_treeSet _) (nodup_toList_treeSet s)).mpr
    fun b => ?_
  simp only [Std.TreeSet.mem_toList, Std.TreeSet.mem_erase, ne_eq,
    Std.LawfulEqCmp.compare_eq_iff_eq]
  exact ⟨And.right, fun hb => ⟨fun hab => h (hab ▸ hb), hb⟩⟩

end

namespace SpaceSaving

variable {t t' : SpaceSaving} {key : Key} {out : Option Entry}

/-! ## Two containers of the same counters -/

/-- The map and the ordered set hold the same counters. -/
def Matched (t : SpaceSaving) : Prop :=
  ∀ key count, (⟨key, count⟩ : Entry) ∈ t.order ↔ t.counts[key]? = some count

theorem mem_residents {e : Entry} : e ∈ t.residents ↔ e ∈ t.order := Std.TreeSet.mem_toList

theorem getElem?_move (t : SpaceSaving) (key other : Key) (old new : Int) :
    (t.move key old new).counts[other]? = if key = other then some new else t.counts[other]? := by
  simp only [move, Std.TreeMap.getElem?_insert, Std.LawfulEqCmp.compare_eq_iff_eq]

theorem getElem?_drop (t : SpaceSaving) (victim : Entry) (other : Key) :
    (t.drop victim).counts[other]? = if victim.key = other then none else t.counts[other]? := by
  simp only [drop, Std.TreeMap.getElem?_erase, Std.LawfulEqCmp.compare_eq_iff_eq]

/-- Moving the counter of a key keeps the containers in step if it is told the old count; that of
an untracked key may be anything. -/
theorem Matched.move (h : t.Matched) {old : Int} (new : Int)
    (hold : ∀ count, t.counts[key]? = some count → count = old) : (t.move key old new).Matched := by
  intro other count
  rw [getElem?_move, SpaceSaving.move, Std.TreeSet.mem_insert, Std.TreeSet.mem_erase, h other count,
    ne_eq, Std.LawfulEqCmp.compare_eq_iff_eq, Std.LawfulEqCmp.compare_eq_iff_eq, Record.mk.injEq,
    Record.mk.injEq]
  by_cases hk : key = other
  · subst hk
    rw [if_pos rfl, Option.some_inj]
    constructor
    · rintro (⟨-, hc⟩ | ⟨hne, hc⟩)
      · exact hc
      · exact absurd ⟨rfl, (hold count hc).symm⟩ hne
    · exact fun hc => .inl ⟨rfl, hc⟩
  · simp [hk]

theorem Matched.drop (h : t.Matched) {victim : Entry} (hv : victim ∈ t.order) :
    (t.drop victim).Matched := by
  intro other count
  have hcount : t.counts[victim.key]? = some victim.count := (h _ _).mp hv
  rw [getElem?_drop, SpaceSaving.drop, Std.TreeSet.mem_erase, h other count, ne_eq,
    Std.LawfulEqCmp.compare_eq_iff_eq]
  by_cases hk : victim.key = other
  · subst hk
    rw [if_pos rfl, hcount]
    simp only [reduceCtorEq, iff_false, not_and]
    exact fun hne hc => hne (by rw [← Option.some.inj hc])
  · rw [if_neg hk]
    exact ⟨And.right, fun hc => ⟨fun he => hk (congrArg Record.key he), hc⟩⟩

/-- The residents are the counters of the map. -/
theorem Matched.residents_perm (h : t.Matched) :
    t.residents.Perm (t.counts.toList.map fun (key, count) => ⟨key, count⟩) := by
  have hnodup : t.counts.toList.Nodup :=
    t.counts.distinct_keys_toList.imp fun hne heq => hne (by rw [heq]; exact Std.compare_self)
  have hmap : (t.counts.toList.map fun (key, count) => (⟨key, count⟩ : Entry)).Nodup :=
    hnodup.map fun a b hab => Prod.ext (congrArg Record.key hab) (congrArg Record.count hab)
  refine (List.perm_ext_iff_of_nodup (nodup_toList_treeSet _) hmap).mpr fun ⟨key, count⟩ => ?_
  rw [Std.TreeSet.mem_toList, h key count,
    ← Std.TreeMap.mem_toList_iff_getElem?_eq_some, List.mem_map]
  constructor
  · exact fun hmem => ⟨_, hmem, rfl⟩
  · rintro ⟨⟨key', count'⟩, hmem, he⟩
    obtain ⟨rfl, rfl⟩ := Record.mk.inj he
    exact hmem

theorem Matched.size_eq (h : t.Matched) : t.size = t.residents.length := by
  rw [h.residents_perm.length_eq, List.length_map, Std.TreeMap.length_toList, size]

theorem Matched.residents_move_of_tracked (h : t.Matched) {old : Int}
    (tracked : t.counts[key]? = some old) (new : Int) : ∃ rest,
      t.residents.Perm (⟨key, old⟩ :: rest) ∧
        (t.move key old new).residents.Perm (⟨key, new⟩ :: rest) := by
  refine ⟨_, toList_perm_cons_erase ((h key old).mpr tracked), toList_insert_perm_cons ?_⟩
  rw [Std.TreeSet.mem_erase, h key new, tracked, ne_eq, Std.LawfulEqCmp.compare_eq_iff_eq]
  exact fun ⟨hne, hc⟩ => hne (by rw [Option.some.inj hc])

theorem Matched.residents_move_of_untracked (h : t.Matched) (untracked : t.counts[key]? = none)
    (old new : Int) : (t.move key old new).residents.Perm (⟨key, new⟩ :: t.residents) := by
  have hnot : ∀ count, (⟨key, count⟩ : Entry) ∉ t.order := fun count hmem => by
    rw [h key count, untracked] at hmem
    cases hmem
  refine (toList_insert_perm_cons ?_).trans ((toList_erase_perm_of_not_mem (hnot old)).cons _)
  rw [Std.TreeSet.mem_erase]
  exact fun hmem => hnot new hmem.2

theorem residents_drop {victim : Entry} (hv : victim ∈ t.order) :
    t.residents.Perm (victim :: (t.drop victim).residents) :=
  toList_perm_cons_erase hv

/-! ## What an insert does -/

/-- A table with room for a counter, of which the containers hold the same counters, each with a
positive count that fits. -/
structure Sound (t : SpaceSaving) : Prop where
  capacity_pos : 0 < t.capacity
  matched : t.Matched
  positive : ∀ e ∈ t.residents, 1 ≤ e.count
  fits : ∀ e ∈ t.residents, e.count ≤ Count.greatest

/-- The cases of an insert, with the count `old` that the key's counter goes on from: the counter of
a tracked key is raised; an untracked key is admitted to a free counter; or it takes over the least
counter, which is carried out as it was. -/
inductive Step (t : SpaceSaving) (key : Key) :
    (old : Int) → SpaceSaving → Option Entry → Prop where
  | raised {count : Int} (tracked : t.counts[key]? = some count)
      (fits : count + 1 ≤ Count.greatest) : Step t key count (t.move key count (count + 1)) none
  | admitted (untracked : t.counts[key]? = none) (room : t.size < t.capacity) :
      Step t key 0 (t.move key 0 1) none
  | tookOver {victim : Entry} (untracked : t.counts[key]? = none) (full : t.capacity ≤ t.size)
      (least : t.order.min? = some victim) (fits : victim.count + 1 ≤ Count.greatest) :
      Step t key victim.count ((t.drop victim).move key victim.count (victim.count + 1))
        (some victim)

theorem Sound.mem_of_getElem? (h : t.Sound) {count : Int} (tracked : t.counts[key]? = some count) :
    ⟨key, count⟩ ∈ t.residents :=
  mem_residents.mpr ((h.matched key count).mpr tracked)

theorem mem_of_min? {victim : Entry} (least : t.order.min? = some victim) : victim ∈ t.order :=
  (Std.TreeSet.min?_eq_some_iff_mem_and_forall.mp least).1

theorem Sound.plus_one (h : t.Sound) {e : Entry} (he : e ∈ t.residents)
    (fits : e.count + 1 ≤ Count.greatest) : Count.plus e.count 1 = .ok (e.count + 1) := by
  refine Count.plus_eq_ok_iff.mpr ⟨⟨?_, fits⟩, rfl⟩
  have := h.positive e he
  unfold Count.least
  omega

/-- An insert that has a value does one of the three things. -/
theorem Sound.step_of_insert (h : t.Sound) (hi : t.insert key = .ok (t', out)) :
    ∃ old, Step t key old t' out := by
  unfold insert at hi
  split at hi
  · rename_i count tracked
    obtain ⟨new, hplus, hi⟩ := Checked.bind_eq_ok.mp hi
    obtain ⟨hfits, rfl⟩ := Count.plus_eq_ok_iff.mp hplus
    obtain ⟨rfl, rfl⟩ := Prod.mk.inj (Checked.pure_eq_ok.mp hi)
    exact ⟨_, .raised tracked hfits.2⟩
  · rename_i untracked
    split at hi
    · rename_i room
      obtain ⟨rfl, rfl⟩ := Prod.mk.inj (Except.ok.inj hi)
      exact ⟨_, .admitted untracked room⟩
    · rename_i full
      split at hi
      · -- a full table has a counter, so there is a least one
        rename_i hnone
        have hempty : t.residents.length = 0 := by
          rw [residents, Std.TreeSet.length_toList]
          simpa [Std.TreeSet.isEmpty_eq_size_eq_zero] using Std.TreeSet.min?_eq_none_iff.mp hnone
        have hsize := h.matched.size_eq
        have := h.capacity_pos
        exact absurd (show t.size < t.capacity by omega) full
      · rename_i victim least
        obtain ⟨new, hplus, hi⟩ := Checked.bind_eq_ok.mp hi
        obtain ⟨hfits, rfl⟩ := Count.plus_eq_ok_iff.mp hplus
        obtain ⟨rfl, rfl⟩ := Prod.mk.inj (Checked.pure_eq_ok.mp hi)
        exact ⟨_, .tookOver untracked (by simpa [size] using full) least hfits.2⟩

/-- An insert has a value unless a count is as great as it can be. -/
theorem Sound.exists_insert (h : t.Sound) (key : Key)
    (hroom : ∀ e ∈ t.residents, e.count + 1 ≤ Count.greatest) :
    ∃ t' out, t.insert key = .ok (t', out) := by
  unfold insert
  split
  · rename_i count tracked
    have hmem := h.mem_of_getElem? tracked
    rw [h.plus_one hmem (hroom _ hmem)]
    exact ⟨_, _, rfl⟩
  · split
    · exact ⟨_, _, rfl⟩
    · split
      · exact ⟨_, _, rfl⟩
      · rename_i victim least
        have hmem := mem_residents.mpr (mem_of_min? least)
        rw [h.plus_one hmem (hroom _ hmem)]
        exact ⟨_, _, rfl⟩

/-- The residents before and after an insert: one counter, which was a free one, the key's own or
the one that is carried out, becomes the key's with one more unit. -/
theorem Step.exists_rest (h : t.Sound) {old : Int} (step : Step t key old t' out) :
    ∃ (taken : Option Entry) (rest : List Entry), t.residents.Perm (taken.toList ++ rest) ∧
      t'.residents.Perm (⟨key, old + 1⟩ :: rest) ∧ old = taken.elim 0 (·.count) ∧
      (out = taken ∨ out = none ∧ ∀ e ∈ taken, e.key = key) := by
  cases step with
  | raised tracked fits =>
    obtain ⟨rest, hbefore, hafter⟩ := h.matched.residents_move_of_tracked tracked (old + 1)
    refine ⟨some ⟨key, old⟩, rest, hbefore, hafter, rfl, .inr ⟨rfl, ?_⟩⟩
    rintro e ⟨⟩
    rfl
  | admitted untracked room =>
    exact ⟨none, _, .refl _, h.matched.residents_move_of_untracked untracked 0 1, rfl, .inl rfl⟩
  | @tookOver victim untracked full least fits =>
    have hmem := mem_of_min? least
    have hdropped : (t.drop victim).counts[key]? = none := by
      rw [getElem?_drop, untracked, ite_self]
    exact ⟨some victim, _, residents_drop hmem,
      (h.matched.drop hmem).residents_move_of_untracked hdropped _ _, rfl, .inl rfl⟩

theorem Step.capacity_eq {old : Int} (step : Step t key old t' out) :
    t'.capacity = t.capacity := by cases step <;> rfl

theorem Step.matched (h : t.Sound) {old : Int} (step : Step t key old t' out) : t'.Matched := by
  cases step with
  | raised tracked fits =>
    exact h.matched.move _ fun count hcount => Option.some.inj (hcount.symm.trans tracked)
  | admitted untracked room =>
    exact h.matched.move _ fun count hcount => nomatch hcount.symm.trans untracked
  | tookOver untracked full least fits =>
    refine (h.matched.drop (mem_of_min? least)).move _ fun count hcount => ?_
    rw [getElem?_drop, untracked, ite_self] at hcount
    cases hcount

theorem Step.old_nonneg (h : t.Sound) {old : Int} (step : Step t key old t' out) : 0 ≤ old := by
  obtain ⟨taken, rest, hbefore, -, rfl, -⟩ := step.exists_rest h
  cases taken with
  | none => exact Int.le_refl 0
  | some e =>
    have := h.positive e (hbefore.mem_iff.mpr (by simp))
    show 0 ≤ e.count
    omega

theorem Step.old_lt {old : Int} (step : Step t key old t' out) : old + 1 ≤ Count.greatest := by
  cases step with
  | raised tracked fits => exact fits
  | admitted untracked room => decide
  | tookOver untracked full least fits => exact fits

/-- A counter after an insert is the key's, or it was there before. -/
theorem Step.mem_residents (h : t.Sound) {old : Int} (step : Step t key old t' out) {e : Entry}
    (he : e ∈ t'.residents) : e = ⟨key, old + 1⟩ ∨ e ∈ t.residents := by
  obtain ⟨taken, rest, hbefore, hafter, -, -⟩ := step.exists_rest h
  rcases List.mem_cons.mp (hafter.mem_iff.mp he) with he | he
  · exact .inl he
  · exact .inr (hbefore.mem_iff.mpr (List.mem_append_right _ he))

theorem Sound.step (h : t.Sound) {old : Int} (step : Step t key old t' out) : t'.Sound := by
  have hold := step.old_nonneg h
  refine ⟨step.capacity_eq ▸ h.capacity_pos, step.matched h, fun e he => ?_, fun e he => ?_⟩
  · rcases step.mem_residents h he with rfl | he
    · show 1 ≤ old + 1
      omega
    · exact h.positive e he
  · rcases step.mem_residents h he with rfl | he
    · exact step.old_lt
    · exact h.fits e he

/-! ## No weight is lost -/

theorem Sound.weightOf_residents (h : t.Sound) (key : Key) :
    weightOf (· == key) t.residents = t.query key := by
  rw [query, Std.TreeMap.getD_eq_getD_getElem?]
  cases hcount : t.counts[key]? with
  | none =>
    refine weightOf_eq_zero fun e he => ?_
    rw [mem_residents, h.matched e.key e.count] at he
    by_contra hk
    rw [show e.key = key by simpa using hk, hcount] at he
    cases he
  | some count =>
    obtain ⟨rest, hperm, -⟩ := h.matched.residents_move_of_tracked hcount 0
    have hrest : weightOf (· == key) rest = 0 := by
      refine weightOf_eq_zero fun e he => ?_
      have hmem : e ∈ t.residents := hperm.mem_iff.mpr (List.mem_cons_of_mem _ he)
      rw [mem_residents, h.matched e.key e.count] at hmem
      by_contra hk
      obtain rfl : e.key = key := by simpa using hk
      -- the key's counter stands before the rest, and no counter stands twice
      have hsame : e = ⟨e.key, count⟩ := by rw [← Option.some.inj (hmem.symm.trans hcount)]
      have hnodup := hperm.nodup_iff.mp (nodup_toList_treeSet t.order)
      exact (List.nodup_cons.mp hnodup).1 (hsame ▸ he)
    rw [weightOf_perm hperm, weightOf_cons, hrest]
    simp

/-- The account of an insert: a key that takes a counter over inherits its weight, while that weight
is carried out, so afterwards there may be more of the key. -/
theorem Step.account (h : t.Sound) {old : Int} (step : Step t key old t' out)
    (select : Key → Bool) : weightOf select t.residents + weightOf select [⟨key, 1⟩]
      ≤ weightOf select t'.residents + weightOf select out.toList := by
  have hold := step.old_nonneg h
  obtain ⟨taken, rest, hbefore, hafter, rfl, hout⟩ := step.exists_rest h
  rw [weightOf_perm hbefore, weightOf_perm hafter, weightOf_append, weightOf_cons, weightOf_cons,
    weightOf_nil]
  rcases hout with rfl | ⟨rfl, hkey⟩
  · dsimp only
    split <;> omega
  · cases taken with
    | none =>
      simp only [Option.toList_none, weightOf_nil, Option.elim_none]
      split <;> omega
    | some e =>
      rw [← hkey e rfl]
      simp only [Option.toList_some, weightOf_cons, weightOf_nil, Option.elim_some,
        Option.toList_none]
      split <;> omega

/-- Space-Saving loses no weight. -/
theorem retains : Tracker.Retains Sound where
  positive h := h.positive
  query_eq {t} h key := by
    show Except.ok (t.query key) = Count.narrow .add (weightOf (· == key) t.residents)
    rw [h.weightOf_residents key]
    refine (Count.narrow_of_fits ?_).symm
    rw [query, Std.TreeMap.getD_eq_getD_getElem?]
    cases hcount : t.counts[key]? with
    | none => decide
    | some count =>
      have hmem := h.mem_of_getElem? hcount
      have hpos : 1 ≤ count := h.positive _ hmem
      refine ⟨?_, h.fits _ hmem⟩
      show Count.least ≤ count
      unfold Count.least
      omega
  inv_insert h hi := by
    obtain ⟨old, step⟩ := h.step_of_insert hi
    exact h.step step
  out_positive h hi e he := by
    obtain ⟨old, step⟩ := h.step_of_insert hi
    cases step with
    | raised => cases he
    | admitted => cases he
    | tookOver untracked full least fits =>
      cases he
      exact h.positive _ (mem_residents.mpr (mem_of_min? least))
  account h hi := by
    obtain ⟨old, step⟩ := h.step_of_insert hi
    exact step.account h

theorem sound_empty {capacity : Nat} (hc : 0 < capacity) : (empty capacity).Sound := by
  refine ⟨hc, fun key count => ?_, ?_, ?_⟩
  · simp [empty]
  all_goals
    intro e he
    simp [residents, empty] at he

theorem residents_empty (capacity : Nat) : (empty capacity).residents = [] :=
  List.eq_nil_iff_forall_not_mem.mpr fun e he => by simp [residents, empty] at he

theorem ofBudget_eq_ok {memory : Nat} (h : ofBudget memory = .ok t) :
    0 < memory / 8 ∧ t = empty (memory / 8) := by
  unfold ofBudget at h
  dsimp only at h
  split at h
  · exact absurd h refuse_bind_ne_ok
  · rename_i hm
    obtain ⟨-, -, h⟩ := Checked.bind_eq_ok.mp h
    exact ⟨Nat.pos_of_ne_zero hm, (Checked.pure_eq_ok.mp h).symm⟩

/-- A built table is empty and has room for a counter. -/
theorem fresh_of_ofBudget {memory : Nat} (h : ofBudget memory = .ok t) :
    t.Sound ∧ t.residents = [] := by
  obtain ⟨hm, rfl⟩ := ofBudget_eq_ok h
  exact ⟨sound_empty hm, residents_empty _⟩

end SpaceSaving

end HeavyHitters
