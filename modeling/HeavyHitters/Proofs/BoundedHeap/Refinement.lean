import HeavyHitters.Proofs.BoundedHeap.Sifting
import HeavyHitters.Proofs.Checked
import Mathlib.Logic.Function.Basic

/-!
# A bounded heap is a bounded map from keys to counts

Seen from outside, a heap is the map that gives the count of every key held.  Whatever is inserted
or bumped, the heap stays well formed, and the map changes as if there were no heap: only which one
of several least keys is given up is for the heap to choose.

* `BoundedHeap.WellFormed` is the invariant, and `BoundedHeap.held` is the map.
* `BoundedHeap.Moves` lists what a call does to the representation, with all positions in range, and
  `BoundedHeap.Changes` lists what it does to the map.
* `BoundedHeap.guarantees_of_calls` says of every run that the next call does both, unless it
  overflows.
-/

namespace HeavyHitters

namespace BoundedHeap

variable {h h' : BoundedHeap} {key : Key} {count : Int}

/-! ## The map of a heap -/

/-- The count of a key among the entries. -/
def held (h : BoundedHeap) (key : Key) : Option Int :=
  (h.entries.find? (·.key == key)).map (·.count)

theorem Indexed.getElem?_of_positions (hx : h.Indexed) {position : Nat}
    (hp : h.positions[key]? = some position) :
    ∃ entry, h.entries[position]? = some entry ∧ entry.key = key :=
  Option.map_eq_some_iff.mp ((hx key position).mp hp)

theorem Indexed.positions_of_getElem? (hx : h.Indexed) {position : Nat} {entry : Entry}
    (he : h.entries[position]? = some entry) : h.positions[entry.key]? = some position :=
  (hx entry.key position).mpr (by rw [he, Option.map_some])

/-- A key stands in one entry only. -/
theorem Indexed.entry_eq (hx : h.Indexed) {a b : Entry} (ha : a ∈ h.entries) (hb : b ∈ h.entries)
    (hk : a.key = b.key) : a = b := by
  obtain ⟨i, hi⟩ := Array.mem_iff_getElem?.mp ha
  obtain ⟨j, hj⟩ := Array.mem_iff_getElem?.mp hb
  have hij : i = j := by
    have hpi := hx.positions_of_getElem? hi
    rw [hk, hx.positions_of_getElem? hj] at hpi
    exact (Option.some.inj hpi).symm
  subst hij
  exact Option.some.inj (hi.symm.trans hj)

theorem Indexed.held_eq_some_iff (hx : h.Indexed) :
    h.held key = some count ↔ (⟨key, count⟩ : Entry) ∈ h.entries := by
  rw [held, Option.map_eq_some_iff]
  constructor
  · rintro ⟨entry, hf, rfl⟩
    have hk : entry.key = key := by simpa using Array.find?_some hf
    rw [← hk]
    exact Array.mem_of_find?_eq_some hf
  · intro hmem
    cases hf : h.entries.find? (·.key == key) with
    | none => exact absurd (by simp) (Array.find?_eq_none.mp hf _ hmem)
    | some entry =>
      have hk : entry.key = key := by simpa using Array.find?_some hf
      exact ⟨entry, rfl, by rw [hx.entry_eq (Array.mem_of_find?_eq_some hf) hmem hk]⟩

theorem Indexed.held_eq_none_iff (hx : h.Indexed) :
    h.held key = none ↔ h.positions[key]? = none := by
  rw [← not_iff_not, ← ne_eq, ← ne_eq, Option.ne_none_iff_exists', Option.ne_none_iff_exists']
  constructor
  · rintro ⟨count, hc⟩
    obtain ⟨position, hp⟩ := Array.mem_iff_getElem?.mp (hx.held_eq_some_iff.mp hc)
    exact ⟨position, hx.positions_of_getElem? hp⟩
  · rintro ⟨position, hp⟩
    obtain ⟨entry, he, rfl⟩ := hx.getElem?_of_positions hp
    exact ⟨entry.count, hx.held_eq_some_iff.mpr (Array.mem_iff_getElem?.mpr ⟨position, he⟩)⟩

theorem countAt_of_getElem? {entries : Array Entry} {position : Nat} {entry : Entry}
    (he : entries[position]? = some entry) : countAt entries position = entry.count := by
  rw [countAt, he, Option.map_some, Option.getD_some]

/-- A query reads the map. -/
theorem Indexed.query_eq (hx : h.Indexed) (key : Key) : h.query key = (h.held key).getD 0 := by
  unfold query
  cases hp : h.positions[key]? with
  | none => rw [hx.held_eq_none_iff.mpr hp, Option.getD_none]
  | some position =>
    obtain ⟨entry, he, rfl⟩ := hx.getElem?_of_positions hp
    have hmem := Array.mem_iff_getElem?.mpr ⟨position, he⟩
    rw [hx.held_eq_some_iff.mpr hmem, Option.getD_some]
    exact countAt_of_getElem? he

/-- Where one key has a new count and all others have that of some map, the map is changed at that
key. -/
theorem Indexed.held_eq_update (hx : h.Indexed) {map : Key → Option Int}
    (hmem : ∀ other c, (⟨other, c⟩ : Entry) ∈ h.entries ↔
      if other = key then c = count else map other = some c) :
    h.held = Function.update map key (some count) := by
  funext other
  refine Option.ext fun c => ?_
  rw [hx.held_eq_some_iff, hmem other c, Function.update_apply]
  by_cases hk : other = key
  · rw [if_pos hk, if_pos hk, Option.some_inj, eq_comm]
  · rw [if_neg hk, if_neg hk]

/-! ## What a call does -/

/-- At most as many keys as there is room for, a map of positions that is in step with the entries,
and no count less than the parent's. -/
structure WellFormed (h : BoundedHeap) : Prop where
  size_le : h.entries.size ≤ h.capacity
  indexed : h.Indexed
  ordered : h.Ordered

/-- The heap with another entry at a position. -/
def setEntry (h : BoundedHeap) (position : Nat) (entry : Entry) : BoundedHeap :=
  { h with entries := h.entries.setIfInBounds position entry }

/-- What a call does to the representation: nothing, or one change that is followed by sifting from
the changed position.  That position is in range, and so are all positions on the way. -/
inductive Moves (h : BoundedHeap) (key : Key) (count : Int) : BoundedHeap → Prop where
  | bumped {position : Nat} {entry : Entry} {h₁ h' : BoundedHeap}
      (tracked : h.positions[key]? = some position) (stands : h.entries[position]? = some entry)
      (fits : Count.Fits (entry.count + count))
      (down : SiftsDown (h.setEntry position ⟨key, entry.count + count⟩) position h₁)
      (up : SiftsUp h₁ position h') : Moves h key count h'
  | ignored (untracked : h.positions[key]? = none) (nonpos : count ≤ 0) : Moves h key count h
  | pushed {h' : BoundedHeap} (untracked : h.positions[key]? = none) (pos : 0 < count)
      (room : h.entries.size < h.capacity)
      (up : SiftsUp ⟨h.capacity, h.entries.push ⟨key, count⟩,
        h.positions.insert key h.entries.size⟩ h.entries.size h') : Moves h key count h'
  | replaced {root : Entry} {h' : BoundedHeap} (untracked : h.positions[key]? = none)
      (pos : 0 < count) (full : h.capacity ≤ h.entries.size)
      (stands : h.entries[0]? = some root) (lesser : root.count < count)
      (down : SiftsDown ⟨h.capacity, h.entries.setIfInBounds 0 ⟨key, count⟩,
        (h.positions.erase root.key).insert key 0⟩ 0 h') : Moves h key count h'
  | kept (untracked : h.positions[key]? = none) (pos : 0 < count)
      (full : h.capacity ≤ h.entries.size) (greater : ∀ root, h.entries[0]? = some root →
        count ≤ root.count) : Moves h key count h

/-- What a call does to the map: the count of a key that is held is added to.  Another
key is held if its count is positive and there is room, or in place of a key with the
least count if that is less. -/
inductive Changes (h : BoundedHeap) (key : Key) (count : Int) : (Key → Option Int) → Prop where
  | bumped {old : Int} (tracked : h.held key = some old) :
      Changes h key count (Function.update h.held key (some (old + count)))
  | ignored (untracked : h.held key = none) (nonpos : count ≤ 0) : Changes h key count h.held
  | added (untracked : h.held key = none) (pos : 0 < count) (room : h.size < h.capacity) :
      Changes h key count (Function.update h.held key (some count))
  | replaced {victim : Key} {least : Int} (untracked : h.held key = none) (pos : 0 < count)
      (full : h.capacity ≤ h.size) (victim_held : h.held victim = some least)
      (minimal : ∀ other c, h.held other = some c → least ≤ c) (lesser : least < count) :
      Changes h key count
        (Function.update (Function.update h.held victim none) key (some count))
  | kept (untracked : h.held key = none) (pos : 0 < count) (full : h.capacity ≤ h.size)
      (greater : ∀ other c, h.held other = some c → count ≤ c) : Changes h key count h.held

theorem lt_size_of_getElem? {entries : Array Entry} {position : Nat} {entry : Entry}
    (he : entries[position]? = some entry) : position < entries.size :=
  (Array.getElem?_eq_some_iff.mp he).1

/-- A call that has a value does one of these. -/
theorem WellFormed.moves (h_wf : h.WellFormed) (hi : h.insertOrBump key count = .ok h') :
    Moves h key count h' := by
  unfold insertOrBump at hi
  split at hi
  · rename_i position tracked
    obtain ⟨entry, stands, rfl⟩ := h_wf.indexed.getElem?_of_positions tracked
    unfold bump at hi
    rw [stands] at hi
    obtain ⟨sum, hplus, hi⟩ := Checked.bind_eq_ok.mp hi
    obtain ⟨fits, rfl⟩ := Count.plus_eq_ok_iff.mp hplus
    obtain rfl := Checked.pure_eq_ok.mp hi
    have hp := lt_size_of_getElem? stands
    have down : SiftsDown (h.setEntry position ⟨entry.key, entry.count + count⟩) position _ :=
      siftsDown (by rwa [setEntry, Array.size_setIfInBounds])
    refine .bumped tracked stands fits down (siftsUp ?_)
    rwa [down.rearranged.size_eq, setEntry, Array.size_setIfInBounds]
  · rename_i untracked
    split at hi
    · rename_i nonpos
      cases hi
      exact .ignored untracked nonpos
    · rename_i pos
      split at hi
      · rename_i room
        obtain rfl := Except.ok.inj hi
        exact .pushed untracked (Int.not_le.mp pos) room (siftsUp (by simp))
      · rename_i full
        split at hi
        · rename_i root stands
          obtain rfl := Except.ok.inj hi
          split
          · rename_i lesser
            refine .replaced untracked (Int.not_le.mp pos) (Nat.not_lt.mp full) stands lesser
              (siftsDown ?_)
            simpa using lt_size_of_getElem? stands
          · rename_i greater
            refine .kept untracked (Int.not_le.mp pos) (Nat.not_lt.mp full) fun other ho => ?_
            rw [← Option.some.inj (stands.symm.trans ho)]
            exact Int.not_lt.mp greater
        · -- without capacity there is no root to compare with
          rename_i hnone
          cases hi
          refine .kept untracked (Int.not_le.mp pos) (Nat.not_lt.mp full) fun other ho => ?_
          rw [hnone] at ho
          cases ho

/-! ## The changed heaps before sifting -/

section

variable {position : Nat} {entry old : Entry}

theorem countAt_setIfInBounds {entries : Array Entry} (hp : position < entries.size)
    (entry : Entry) (other : Nat) : countAt (entries.setIfInBounds position entry) other =
      if position = other then entry.count else countAt entries other := by
  rw [countAt, Array.getElem?_setIfInBounds, if_pos hp]
  by_cases heq : position = other
  · rw [if_pos heq, if_pos heq, Option.map_some, Option.getD_some]
  · rw [if_neg heq, if_neg heq, countAt]

theorem mem_setIfInBounds (hx : h.Indexed) (hold : h.entries[position]? = some old) (e : Entry) :
    e ∈ h.entries.setIfInBounds position entry ↔
      e = entry ∨ e ∈ h.entries ∧ e.key ≠ old.key := by
  have hp := lt_size_of_getElem? hold
  have hmem : old ∈ h.entries := Array.mem_iff_getElem?.mpr ⟨position, hold⟩
  rw [Array.mem_iff_getElem?]
  simp only [Array.getElem?_setIfInBounds, hp, if_true]
  constructor
  · rintro ⟨other, ho⟩
    split at ho
    · exact .inl (Option.some.inj ho).symm
    · rename_i hne
      refine .inr ⟨Array.mem_iff_getElem?.mpr ⟨other, ho⟩, fun hk => hne ?_⟩
      have hpos := hx.positions_of_getElem? ho
      rw [hk, hx.positions_of_getElem? hold] at hpos
      exact Option.some.inj hpos
  · rintro (rfl | ⟨he, hk⟩)
    · exact ⟨position, if_pos rfl⟩
    · obtain ⟨other, ho⟩ := Array.mem_iff_getElem?.mp he
      refine ⟨other, (if_neg ?_).trans ho⟩
      rintro rfl
      exact hk (by rw [Option.some.inj (hold.symm.trans ho)])

/-- A changed count does not move a key. -/
theorem Indexed.setEntry (hx : h.Indexed) (hold : h.entries[position]? = some old)
    (hk : entry.key = old.key) : (h.setEntry position entry).Indexed := by
  intro key other
  rw [show (h.setEntry position entry).positions = h.positions from rfl, hx key other,
    BoundedHeap.setEntry, Array.getElem?_setIfInBounds]
  split
  · rename_i heq
    subst heq
    rw [if_pos (lt_size_of_getElem? hold), hold, Option.map_some, Option.map_some, hk]
  · rfl

theorem size_entries_setEntry (h : BoundedHeap) (position : Nat) (entry : Entry) :
    (h.setEntry position entry).entries.size = h.entries.size :=
  Array.size_setIfInBounds

theorem countAt_setEntry_of_ne (hp : position < h.entries.size) {other : Nat}
    (hne : other ≠ position) :
    countAt (h.setEntry position entry).entries other = countAt h.entries other :=
  (countAt_setIfInBounds hp entry other).trans (if_neg (Ne.symm hne))

/-- A changed entry leaves the order between all others. -/
theorem Ordered.edge_setEntry (ho : h.Ordered) (hp : position < h.entries.size) {child : Nat}
    (hc : 0 < child) (hs : child < h.entries.size) (hcp : child ≠ position)
    (hchild : (child - 1) / 2 ≠ position) :
    countAt (h.setEntry position entry).entries ((child - 1) / 2)
      ≤ countAt (h.setEntry position entry).entries child := by
  rw [countAt_setEntry_of_ne hp hchild, countAt_setEntry_of_ne hp hcp]
  exact ho child hc hs

/-- Around a changed entry, its children are not less than its parent. -/
theorem Ordered.bridge_setEntry (ho : h.Ordered) (entry : Entry) (hp : position < h.entries.size)
    {child : Nat} (hc : 0 < child) (hs : child < h.entries.size)
    (hchild : (child - 1) / 2 = position) (hpos : 0 < position) :
    countAt (h.setEntry position entry).entries ((position - 1) / 2)
      ≤ countAt (h.setEntry position entry).entries child := by
  have habove := ho position hpos hp
  have hbelow := ho child hc hs
  have hparent : (position - 1) / 2 ≠ position := by omega
  have hother : child ≠ position := by omega
  rw [countAt_setEntry_of_ne hp hparent, countAt_setEntry_of_ne hp hother]
  rw [hchild] at hbelow
  omega

/-- **After a bump, sifting down and then up from the same position restores the order.**  An entry
that does not go down has the children it had, so it may go up; one that goes down leaves its place
to a child, which is not less than the parent, and nothing goes up. -/
theorem Ordered.of_bump {h₁ : BoundedHeap} (ho : h.Ordered) (hp : position < h.entries.size)
    (down : SiftsDown (h.setEntry position entry) position h₁) (up : SiftsUp h₁ position h') :
    h'.Ordered := by
  have hsize := size_entries_setEntry h position entry
  by_cases habove : 0 < position → countAt (h.setEntry position entry).entries ((position - 1) / 2)
      ≤ countAt (h.setEntry position entry).entries position
  · have hdown : DownOrdered (h.setEntry position entry) position := by
      constructor
      · intro child hc hs hchild
        by_cases hcp : child = position
        · subst hcp
          exact habove hc
        · exact ho.edge_setEntry hp hc (hsize ▸ hs) hcp hchild
      · exact fun child hc hs => ho.bridge_setEntry entry hp hc (hsize ▸ hs)
    exact up.ordered_of_ordered (down.ordered hdown)
  · -- the entry is less than its parent, hence less than its children, and stays
    obtain ⟨hpos, hless⟩ : 0 < position ∧ _ := by simpa using habove
    cases down with
    | sinks inRange lightest_eq below childInRange rest =>
      obtain ⟨hparent, hlt⟩ := lightest_lt lightest_eq (by omega)
      have := ho.bridge_setEntry entry hp (by omega) (hsize ▸ childInRange) hparent hpos
      omega
    | arrived inRange stays =>
      refine up.ordered ⟨fun child hc hs hcp => ?_, fun child hc hs =>
        ho.bridge_setEntry entry hp hc (hsize ▸ hs)⟩
      by_cases hchild : (child - 1) / 2 = position
      · have := ho.bridge_setEntry entry hp hc (hsize ▸ hs) hchild hpos
        rw [hchild]
        omega
      · exact ho.edge_setEntry hp hc (hsize ▸ hs) hcp hchild

/-- An entry of a new key stands just where it is put. -/
theorem Indexed.stands_iff (hx : h.Indexed) (untracked : h.positions[entry.key]? = none)
    {place position : Nat} : some place = some position ↔
      (if place = position then some entry else h.entries[position]?).map (·.key)
        = some entry.key := by
  constructor
  · intro hp
    rw [if_pos (Option.some.inj hp), Option.map_some]
  · intro hp
    split at hp
    · rename_i heq
      rw [heq]
    · rw [← hx entry.key position, untracked] at hp
      cases hp

/-- A new key stands behind all others. -/
theorem Indexed.push (hx : h.Indexed) (untracked : h.positions[entry.key]? = none) :
    Indexed ⟨h.capacity, h.entries.push entry,
      h.positions.insert entry.key h.entries.size⟩ := by
  intro key position
  simp only [Std.TreeMap.getElem?_insert, Std.LawfulEqCmp.compare_eq_iff_eq, Array.getElem?_push]
  by_cases hk : entry.key = key
  · subst hk
    rw [if_pos rfl, hx.stands_iff untracked]
    simp only [eq_comm (a := position)]
  · rw [if_neg hk, hx key position]
    split
    · rename_i heq
      subst heq
      simp [hk]
    · rfl

theorem mem_push (hx : h.Indexed) (untracked : h.positions[entry.key]? = none) (e : Entry) :
    e ∈ h.entries.push entry ↔ e = entry ∨ e ∈ h.entries ∧ e.key ≠ entry.key := by
  rw [Array.mem_push, or_comm]
  refine or_congr_right ⟨fun he => ⟨he, fun hk => ?_⟩, And.left⟩
  obtain ⟨position, hp⟩ := Array.mem_iff_getElem?.mp he
  rw [← hk, hx.positions_of_getElem? hp] at untracked
  cases untracked

theorem Ordered.upOrdered_push (ho : h.Ordered) (positions : Std.TreeMap Key Nat) :
    UpOrdered ⟨h.capacity, h.entries.push entry, positions⟩ h.entries.size := by
  have hcount : ∀ other, other < h.entries.size →
      countAt (h.entries.push entry) other = countAt h.entries other := fun other ho => by
    rw [countAt, Array.getElem?_push, if_neg (by omega), countAt]
  constructor
  · intro child hc hs hcp
    have hs' : child < h.entries.size := by
      have : child < h.entries.size + 1 := by simpa using hs
      omega
    show countAt (h.entries.push entry) _ ≤ countAt (h.entries.push entry) _
    rw [hcount child hs', hcount _ (by omega)]
    exact ho child hc hs'
  · intro child hc hs hchild _
    have : child < h.entries.size + 1 := by simpa using hs
    omega

/-- A new key takes the place of the one at the root. -/
theorem Indexed.replaceRoot (hx : h.Indexed) (hroot : h.entries[0]? = some old)
    (untracked : h.positions[entry.key]? = none) :
    Indexed ⟨h.capacity, h.entries.setIfInBounds 0 entry,
      (h.positions.erase old.key).insert entry.key 0⟩ := by
  intro key position
  have hp := lt_size_of_getElem? hroot
  simp only [Std.TreeMap.getElem?_insert, Std.TreeMap.getElem?_erase,
    Std.LawfulEqCmp.compare_eq_iff_eq, Array.getElem?_setIfInBounds, hp, if_true]
  by_cases hk : entry.key = key
  · subst hk
    rw [if_pos rfl, hx.stands_iff untracked]
  · rw [if_neg hk]
    by_cases ho : old.key = key
    · -- the key of the old root stands nowhere else
      subst ho
      rw [if_pos rfl]
      split
      · simp [hk]
      · rename_i hne
        rw [← hx old.key position, hx.positions_of_getElem? hroot]
        simp [hne]
    · rw [if_neg ho, hx key position]
      split
      · rename_i heq
        subst heq
        simp [hk, ho, hroot]
      · rfl

theorem Ordered.downOrdered_replaceRoot (ho : h.Ordered) (hp : 0 < h.entries.size)
    (positions : Std.TreeMap Key Nat) :
    DownOrdered ⟨h.capacity, h.entries.setIfInBounds 0 entry, positions⟩ 0 := by
  constructor
  · intro child hc hs hchild
    have hs' : child < h.entries.size := by simpa using hs
    exact ho.edge_setEntry hp hc hs' (by omega) hchild
  · exact fun child _ _ _ h0 => absurd h0 (Nat.lt_irrefl 0)

end

/-! ## Every call refines the map -/

/-- **A call keeps a heap well formed.** -/
theorem Moves.wellFormed (hw : h.WellFormed) (call : Moves h key count h') : h'.WellFormed := by
  obtain ⟨size_le, indexed, ordered⟩ := hw
  cases call with
  | @bumped position entry h₁ _ tracked stands fits down up =>
    have hk : entry.key = key := by
      obtain ⟨other, ho, hk⟩ := indexed.getElem?_of_positions tracked
      rwa [← Option.some.inj (stands.symm.trans ho)] at hk
    have arranged := down.rearranged.trans up.rearranged
    refine ⟨?_, arranged.indexed (indexed.setEntry stands hk.symm),
      ordered.of_bump (lt_size_of_getElem? stands) down up⟩
    rw [arranged.size_eq, arranged.capacity_eq, size_entries_setEntry]
    exact size_le
  | ignored => exact ⟨size_le, indexed, ordered⟩
  | pushed untracked pos room up =>
    have arranged := up.rearranged
    refine ⟨?_, arranged.indexed (indexed.push untracked), up.ordered (ordered.upOrdered_push _)⟩
    rw [arranged.size_eq, arranged.capacity_eq]
    show (h.entries.push _).size ≤ h.capacity
    rw [Array.size_push]
    exact room
  | replaced untracked pos full stands lesser down =>
    have arranged := down.rearranged
    refine ⟨?_, arranged.indexed (indexed.replaceRoot stands untracked),
      down.ordered (ordered.downOrdered_replaceRoot (lt_size_of_getElem? stands) _)⟩
    rw [arranged.size_eq, arranged.capacity_eq]
    show (h.entries.setIfInBounds 0 _).size ≤ h.capacity
    rw [Array.size_setIfInBounds]
    exact size_le
  | kept => exact ⟨size_le, indexed, ordered⟩

/-- The root has the least count. -/
theorem Ordered.root_le (ho : h.Ordered) {position : Nat} (hp : position < h.entries.size) :
    countAt h.entries 0 ≤ countAt h.entries position := by
  induction position using Nat.strongRecOn with
  | ind position ih =>
    rcases Nat.eq_zero_or_pos position with rfl | hpos
    · exact Int.le_refl _
    · have habove := ih ((position - 1) / 2) (by omega) (by omega)
      have := ho position hpos hp
      omega

theorem WellFormed.root_le (hw : h.WellFormed) {root : Entry} (hroot : h.entries[0]? = some root)
    {other : Key} {c : Int} (hc : h.held other = some c) : root.count ≤ c := by
  obtain ⟨position, hp⟩ := Array.mem_iff_getElem?.mp (hw.indexed.held_eq_some_iff.mp hc)
  have := hw.ordered.root_le (lt_size_of_getElem? hp)
  rwa [countAt_of_getElem? hroot, countAt_of_getElem? hp] at this

/-- **A call changes the map in one of the five ways.** -/
theorem Moves.changes (hw : h.WellFormed) (call : Moves h key count h') :
    Changes h key count h'.held := by
  have hx := hw.indexed
  have hx' := (call.wellFormed hw).indexed
  cases call with
  | @bumped position entry h₁ _ tracked stands fits down up =>
    obtain ⟨other, ho, hk⟩ := hx.getElem?_of_positions tracked
    obtain rfl := Option.some.inj (stands.symm.trans ho)
    subst hk
    have held : h.held entry.key = some entry.count :=
      hx.held_eq_some_iff.mpr (Array.mem_iff_getElem?.mpr ⟨position, stands⟩)
    have arranged := down.rearranged.trans up.rearranged
    have hmap : h'.held = Function.update h.held entry.key (some (entry.count + count)) := by
      refine hx'.held_eq_update fun other c => ?_
      rw [arranged.mem_iff, setEntry, mem_setIfInBounds hx stands, Record.mk.injEq,
        hx.held_eq_some_iff]
      split <;> simp_all
    rw [hmap]
    exact .bumped held
  | ignored untracked nonpos => exact .ignored (hx.held_eq_none_iff.mpr untracked) nonpos
  | pushed untracked pos room up =>
    have hmap : h'.held = Function.update h.held key (some count) := by
      refine hx'.held_eq_update fun other c => ?_
      rw [up.rearranged.mem_iff, mem_push hx untracked, Record.mk.injEq, hx.held_eq_some_iff]
      split <;> simp_all
    rw [hmap]
    exact .added (hx.held_eq_none_iff.mpr untracked) pos room
  | @replaced root _ untracked pos full stands lesser down =>
    have hmap : h'.held
        = Function.update (Function.update h.held root.key none) key (some count) := by
      refine hx'.held_eq_update fun other c => ?_
      rw [down.rearranged.mem_iff, mem_setIfInBounds hx stands, Record.mk.injEq,
        Function.update_apply, ← hx.held_eq_some_iff]
      by_cases hk : other = key
      · subst hk
        simp [hx.held_eq_none_iff.mpr untracked]
      · by_cases hr : other = root.key
        · subst hr
          simp [hk]
        · simp [hk, hr]
    rw [hmap]
    have held : h.held root.key = some root.count :=
      hx.held_eq_some_iff.mpr (Array.mem_iff_getElem?.mpr ⟨0, stands⟩)
    exact .replaced (hx.held_eq_none_iff.mpr untracked) pos full held
      (fun other c hc => hw.root_le stands hc) lesser
  | kept untracked pos full greater =>
    refine .kept (hx.held_eq_none_iff.mpr untracked) pos full fun other c hc => ?_
    obtain ⟨position, hp⟩ := Array.mem_iff_getElem?.mp (hx.held_eq_some_iff.mp hc)
    have hsize : 0 < h.entries.size := by
      have := lt_size_of_getElem? hp
      omega
    obtain ⟨root, hroot⟩ : ∃ root, h.entries[0]? = some root :=
      ⟨_, Array.getElem?_eq_getElem hsize⟩
    have := greater root hroot
    have := hw.root_le hroot hc
    omega

/-- A call fails only where a key is held and its sum does not fit. -/
theorem WellFormed.insertOrBump_cases (hw : h.WellFormed) (key : Key) (count : Int) :
    (∃ h', h.insertOrBump key count = .ok h') ∨ ∃ old, h.held key = some old ∧
      ¬Count.Fits (old + count) ∧ h.insertOrBump key count = .error (.overflow .add) := by
  unfold insertOrBump
  split
  · rename_i position tracked
    obtain ⟨entry, stands, rfl⟩ := hw.indexed.getElem?_of_positions tracked
    have held : h.held entry.key = some entry.count :=
      hw.indexed.held_eq_some_iff.mpr (Array.mem_iff_getElem?.mpr ⟨position, stands⟩)
    unfold bump
    rw [stands]
    dsimp only
    by_cases fits : Count.Fits (entry.count + count)
    · refine .inl ⟨_, Checked.bind_eq_ok.mpr ⟨_, Count.plus_eq_ok_iff.mpr ⟨fits, rfl⟩, rfl⟩⟩
    · refine .inr ⟨_, held, fits, ?_⟩
      rw [show Count.plus entry.count count = .error (.overflow .add) from if_neg fits]
      rfl
  · split
    · exact .inl ⟨_, rfl⟩
    · split
      · exact .inl ⟨_, rfl⟩
      · split
        · exact .inl ⟨_, rfl⟩
        · exact .inl ⟨_, rfl⟩

/-! ## Runs of calls -/

/-- Makes calls in order, each with a key and what to add to its count. -/
def insertAll (h : BoundedHeap) (calls : List Entry) : Checked BoundedHeap :=
  calls.foldlM (fun h call => h.insertOrBump call.key call.count) h

theorem wellFormed_empty (capacity : Nat) : (empty capacity).WellFormed where
  size_le := Nat.zero_le capacity
  indexed := by
    intro key position
    simp [empty]
  ordered := by
    intro child _ hs
    simp [empty] at hs

theorem Moves.capacity_eq (call : Moves h key count h') : h'.capacity = h.capacity := by
  cases call with
  | bumped _ _ _ down up => exact (down.rearranged.trans up.rearranged).capacity_eq
  | ignored => rfl
  | pushed _ _ _ up => exact up.rearranged.capacity_eq
  | replaced _ _ _ _ _ down => exact down.rearranged.capacity_eq
  | kept => rfl

theorem WellFormed.insertAll (hw : h.WellFormed) {calls : List Entry}
    (run : h.insertAll calls = .ok h') : h'.WellFormed ∧ h'.capacity = h.capacity := by
  refine Checked.kept_foldlM (fun h' : BoundedHeap => h'.WellFormed ∧ h'.capacity = h.capacity)
    (fun {h₁ h₂ call} hinv hi => ?_) ⟨hw, rfl⟩ run
  have moves := hinv.1.moves hi
  exact ⟨moves.wellFormed hinv.1, moves.capacity_eq.trans hinv.2⟩

theorem Indexed.nodup_keys (hx : h.Indexed) : (h.entries.toList.map (·.key)).Nodup := by
  rw [List.nodup_iff_pairwise_ne, List.pairwise_iff_getElem]
  intro i j hi hj hlt heq
  rw [List.length_map, Array.length_toList] at hi hj
  have hpi := hx.positions_of_getElem? (Array.getElem?_eq_getElem hi)
  have hpj := hx.positions_of_getElem? (Array.getElem?_eq_getElem hj)
  rw [List.getElem_map, List.getElem_map, Array.getElem_toList, Array.getElem_toList] at heq
  rw [heq, hpj] at hpi
  exact absurd (Option.some.inj hpi) (by omega)

/-- What is known of a heap after any calls, and of the call after them. -/
structure Guarantees (capacity : Nat) (h : BoundedHeap) : Prop where
  /-- The room that decides what the next call does is the one that was asked for. -/
  capacity_eq : h.capacity = capacity
  size_le : h.size ≤ capacity
  nodup_keys : (h.entries.toList.map (·.key)).Nodup
  /-- The map of positions has every key that is held, and no other. -/
  indexed : h.Indexed
  /-- No count is less than the parent's. -/
  ordered : h.Ordered
  query_eq : ∀ key, h.query key = (h.held key).getD 0
  /-- The next call sifts within the heap and changes the map as it should, or overflows. -/
  next : ∀ key count,
    (∃ h', h.insertOrBump key count = .ok h' ∧ Moves h key count h' ∧ Changes h key count h'.held) ∨
      ∃ old, h.held key = some old ∧ ¬Count.Fits (old + count) ∧
        h.insertOrBump key count = .error (.overflow .add)

/--
**A bounded heap refines a bounded map.**  After any calls that do not overflow, with counts of any
sign, an empty heap has become one that is well formed, answers by its map, and with the next call
changes the map in the way that its count and the room decide.
-/
theorem guarantees_of_calls {capacity : Nat} {calls : List Entry}
    (run : (empty capacity).insertAll calls = .ok h) : Guarantees capacity h := by
  obtain ⟨hw, hcapacity⟩ := (wellFormed_empty capacity).insertAll run
  have hcapacity : h.capacity = capacity := hcapacity
  refine ⟨hcapacity, ?_, hw.indexed.nodup_keys, hw.indexed, hw.ordered, hw.indexed.query_eq, ?_⟩
  · rw [size, ← hcapacity]
    exact hw.size_le
  · intro key count
    refine (hw.insertOrBump_cases key count).imp_left fun ⟨h', hi⟩ => ?_
    have moves := hw.moves hi
    exact ⟨h', hi, moves, moves.changes hw⟩

/-- A heap with room for three keys: one of them falls to the root and is replaced there. -/
theorem guarantees_of_calls_three_entries : ∃ h,
    (empty 3).insertAll [⟨1, 5⟩, ⟨2, 3⟩, ⟨3, 4⟩, ⟨2, 9⟩, ⟨1, -6⟩, ⟨4, 0⟩, ⟨5, 2⟩, ⟨6, 2⟩] = .ok h ∧
      h.entries.toList = [⟨5, 2⟩, ⟨3, 4⟩, ⟨2, 12⟩] ∧ Guarantees 3 h := by
  have hrun : ((·.entries.toList) <$> (empty 3).insertAll
      [⟨1, 5⟩, ⟨2, 3⟩, ⟨3, 4⟩, ⟨2, 9⟩, ⟨1, -6⟩, ⟨4, 0⟩, ⟨5, 2⟩, ⟨6, 2⟩] : Checked (List Entry))
      = .ok [⟨5, 2⟩, ⟨3, 4⟩, ⟨2, 12⟩] := by cbv
  obtain ⟨h, run, hentries⟩ := Checked.map_eq_ok.mp hrun
  exact ⟨h, run, hentries, guarantees_of_calls run⟩

end BoundedHeap

end HeavyHitters
