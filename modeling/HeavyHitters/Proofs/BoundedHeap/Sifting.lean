import HeavyHitters.BoundedHeap
import Mathlib.Logic.Equiv.Basic

/-!
# Sifting restores a heap

Sifting exchanges entries along one path of a heap.  Each exchange keeps the
position map in step with the entries and moves the one place where the order is
disturbed by one level, until it is gone.

* `BoundedHeap.SiftsUp` and `BoundedHeap.SiftsDown` are the runs of the two loops,
  with every position in range; `siftsUp` and `siftsDown` say that the loops have such
  runs from any position in range.
* `BoundedHeap.Rearranged` is what a run leaves alone.
* `BoundedHeap.OrderedBut` is a heap with one disturbed place; `SiftsUp.ordered` and
  `SiftsDown.ordered` say that the run from there ends in order.
-/

namespace HeavyHitters

namespace BoundedHeap

variable {h h' : BoundedHeap} {i j : Nat}

/-! ## Exchanging two entries -/

/-- The map gives the position of every key that is held, and of no other key. -/
def Indexed (h : BoundedHeap) : Prop :=
  ∀ (key : Key) (position : Nat), h.positions[key]? = some position ↔
    h.entries[position]?.map (·.key) = some key

theorem swap_eq {a b : Entry} (hi : h.entries[i]? = some a) (hj : h.entries[j]? = some b) :
    h.swap i j = { h with
      entries := (h.entries.setIfInBounds i b).setIfInBounds j a
      positions := (h.positions.insert b.key i).insert a.key j } := by
  unfold swap
  rw [hi, hj]

theorem capacity_swap (h : BoundedHeap) (i j : Nat) : (h.swap i j).capacity = h.capacity := by
  unfold swap
  split <;> rfl

/-- After an exchange, a position has what stood at its counterpart. -/
theorem getElem?_swap (hi : i < h.entries.size) (hj : j < h.entries.size) (position : Nat) :
    (h.swap i j).entries[position]? = h.entries[Equiv.swap i j position]? := by
  rw [swap_eq (Array.getElem?_eq_getElem hi) (Array.getElem?_eq_getElem hj),
    Equiv.swap_apply_def]
  simp only [Array.getElem?_setIfInBounds, Array.size_setIfInBounds, hi, hj, if_true]
  by_cases hpj : j = position
  · subst hpj
    rw [if_pos rfl]
    split
    · rename_i hji
      subst hji
      exact (Array.getElem?_eq_getElem hi).symm
    · rw [if_pos rfl, Array.getElem?_eq_getElem hi]
  · rw [if_neg hpj]
    by_cases hpi : i = position
    · rw [if_pos hpi, if_pos hpi.symm, Array.getElem?_eq_getElem hj]
    · rw [if_neg hpi, if_neg (Ne.symm hpi), if_neg (Ne.symm hpj)]

theorem countAt_swap (hi : i < h.entries.size) (hj : j < h.entries.size) (position : Nat) :
    countAt (h.swap i j).entries position = countAt h.entries (Equiv.swap i j position) := by
  rw [countAt, getElem?_swap hi hj, countAt]

/-- The map sends the keys of the exchanged entries to each other's position. -/
theorem Indexed.getElem?_positions_swap (hx : h.Indexed) (hi : i < h.entries.size)
    (hj : j < h.entries.size) (key : Key) :
    (h.swap i j).positions[key]? = h.positions[key]?.map (Equiv.swap i j) := by
  obtain ⟨a, ha⟩ : ∃ a, h.entries[i]? = some a := ⟨_, Array.getElem?_eq_getElem hi⟩
  obtain ⟨b, hb⟩ : ∃ b, h.entries[j]? = some b := ⟨_, Array.getElem?_eq_getElem hj⟩
  rw [swap_eq ha hb]
  simp only [Std.TreeMap.getElem?_insert, Std.LawfulEqCmp.compare_eq_iff_eq]
  by_cases hka : a.key = key
  · have hp : h.positions[key]? = some i := (hx key i).mpr (by rw [ha, ← hka]; rfl)
    rw [if_pos hka, hp, Option.map_some, Equiv.swap_apply_left]
  · rw [if_neg hka]
    by_cases hkb : b.key = key
    · have hp : h.positions[key]? = some j := (hx key j).mpr (by rw [hb, ← hkb]; rfl)
      rw [if_pos hkb, hp, Option.map_some, Equiv.swap_apply_right]
    · rw [if_neg hkb]
      cases hp : h.positions[key]? with
      | none => rfl
      | some position =>
        -- a third key stands at neither of the two positions
        have hat := (hx key position).mp hp
        have hni : position ≠ i := by
          rintro rfl
          rw [ha] at hat
          exact hka (Option.some.inj hat)
        have hnj : position ≠ j := by
          rintro rfl
          rw [hb] at hat
          exact hkb (Option.some.inj hat)
        rw [Option.map_some, Equiv.swap_apply_of_ne_of_ne hni hnj]

theorem Indexed.swap (hx : h.Indexed) (hi : i < h.entries.size) (hj : j < h.entries.size) :
    (h.swap i j).Indexed := by
  intro key position
  rw [hx.getElem?_positions_swap hi hj, getElem?_swap hi hj, ← hx key, Option.map_eq_some_iff]
  constructor
  · rintro ⟨before, hp, rfl⟩
    rw [hp, Equiv.swap_apply_self]
  · exact fun hp => ⟨_, hp, Equiv.swap_apply_self _ _ _⟩

/-- The same entries in the same number of places, with the map still in step. -/
structure Rearranged (h h' : BoundedHeap) : Prop where
  capacity_eq : h'.capacity = h.capacity
  size_eq : h'.entries.size = h.entries.size
  mem_iff : ∀ e, e ∈ h'.entries ↔ e ∈ h.entries
  indexed : h.Indexed → h'.Indexed

theorem Rearranged.refl (h : BoundedHeap) : Rearranged h h := ⟨rfl, rfl, fun _ => Iff.rfl, id⟩

theorem Rearranged.trans {h₁ h₂ h₃ : BoundedHeap} (h₁₂ : Rearranged h₁ h₂)
    (h₂₃ : Rearranged h₂ h₃) : Rearranged h₁ h₃ :=
  ⟨h₂₃.capacity_eq.trans h₁₂.capacity_eq, h₂₃.size_eq.trans h₁₂.size_eq,
    fun e => (h₂₃.mem_iff e).trans (h₁₂.mem_iff e), fun hx => h₂₃.indexed (h₁₂.indexed hx)⟩

theorem rearranged_swap (hi : i < h.entries.size) (hj : j < h.entries.size) :
    Rearranged h (h.swap i j) := by
  refine ⟨capacity_swap h i j, size_entries_swap h i j, fun e => ?_, fun hx => hx.swap hi hj⟩
  rw [Array.mem_iff_getElem?, Array.mem_iff_getElem?]
  constructor
  · rintro ⟨position, hp⟩
    exact ⟨_, (getElem?_swap hi hj position).symm.trans hp⟩
  · rintro ⟨position, hp⟩
    refine ⟨Equiv.swap i j position, ?_⟩
    rwa [getElem?_swap hi hj, Equiv.swap_apply_self]

/-! ## Runs of the loops -/

/-- A run of the upward loop: while the entry has a lesser count than its parent, the
two are exchanged.  The position is in range all the time, and so is that of the
parent, which is before it. -/
inductive SiftsUp : BoundedHeap → (position : Nat) → BoundedHeap → Prop where
  | arrived {h : BoundedHeap} {position : Nat} (inRange : position < h.entries.size)
      (stays : 0 < position →
        countAt h.entries ((position - 1) / 2) ≤ countAt h.entries position) :
      SiftsUp h position h
  | rises {h h' : BoundedHeap} {position : Nat} (inRange : position < h.entries.size)
      (notRoot : 0 < position)
      (lesser : countAt h.entries position < countAt h.entries ((position - 1) / 2))
      (rest : SiftsUp (h.swap ((position - 1) / 2) position) ((position - 1) / 2) h') :
      SiftsUp h position h'

/-- A run of the downward loop: while a child has a lesser count than the entry, the entry is
exchanged with the lightest child.  Position and child are in range all the time. -/
inductive SiftsDown : BoundedHeap → (position : Nat) → BoundedHeap → Prop where
  | arrived {h : BoundedHeap} {position : Nat} (inRange : position < h.entries.size)
      (stays : lightest h.entries position = position) : SiftsDown h position h
  | sinks {h h' : BoundedHeap} {position child : Nat} (inRange : position < h.entries.size)
      (lightest_eq : lightest h.entries position = child) (below : position < child)
      (childInRange : child < h.entries.size) (rest : SiftsDown (h.swap position child) child h') :
      SiftsDown h position h'

/-- **The upward loop ends, with all positions in range.** -/
theorem siftsUp {position : Nat} (hp : position < h.entries.size) :
    SiftsUp h position (h.siftUp position) := by
  induction h, position using siftUp.induct with
  | case1 h =>
    rw [siftUp, if_pos rfl]
    exact .arrived hp fun h0 => absurd h0 (Nat.lt_irrefl 0)
  | case2 h position hne parent hlt ih =>
    rw [siftUp, if_neg hne, if_pos hlt]
    exact .rises hp (Nat.pos_of_ne_zero hne) hlt (ih (by rw [size_entries_swap]; omega))
  | case3 h position hne parent hle =>
    rw [siftUp, if_neg hne, if_neg hle]
    exact .arrived hp fun _ => Int.not_lt.mp hle

/-- **The downward loop ends, with all positions in range.** -/
theorem siftsDown {position : Nat} (hp : position < h.entries.size) :
    SiftsDown h position (h.siftDown position) := by
  induction h, position using siftDown.induct with
  | case1 h position hstay =>
    rw [siftDown, if_pos hstay]
    exact .arrived hp hstay
  | case2 h position hmove ih =>
    obtain ⟨hbelow, hchild⟩ := (lightest_eq_or h.entries position).resolve_left hmove
    rw [siftDown, if_neg hmove]
    exact .sinks hp rfl hbelow hchild (ih (by rwa [size_entries_swap]))

theorem SiftsUp.rearranged {position : Nat} (run : SiftsUp h position h') : Rearranged h h' := by
  induction run with
  | arrived => exact .refl _
  | rises inRange notRoot _ _ ih => exact (rearranged_swap (by omega) inRange).trans ih

theorem SiftsDown.rearranged {position : Nat} (run : SiftsDown h position h') :
    Rearranged h h' := by
  induction run with
  | arrived => exact .refl _
  | sinks inRange _ _ childInRange _ ih => exact (rearranged_swap inRange childInRange).trans ih

/-! ## Order -/

/-- No count is less than the parent's. -/
def Ordered (h : BoundedHeap) : Prop :=
  ∀ child, 0 < child → child < h.entries.size →
    countAt h.entries ((child - 1) / 2) ≤ countAt h.entries child

/-- A heap in order but for some of the children, where an entry may be exchanged with its parent or
with a child: what stands below the position is not less than what stands above it. -/
structure OrderedBut (h : BoundedHeap) (position : Nat) (exempt : Nat → Prop) : Prop where
  edge : ∀ child, 0 < child → child < h.entries.size → ¬exempt child →
    countAt h.entries ((child - 1) / 2) ≤ countAt h.entries child
  bridge : ∀ child, 0 < child → child < h.entries.size → (child - 1) / 2 = position → 0 < position →
    countAt h.entries ((position - 1) / 2) ≤ countAt h.entries child

/-- Only the entry at the position may be less than its parent. -/
abbrev UpOrdered (h : BoundedHeap) (position : Nat) : Prop :=
  OrderedBut h position fun child => child = position

/-- Only the entry at the position may be greater than its children. -/
abbrev DownOrdered (h : BoundedHeap) (position : Nat) : Prop :=
  OrderedBut h position fun child => (child - 1) / 2 = position

theorem countAt_swap_left (hi : i < h.entries.size) (hj : j < h.entries.size) :
    countAt (h.swap i j).entries i = countAt h.entries j := by
  rw [countAt_swap hi hj, Equiv.swap_apply_left]

theorem countAt_swap_right (hi : i < h.entries.size) (hj : j < h.entries.size) :
    countAt (h.swap i j).entries j = countAt h.entries i := by
  rw [countAt_swap hi hj, Equiv.swap_apply_right]

theorem countAt_swap_of_ne (hi : i < h.entries.size) (hj : j < h.entries.size) {position : Nat}
    (hni : position ≠ i) (hnj : position ≠ j) :
    countAt (h.swap i j).entries position = countAt h.entries position := by
  rw [countAt_swap hi hj, Equiv.swap_apply_of_ne_of_ne hni hnj]

/-- The disturbed place rises with the entry. -/
theorem UpOrdered.swap {position : Nat} (ho : UpOrdered h position)
    (hp : position < h.entries.size) (hpos : 0 < position)
    (hlt : countAt h.entries position < countAt h.entries ((position - 1) / 2)) :
    UpOrdered (h.swap ((position - 1) / 2) position) ((position - 1) / 2) := by
  obtain ⟨edge, bridge⟩ := ho
  obtain ⟨parent, hparent⟩ : ∃ parent, (position - 1) / 2 = parent := ⟨_, rfl⟩
  rw [hparent] at hlt bridge ⊢
  have hq : parent < h.entries.size := by omega
  have hatParent := countAt_swap_left hq hp
  have hatPosition := countAt_swap_right hq hp
  constructor
  · intro child hc hs hne
    rw [size_entries_swap] at hs
    by_cases hcp : child = position
    · subst hcp
      rw [hparent]
      omega
    · rw [countAt_swap_of_ne hq hp hne hcp]
      have hedge := edge child hc hs hcp
      by_cases hchild : (child - 1) / 2 = position
      · -- the parent has come down here, and is bridged to the children
        have := bridge child hc hs hchild hpos
        rw [hchild]
        omega
      · by_cases hsibling : (child - 1) / 2 = parent
        · rw [hsibling] at hedge ⊢
          omega
        · rwa [countAt_swap_of_ne hq hp hsibling hchild]
  · intro child hc hs hchild hpar
    rw [size_entries_swap] at hs
    -- the grandparent stays where it is, and was not above the parent
    rw [countAt_swap_of_ne hq hp (by omega) (by omega)]
    have hgrand := edge parent hpar hq (by omega)
    by_cases hcp : child = position
    · subst hcp
      omega
    · rw [countAt_swap_of_ne hq hp (by omega) hcp]
      have hedge := edge child hc hs hcp
      rw [hchild] at hedge
      omega

theorem UpOrdered.ordered {position : Nat} (ho : UpOrdered h position)
    (stays : 0 < position → countAt h.entries ((position - 1) / 2) ≤ countAt h.entries position) :
    h.Ordered := by
  intro child hc hs
  by_cases hcp : child = position
  · subst hcp
    exact stays hc
  · exact ho.edge child hc hs hcp

/-- **Sifting up from the disturbed place ends in order.** -/
theorem SiftsUp.ordered {position : Nat} (run : SiftsUp h position h')
    (ho : UpOrdered h position) : h'.Ordered := by
  induction run with
  | arrived _ stays => exact ho.ordered stays
  | rises inRange notRoot lesser _ ih => exact ih (ho.swap inRange notRoot lesser)

/-- Nothing goes up in a heap in order. -/
theorem SiftsUp.ordered_of_ordered {position : Nat} (run : SiftsUp h position h')
    (ho : h.Ordered) : h'.Ordered := by
  cases run with
  | arrived => exact ho
  | rises inRange notRoot lesser _ =>
    have := ho position notRoot inRange
    omega

theorem lighter_le (entries : Array Entry) (i j : Nat) :
    countAt entries (lighter entries i j) ≤ countAt entries i ∧
      (j < entries.size → countAt entries (lighter entries i j) ≤ countAt entries j) := by
  unfold lighter
  split <;> omega

/-- The lightest of a position and its children is not greater than any of them. -/
theorem lightest_le (entries : Array Entry) (position : Nat) :
    countAt entries (lightest entries position) ≤ countAt entries position ∧
      ∀ child, 0 < child → child < entries.size → (child - 1) / 2 = position →
        countAt entries (lightest entries position) ≤ countAt entries child := by
  obtain ⟨hself, hleft⟩ := lighter_le entries position (2 * position + 1)
  obtain ⟨hfirst, hright⟩ :=
    lighter_le entries (lighter entries position (2 * position + 1)) (2 * position + 2)
  rw [← lightest] at hfirst hright
  refine ⟨by omega, fun child hc hs hchild => ?_⟩
  rcases Nat.lt_or_ge child (2 * position + 2) with hlt | hge
  · obtain rfl : child = 2 * position + 1 := by omega
    have := hleft hs
    omega
  · obtain rfl : child = 2 * position + 2 := by omega
    exact hright hs

theorem lighter_cases (entries : Array Entry) (i j : Nat) :
    lighter entries i j = i ∨
      lighter entries i j = j ∧ countAt entries j < countAt entries i := by
  unfold lighter
  split
  · rename_i hlt
    exact .inr ⟨rfl, hlt.2⟩
  · exact .inl rfl

/-- A lightest child is a child, and less than the entry above it. -/
theorem lightest_lt {entries : Array Entry} {position child : Nat}
    (h : lightest entries position = child) (hne : child ≠ position) :
    (child - 1) / 2 = position ∧ countAt entries child < countAt entries position := by
  subst h
  unfold lightest at hne ⊢
  rcases lighter_cases entries position (2 * position + 1) with hfirst | ⟨hfirst, hlt⟩
  · rw [hfirst] at hne ⊢
    rcases lighter_cases entries position (2 * position + 2) with hsecond | ⟨hsecond, hlt⟩
    · exact absurd hsecond hne
    · rw [hsecond]
      exact ⟨by omega, hlt⟩
  · rw [hfirst]
    rcases lighter_cases entries (2 * position + 1) (2 * position + 2)
      with hsecond | ⟨hsecond, hlt'⟩
    · rw [hsecond]
      exact ⟨by omega, hlt⟩
    · rw [hsecond]
      exact ⟨by omega, by omega⟩

/-- The disturbed place sinks with the entry. -/
theorem DownOrdered.swap {position child : Nat} (ho : DownOrdered h position)
    (hp : position < h.entries.size) (hl : lightest h.entries position = child)
    (hbelow : position < child) (hs : child < h.entries.size) :
    DownOrdered (h.swap position child) child := by
  obtain ⟨edge, bridge⟩ := ho
  obtain ⟨hparent, hlt⟩ := lightest_lt hl (by omega)
  have hle := (lightest_le h.entries position).2
  rw [hl] at hle
  have hatPosition := countAt_swap_left hp hs
  have hatChild := countAt_swap_right hp hs
  constructor
  · intro other ho hos hne
    rw [size_entries_swap] at hos
    by_cases hoc : other = child
    · subst hoc
      rw [hparent]
      omega
    · by_cases hop : other = position
      · -- the child that has come up is bridged to what stands above the position
        subst hop
        rw [countAt_swap_of_ne hp hs (by omega) (by omega)]
        have := bridge child (by omega) hs hparent ho
        omega
      · rw [countAt_swap_of_ne hp hs hop hoc]
        by_cases hsibling : (other - 1) / 2 = position
        · -- that child was the lightest, so its sibling is not less
          have := hle other ho hos hsibling
          rw [hsibling]
          omega
        · rw [countAt_swap_of_ne hp hs hsibling hne]
          exact edge other ho hos hsibling
  · intro other ho hos hchild _
    rw [size_entries_swap] at hos
    have hnp : other ≠ position := by omega
    have hnc : other ≠ child := by omega
    rw [hparent, countAt_swap_of_ne hp hs hnp hnc]
    have := edge other ho hos (by omega)
    rw [hchild] at this
    omega

theorem DownOrdered.ordered {position : Nat} (ho : DownOrdered h position)
    (stays : lightest h.entries position = position) : h.Ordered := by
  intro child hc hs
  by_cases hchild : (child - 1) / 2 = position
  · have := (lightest_le h.entries position).2 child hc hs hchild
    rw [stays] at this
    rwa [hchild]
  · exact ho.edge child hc hs hchild

/-- **Sifting down from the disturbed place ends in order.** -/
theorem SiftsDown.ordered {position : Nat} (run : SiftsDown h position h')
    (ho : DownOrdered h position) : h'.Ordered := by
  induction run with
  | arrived _ stays => exact ho.ordered stays
  | sinks inRange lightest_eq below childInRange _ ih =>
    exact ih (ho.swap inRange lightest_eq below childInRange)

end BoundedHeap

end HeavyHitters
