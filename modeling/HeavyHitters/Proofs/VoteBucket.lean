import HeavyHitters.Proofs.Tracker.Pipelines
import HeavyHitters.VoteBucket

/-!
# Buckets decided by votes

A takeover is not an exchange of units: the newcomer inherits the votes of the resident, which goes
on with weight one.  Residents still have weight and sit in the buckets of their keys, since a
bucket is only ever given the key of the unit that was offered to it.

* `VoteBucket.Poll` is what may happen at a bucket, and
  `VoteBucket.poll_of_offer` says that nothing else does.
* `VoteBucket.Passage` is the way of a unit through the rows of a table, poll by poll.
* `VoteBucket.Passage.placed` says that a table of buckets stays placed.
-/

namespace HeavyHitters

namespace VoteBucket

variable {unit : Entry} {b b' : VoteBucket} {given : Option Entry}

/-- What happens at a bucket that is offered a unit: the bucket before, the bucket
after, and the unit that goes on. -/
inductive Poll (unit : Entry) : VoteBucket → VoteBucket → Option Entry → Prop where
  /-- The unit moves into an empty bucket. -/
  | settled {b : VoteBucket} (hempty : b.all = 0) :
      Poll unit b ⟨unit.key, unit.count, unit.count⟩ none
  /-- The unit votes for the resident of its own key. -/
  | merged {b : VoteBucket} (hne : b.all ≠ 0) (hkey : b.key = unit.key) :
      Poll unit b ⟨b.key, b.own + unit.count, b.all + unit.count⟩ none
  /-- The unit takes the bucket over together with its votes. -/
  | takenOver {b : VoteBucket} (hne : b.all ≠ 0) (hkey : b.key ≠ unit.key)
      (hvotes : b.own * lambda ≤ b.all + unit.count) :
      Poll unit b ⟨unit.key, b.own + unit.count, b.all + unit.count + unit.count⟩ (some ⟨b.key, 1⟩)
  /-- The unit votes against the resident and goes on. -/
  | passed {b : VoteBucket} (hne : b.all ≠ 0) (hkey : b.key ≠ unit.key)
      (hvotes : b.all + unit.count < b.own * lambda) :
      Poll unit b ⟨b.key, b.own, b.all + unit.count⟩ (some unit)

theorem isEmpty_iff : b.isEmpty = true ↔ b.all = 0 := by simp [isEmpty]

theorem poll_of_offer (h : b.offer unit = .ok (b', given)) : Poll unit b b' given := by
  unfold offer at h
  split at h
  · next hempty =>
    obtain ⟨rfl, rfl⟩ := Prod.mk.inj (Checked.pure_eq_ok.mp h)
    exact .settled (isEmpty_iff.mp hempty)
  next hempty =>
  have hne : b.all ≠ 0 := mt isEmpty_iff.mpr hempty
  split at h
  · next hkey =>
    obtain ⟨own, hown, h⟩ := Checked.bind_eq_ok.mp h
    obtain ⟨all, hall, h⟩ := Checked.bind_eq_ok.mp h
    obtain ⟨rfl, rfl⟩ := Prod.mk.inj (Checked.pure_eq_ok.mp h)
    obtain ⟨-, rfl⟩ := Count.plus_eq_ok_iff.mp hown
    obtain ⟨-, rfl⟩ := Count.plus_eq_ok_iff.mp hall
    exact .merged hne hkey
  next hkey =>
  obtain ⟨all, hall, h⟩ := Checked.bind_eq_ok.mp h
  obtain ⟨limit, hlimit, h⟩ := Checked.bind_eq_ok.mp h
  obtain ⟨-, rfl⟩ := Count.plus_eq_ok_iff.mp hall
  obtain ⟨-, rfl⟩ := Count.times_eq_ok_iff.mp hlimit
  split at h
  · next hvotes =>
    obtain ⟨own, hown, h⟩ := Checked.bind_eq_ok.mp h
    obtain ⟨twice, htwice, h⟩ := Checked.bind_eq_ok.mp h
    obtain ⟨rfl, rfl⟩ := Prod.mk.inj (Checked.pure_eq_ok.mp h)
    obtain ⟨-, rfl⟩ := Count.plus_eq_ok_iff.mp hown
    obtain ⟨-, rfl⟩ := Count.plus_eq_ok_iff.mp htwice
    exact .takenOver hne hkey hvotes
  · next hvotes =>
    obtain ⟨rfl, rfl⟩ := Prod.mk.inj (Checked.pure_eq_ok.mp h)
    exact .passed hne hkey (Int.not_le.mp hvotes)

/-- The resident of a bucket, if there are votes, has its own votes as weight. -/
theorem resident_eq_some_iff {e : Entry} :
    Cell.resident b = some e ↔ b.all ≠ 0 ∧ e = ⟨b.key, b.own⟩ := by
  show (if b.isEmpty = true then none else some _) = some e ↔ _
  by_cases hempty : b.all = 0
  · rw [if_pos (isEmpty_iff.mpr hempty)]
    simp [hempty]
  · rw [if_neg (mt isEmpty_iff.mp hempty)]
    simp [hempty, eq_comm]

/-- The resident after a poll has weight, and its key is that of the
unit or of the resident before. -/
theorem Poll.resident (h : Poll unit b b' given) (hunit : 1 ≤ unit.count)
    (hold : ∀ e ∈ Cell.resident b, 1 ≤ e.count) : ∀ e ∈ Cell.resident b',
      1 ≤ e.count ∧ (e.key = unit.key ∨ ∃ e₀ ∈ Cell.resident b, e.key = e₀.key) := by
  intro e he
  obtain ⟨-, rfl⟩ := resident_eq_some_iff.mp he
  -- in a bucket with votes the own votes are the weight of a resident, whatever all of them are
  have hbefore : b.all ≠ 0 → Cell.resident b = some ⟨b.key, b.own⟩ := fun hne =>
    resident_eq_some_iff.mpr ⟨hne, rfl⟩
  cases h with
  | settled => exact ⟨hunit, .inl rfl⟩
  | merged hne hkey =>
    have hown : 1 ≤ b.own := hold _ (hbefore hne)
    refine ⟨?_, .inl hkey⟩
    dsimp only
    omega
  | takenOver hne =>
    have hown : 1 ≤ b.own := hold _ (hbefore hne)
    refine ⟨?_, .inl rfl⟩
    dsimp only
    omega
  | passed hne => exact ⟨hold _ (hbefore hne), .inr ⟨_, hbefore hne, rfl⟩⟩

/-- What goes on has weight. -/
theorem Poll.given_positive (h : Poll unit b b' given) (hunit : 1 ≤ unit.count) :
    ∀ e ∈ given, 1 ≤ e.count := by
  cases h with
  | settled => simp
  | merged => simp
  | takenOver => simp
  | passed => simpa using hunit

/-! ## Tables -/

/-- The way of a unit through the rows of a table: the rows before, the rows after, what leaves the
last row, and how many buckets were taken over. -/
inductive Passage : Entry → List (Row VoteBucket) → List (Row VoteBucket) →
    Option Entry → Nat → Prop where
  /-- No row is left. -/
  | carriedOut {unit : Entry} : Passage unit [] [] (some unit) 0
  /-- A row takes the unit in. -/
  | takenIn {unit : Entry} {row : Row VoteBucket} {rows : List (Row VoteBucket)}
      {old new : VoteBucket} (hget : row.get unit.key = .ok old) (hpoll : Poll unit old new none) :
      Passage unit (row :: rows) (row.set unit.key new :: rows) none 0
  /-- A row gives a unit on to the rest. -/
  | givenOn {unit passed : Entry} {row : Row VoteBucket} {rows rows' : List (Row VoteBucket)}
      {old new : VoteBucket} {out : Option Entry} {more : Nat} (hget : row.get unit.key = .ok old)
      (hpoll : Poll unit old new (some passed)) (hrest : Passage passed rows rows' out more) :
      Passage unit (row :: rows) (row.set unit.key new :: rows') out
        (more + if passed.key = unit.key then 0 else 1)

theorem passage_of_offerAll {rows rows' : List (Row VoteBucket)}
    {out : Option Entry} {takeovers : Nat} (h : offerAll rows unit = .ok (rows', out, takeovers)) :
    Passage unit rows rows' out takeovers := by
  induction rows generalizing rows' unit out takeovers with
  | nil =>
    cases h
    exact .carriedOut
  | cons row rows ih =>
    rw [offerAll] at h
    obtain ⟨⟨row', next⟩, hm, h⟩ := Checked.bind_eq_ok.mp h
    obtain ⟨old, new, hget, hoffer, rfl⟩ := Row.modify_eq_ok_iff.mp hm
    cases next with
    | none =>
      obtain ⟨rfl, hout⟩ := Prod.mk.inj (Checked.pure_eq_ok.mp h)
      obtain ⟨rfl, rfl⟩ := Prod.mk.inj hout
      exact .takenIn hget (poll_of_offer hoffer)
    | some passed =>
      obtain ⟨⟨rest, out', more⟩, hall, h⟩ := Checked.bind_eq_ok.mp h
      obtain ⟨rfl, hout⟩ := Prod.mk.inj (Checked.pure_eq_ok.mp h)
      obtain ⟨rfl, rfl⟩ := Prod.mk.inj hout
      exact .givenOn hget (poll_of_offer hoffer) (ih hall)

/-- A poll at the bucket of the unit keeps a row placed. -/
theorem Poll.placed {row : Row VoteBucket} (h : Poll unit b b' given) (hrow : row.Placed)
    (hget : row.get unit.key = .ok b) (hunit : 1 ≤ unit.count) : (row.set unit.key b').Placed :=
  hrow.set_resident hget
    (h.resident hunit fun e he => hrow.positive _ e (Row.residentAt_of_get hget ▸ he))

/-- **A table of buckets stays placed**, whatever is taken over on the way of a unit. -/
theorem Passage.placed {rows rows' : List (Row VoteBucket)} {out : Option Entry} {takeovers : Nat}
    (h : Passage unit rows rows' out takeovers) (hp : TablePlaced rows) (hunit : 1 ≤ unit.count) :
    TablePlaced rows' := by
  induction h with
  | carriedOut => exact hp
  | takenIn hget hpoll =>
    obtain ⟨hrow, hrest⟩ := List.forall_mem_cons.mp hp
    exact List.forall_mem_cons.mpr ⟨hpoll.placed hrow hget hunit, hrest⟩
  | givenOn hget hpoll _ ih =>
    obtain ⟨hrow, hrest⟩ := List.forall_mem_cons.mp hp
    exact List.forall_mem_cons.mpr
      ⟨hpoll.placed hrow hget hunit, ih hrest (hpoll.given_positive hunit _ rfl)⟩

theorem placed_of_offerAll {rows rows' : List (Row VoteBucket)}
    {out : Option Entry} {takeovers : Nat} (hp : TablePlaced rows) (hunit : 1 ≤ unit.count)
    (h : offerAll rows unit = .ok (rows', out, takeovers)) : TablePlaced rows' :=
  (passage_of_offerAll h).placed hp hunit

end VoteBucket

end HeavyHitters
