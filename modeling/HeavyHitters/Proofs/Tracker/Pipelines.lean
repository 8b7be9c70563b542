import HeavyHitters.Proofs.Counts
import HeavyHitters.Proofs.Geometry
import HeavyHitters.Proofs.Placement
import HeavyHitters.Proofs.Tracker.Accounts
import HeavyHitters.Tracker.Funnel
import HeavyHitters.Tracker.HashPipe
import HeavyHitters.Tracker.Precision

/-!
# Pipelines conserve weight

HashPipe, Precision and the funnel carry a unit through rows of cells.  At each cell one of the four
exchanges takes place, so a unit is handed over from row to row until it is held or carried out.

* `cascade_transfer` is the passage of one unit through stages of any kind.
* `HashPipe.conserves`, `Precision.conserves` and `Funnel.conserves` are the accounts of the three
  trackers; their common invariant is that all rows are placed.
* `HashPipe.fresh_of_ofBudget` and its like say that a tracker starts with the invariant and empty.
-/

namespace HeavyHitters

/-- An account of weight follows from the transfer that each insert makes. -/
theorem Tracker.Conserves.ofTransfer {τ : Type} [Tracker τ] {Inv : τ → Prop}
    (positive : ∀ {t : τ}, Inv t → ∀ e ∈ Tracker.residents t, 1 ≤ e.count)
    (query_eq : ∀ {t : τ}, Inv t → ∀ key,
      Tracker.query t key = Count.narrow .add (weightOf (· == key) (Tracker.residents t)))
    (step : ∀ {t t' : τ} {key : Key} {out : Option Entry}, Inv t →
      Tracker.insert t key = .ok (t', out) →
        Inv t' ∧ Transfer ⟨key, 1⟩ (Tracker.residents t) (Tracker.residents t') out) :
    Tracker.Conserves Inv where
  positive := positive
  query_eq := query_eq
  inv_insert ht hi := (step ht hi).1
  out_positive ht hi := (step ht hi).2.positive
  account ht hi select := ((step ht hi).2.weight_eq select).symm

/-! ## Stages -/

section Stages

variable {σ : Type} (residents : σ → List Entry)

/-- The weights that the parts of a structure hold of a key add up to what the whole holds of it. -/
theorem sum_weights_eq_narrow {weight : σ → Key → Checked Int} {parts : List σ} (key : Key)
    (hpos : ∀ s ∈ parts, ∀ e ∈ residents s, 1 ≤ e.count)
    (h : ∀ s ∈ parts, weight s key = .ok (weightOf (· == key) (residents s))) :
    (do Count.sum (← parts.mapM (weight · key)))
      = Count.narrow .add (weightOf (· == key) (parts.flatMap residents)) := by
  have hsum : (parts.map fun s => weightOf (· == key) (residents s)).sum
      = weightOf (· == key) (parts.flatMap residents) := by
    clear hpos h
    induction parts with
    | nil => rfl
    | cons s parts ih =>
      rw [List.map_cons, List.sum_cons, ih, List.flatMap_cons, weightOf_append]
  rw [Checked.mapM_eq_ok_map h]
  show Count.sum (parts.map fun s => weightOf (· == key) (residents s)) = _
  rw [Count.sum_eq_narrow, hsum]
  intro c hc
  obtain ⟨s, hs, rfl⟩ := List.mem_map.mp hc
  exact weightOf_nonneg fun e he => by
    have := hpos s hs e he
    omega

/--
**A unit that cascades through stages is handed over to them.**  The induction is on the stages: a
unit that one of them gives on is handed over to the rest.
-/
theorem cascade_transfer {Good : σ → Prop} {offer : σ → Entry → Checked (σ × Option Entry)}
    (step : ∀ {s s' : σ} {unit : Entry} {given : Option Entry}, Good s → 1 ≤ unit.count →
      offer s unit = .ok (s', given) → Good s' ∧ Transfer unit (residents s) (residents s') given)
    {stages stages' : List σ} {unit : Entry} {out : Option Entry} (hg : ∀ s ∈ stages, Good s)
    (hu : 1 ≤ unit.count) (h : cascade offer stages unit = .ok (stages', out)) :
    (∀ s ∈ stages', Good s) ∧
      Transfer unit (stages.flatMap residents) (stages'.flatMap residents) out := by
  induction stages generalizing stages' unit with
  | nil =>
    obtain ⟨rfl, rfl⟩ : [] = stages' ∧ some unit = out := by simpa [cascade] using h
    exact ⟨hg, by simpa using hu, fun select => rfl⟩
  | cons s stages ih =>
    rw [cascade] at h
    obtain ⟨⟨s', given⟩, ho, h⟩ := Checked.bind_eq_ok.mp h
    obtain ⟨hs', htr⟩ := step (hg s List.mem_cons_self) hu ho
    have hrest : ∀ r ∈ stages, Good r := fun r hr => hg r (List.mem_cons_of_mem s hr)
    rw [List.flatMap_cons]
    cases given with
    | none =>
      obtain ⟨rfl, rfl⟩ := Prod.mk.inj (Checked.pure_eq_ok.mp h)
      rw [List.flatMap_cons]
      exact ⟨List.forall_mem_cons.mpr ⟨hs', hrest⟩, htr.append_right _⟩
    | some passed =>
      obtain ⟨⟨rest, out'⟩, hc, h⟩ := Checked.bind_eq_ok.mp h
      obtain ⟨rfl, rfl⟩ := Prod.mk.inj (Checked.pure_eq_ok.mp h)
      obtain ⟨hgood, htr'⟩ := ih hrest (htr.positive passed rfl) hc
      rw [List.flatMap_cons]
      exact ⟨List.forall_mem_cons.mpr ⟨hs', hgood⟩, htr.trans htr'⟩

end Stages

/-! ## Tables of residents -/

/-- A table of which every row is placed. -/
def TablePlaced {α : Type} [Cell α] (rows : List (Row α)) : Prop := ∀ row ∈ rows, row.Placed

section Tables

variable {α : Type} [Cell α] {rows : List (Row α)}

theorem TablePlaced.positive (h : TablePlaced rows) : ∀ e ∈ tableResidents rows, 1 ≤ e.count := by
  intro e he
  obtain ⟨row, hr, he⟩ := List.mem_flatMap.mp he
  exact (h row hr).residents_positive e he

theorem TablePlaced.weight_eq (h : TablePlaced rows) (key : Key) :
    tableWeight rows key = Count.narrow .add (weightOf (· == key) (tableResidents rows)) :=
  sum_weights_eq_narrow Row.residents key (fun row hr => (h row hr).residents_positive)
    fun row hr => (h row hr).weight_eq key

/-- A new table is placed and holds nothing. -/
theorem tablePlaced_table (hashes : List KeyHash) {length : Nat} {cell : α} (hl : length ≠ 0)
    (hc : Cell.resident cell = none) :
    TablePlaced (table hashes length cell) ∧ tableResidents (table hashes length cell) = [] := by
  constructor
  · intro row hr
    obtain ⟨hash, rfl⟩ := mem_table hr
    exact Row.placed_fill hl hc hash
  · refine List.flatMap_eq_nil_iff.mpr fun row hr => ?_
    obtain ⟨hash, rfl⟩ := mem_table hr
    exact Row.residents_fill hc hash

end Tables

/-! ## HashPipe -/

namespace HashPipe

/-- In a cell of the first row every insert is an exchange. -/
theorem exchange_of_takeIn {key : Key} {old new : Entry} {given : Option Entry}
    (hold : ∀ e ∈ Cell.resident old, 1 ≤ e.count) (h : takeIn key old = .ok (new, given)) :
    Exchange ⟨key, 1⟩ (Cell.resident old) (Cell.resident new) given := by
  unfold takeIn at h
  cases he : old.isEmpty with
  | true =>
    have hz : old.count = 0 := Record.isEmpty_iff.mp he
    rw [he, if_neg (by simp)] at h
    obtain ⟨rfl, rfl⟩ : ⟨key, 1⟩ = new ∧ old.carried = given := by simpa using h
    rw [Entry.resident_of_isEmpty he, Entry.resident_of_pos (Int.le_refl 1)]
    rw [show old.carried = none from if_neg (by omega)]
    exact .settled
  | false =>
    have hres : Cell.resident old = some old := if_neg (by simp [he])
    have hpos : 1 ≤ old.count := hold old hres
    rw [hres]
    by_cases hk : old.key = key
    · rw [if_pos (by simp [he, hk])] at h
      obtain ⟨count, hc, h⟩ := Checked.bind_eq_ok.mp h
      obtain ⟨rfl, rfl⟩ := Prod.mk.inj (Checked.pure_eq_ok.mp h)
      obtain ⟨-, rfl⟩ := Count.plus_eq_ok_iff.mp hc
      rw [Entry.resident_of_pos (show 1 ≤ old.count + 1 by omega), ← hk]
      exact .merged rfl
    · rw [if_neg (by simp [hk])] at h
      obtain ⟨rfl, rfl⟩ : ⟨key, 1⟩ = new ∧ old.carried = given := by simpa using h
      rw [Entry.resident_of_pos (Int.le_refl 1), show old.carried = some old from if_pos (by omega)]
      exact .displaced hk

theorem insertRows_transfer {rows rows' : List (Row Entry)} {key : Key} {out : Option Entry}
    (hp : TablePlaced rows) (h : insertRows rows key = .ok (rows', out)) :
    TablePlaced rows' ∧ Transfer ⟨key, 1⟩ (tableResidents rows) (tableResidents rows') out := by
  cases rows with
  | nil =>
    obtain ⟨rfl, rfl⟩ : [] = rows' ∧ some ⟨key, 1⟩ = out := by simpa [insertRows] using h
    exact ⟨hp, by simp, fun select => rfl⟩
  | cons first rest =>
    unfold insertRows at h
    obtain ⟨⟨first', displaced⟩, hm, h⟩ := Checked.bind_eq_ok.mp h
    obtain ⟨hfirst, htr⟩ : first'.Placed ∧
        Transfer ⟨key, 1⟩ first.residents first'.residents displaced :=
      (hp first List.mem_cons_self).modify
        (fun _ _ _ hold hn => exchange_of_takeIn hold hn) hm (Int.le_refl 1)
    have hrest : TablePlaced rest := fun row hr => hp row (List.mem_cons_of_mem first hr)
    unfold tableResidents
    rw [List.flatMap_cons]
    cases displaced with
    | none =>
      obtain ⟨rfl, rfl⟩ := Prod.mk.inj (Checked.pure_eq_ok.mp h)
      rw [List.flatMap_cons]
      exact ⟨List.forall_mem_cons.mpr ⟨hfirst, hrest⟩, htr.append_right _⟩
    | some passed =>
      obtain ⟨⟨rest', out'⟩, hc, h⟩ := Checked.bind_eq_ok.mp h
      obtain ⟨rfl, rfl⟩ := Prod.mk.inj (Checked.pure_eq_ok.mp h)
      obtain ⟨hgood, htr'⟩ := cascade_transfer Row.residents
        (fun hrow hu hm => hrow.modify
          (fun _ _ _ hold hn => Entry.exchange_of_keepHeavier hu hold hn) hm hu)
        hrest (htr.positive passed rfl) hc
      rw [List.flatMap_cons]
      exact ⟨List.forall_mem_cons.mpr ⟨hfirst, hgood⟩, htr.trans htr'⟩

theorem conserves : Tracker.Conserves fun t : HashPipe => TablePlaced t.rows :=
  .ofTransfer (fun ht => ht.positive) (fun ht => ht.weight_eq) fun ht hi => by
    obtain ⟨⟨rows, out⟩, hr, h⟩ := Checked.bind_eq_ok.mp hi
    obtain ⟨rfl, rfl⟩ := Prod.mk.inj (Checked.pure_eq_ok.mp h)
    exact insertRows_transfer ht hr

theorem fresh_of_ofBudget {memory : Nat} {seed : UInt64} {t : HashPipe}
    (h : ofBudget memory seed = .ok t) : TablePlaced t.rows ∧ tableResidents t.rows = [] := by
  obtain ⟨length, -, hlength, -, rfl⟩ := exists_length_of_budget h
  exact tablePlaced_table _ hlength rfl

end HashPipe

/-! ## Precision -/

namespace Precision

/-- Every bucket on a key's path belongs to another key. -/
def Misses (key : Key) (rows : List (Row Entry)) : Prop :=
  ∀ row ∈ rows, ∃ resident, row.get key = .ok resident ∧ resident.isEmpty = false ∧
    resident.key ≠ key

/-- A key either settles in a row, which is an exchange, or misses every row. -/
theorem settle_cases {key : Key} {rows rows' : List (Row Entry)} {settled : Bool}
    (hp : TablePlaced rows) (h : settle key rows = .ok (rows', settled)) :
    settled = true ∧ TablePlaced rows' ∧ rows'.length = rows.length ∧
        Transfer ⟨key, 1⟩ (tableResidents rows) (tableResidents rows') none ∨
      settled = false ∧ rows' = rows ∧ Misses key rows := by
  induction rows generalizing rows' with
  | nil =>
    obtain ⟨rfl, rfl⟩ : [] = rows' ∧ false = settled := by simpa [settle] using h
    exact Or.inr ⟨rfl, rfl, fun row hr => by cases hr⟩
  | cons row rows ih =>
    have hrow : row.Placed := hp row List.mem_cons_self
    have hrest : TablePlaced rows := fun r hr => hp r (List.mem_cons_of_mem row hr)
    rw [settle] at h
    obtain ⟨resident, hget, h⟩ := Checked.bind_eq_ok.mp h
    cases he : resident.isEmpty with
    | true =>
      rw [he, if_pos rfl] at h
      obtain ⟨rfl, rfl⟩ := Prod.mk.inj (Checked.pure_eq_ok.mp h)
      have hex : Exchange ⟨key, 1⟩ (Cell.resident resident)
          (Cell.resident (⟨key, 1⟩ : Entry)) none := by
        rw [Entry.resident_of_isEmpty he, Entry.resident_of_pos (Int.le_refl 1)]
        exact .settled
      obtain ⟨hset, htr⟩ := hrow.set ⟨key, 1⟩ ⟨key, 1⟩ hget hex (Int.le_refl 1)
      exact Or.inl ⟨rfl, List.forall_mem_cons.mpr ⟨hset, hrest⟩, rfl, htr.append_right _⟩
    | false =>
      have hres : Cell.resident resident = some resident := if_neg (by simp [he])
      rw [he, if_neg (by simp)] at h
      by_cases hk : resident.key = key
      · rw [if_pos hk] at h
        obtain ⟨count, hc, h⟩ := Checked.bind_eq_ok.mp h
        obtain ⟨rfl, rfl⟩ := Prod.mk.inj (Checked.pure_eq_ok.mp h)
        obtain ⟨-, rfl⟩ := Count.plus_eq_ok_iff.mp hc
        have hpos : 1 ≤ resident.count :=
          hrow.positive _ resident (by rw [Row.residentAt_of_get hget]; exact hres)
        have hex : Exchange ⟨key, 1⟩ (Cell.resident resident)
            (Cell.resident (⟨key, resident.count + 1⟩ : Entry)) none := by
          rw [hres, Entry.resident_of_pos (show 1 ≤ resident.count + 1 by omega), ← hk]
          exact .merged rfl
        obtain ⟨hset, htr⟩ := hrow.set ⟨key, 1⟩ ⟨key, resident.count + 1⟩ hget hex (Int.le_refl 1)
        exact Or.inl ⟨rfl, List.forall_mem_cons.mpr ⟨hset, hrest⟩, rfl, htr.append_right _⟩
      · rw [if_neg hk] at h
        obtain ⟨⟨rest, settled'⟩, hs, h⟩ := Checked.bind_eq_ok.mp h
        obtain ⟨rfl, rfl⟩ := Prod.mk.inj (Checked.pure_eq_ok.mp h)
        rcases ih hrest hs with ⟨rfl, hplaced, hlen, htr⟩ | ⟨rfl, rfl, hmiss⟩
        · exact Or.inl ⟨rfl, List.forall_mem_cons.mpr ⟨hrow, hplaced⟩, congrArg (· + 1) hlen,
            htr.append_left _⟩
        · exact Or.inr ⟨rfl, rfl, List.forall_mem_cons.mpr ⟨⟨resident, hget, he, hk⟩, hmiss⟩⟩

/-- Where a key misses every row, displacing a resident on its path is an exchange. -/
theorem displace_transfer {key : Key} {weight : Int} {rows rows' : List (Row Entry)}
    {victim : Option Entry} (hp : TablePlaced rows) (hmiss : Misses key rows)
    (hw : ∃ row ∈ rows, ∃ resident, row.get key = .ok resident ∧ resident.count = weight)
    (h : displace key weight rows = .ok (rows', victim)) :
    TablePlaced rows' ∧ rows'.length = rows.length ∧
      Transfer ⟨key, 1⟩ (tableResidents rows) (tableResidents rows') victim := by
  induction rows generalizing rows' with
  | nil =>
    obtain ⟨row, hr, -⟩ := hw
    cases hr
  | cons row rows ih =>
    have hrow : row.Placed := hp row List.mem_cons_self
    have hrest : TablePlaced rows := fun r hr => hp r (List.mem_cons_of_mem row hr)
    obtain ⟨resident, hget, he, hk⟩ := hmiss row List.mem_cons_self
    have hres : Cell.resident resident = some resident := if_neg (by simp [he])
    rw [displace, hget] at h
    replace h : (if resident.count = weight then _ else _) = _ := h
    by_cases hc : resident.count = weight
    · rw [if_pos hc] at h
      obtain ⟨rfl, rfl⟩ := Prod.mk.inj (Checked.pure_eq_ok.mp h)
      have hex : Exchange ⟨key, 1⟩ (Cell.resident resident) (Cell.resident (⟨key, 1⟩ : Entry))
          (some resident) := by
        rw [hres, Entry.resident_of_pos (Int.le_refl 1)]
        exact .displaced hk
      obtain ⟨hset, htr⟩ := hrow.set ⟨key, 1⟩ ⟨key, 1⟩ hget hex (Int.le_refl 1)
      exact ⟨List.forall_mem_cons.mpr ⟨hset, hrest⟩, rfl, htr.append_right _⟩
    · rw [if_neg hc] at h
      obtain ⟨⟨rest, victim'⟩, hd, h⟩ := Checked.bind_eq_ok.mp h
      obtain ⟨rfl, rfl⟩ := Prod.mk.inj (Checked.pure_eq_ok.mp h)
      -- the weight looked for is not in this row, so it is in one of the rest
      obtain ⟨hplaced, hlen, htr⟩ :=
        ih hrest (fun r hr => hmiss r (List.mem_cons_of_mem row hr)) (by
        obtain ⟨r, hr, e, hg, hcount⟩ := hw
        rcases List.mem_cons.mp hr with rfl | hr
        · rw [hget] at hg
          cases hg
          exact absurd hcount hc
        · exact ⟨r, hr, e, hg, hcount⟩) hd
      exact ⟨List.forall_mem_cons.mpr ⟨hrow, hplaced⟩, congrArg (· + 1) hlen, htr.append_left _⟩

/-- The lightest weight on a path is the weight of a resident on it. -/
theorem exists_of_lightest {key : Key} {rows : List (Row Entry)} {weight : Int} (hne : rows ≠ [])
    (h : lightest key rows = .ok weight) :
    ∃ row ∈ rows, ∃ resident, row.get key = .ok resident ∧ resident.count = weight := by
  obtain ⟨residents, hm, h⟩ := Checked.bind_eq_ok.mp h
  have hcounts : residents.map (·.count) ≠ [] := by
    intro he
    have hlen := Checked.length_mapM hm
    rw [List.map_eq_nil_iff.mp he] at hlen
    exact hne (List.eq_nil_of_length_eq_zero hlen.symm)
  have hleast := Count.leastOf_mem hcounts
  rw [Checked.pure_eq_ok.mp h] at hleast
  obtain ⟨resident, hr, hc⟩ := List.mem_map.mp hleast
  obtain ⟨row, hrow, hget⟩ := Checked.exists_of_mem_mapM hm hr
  exact ⟨row, hrow, resident, hget, hc⟩

/-- The rows are placed, and there is one. -/
def Sound {ρ : Type} (t : Precision ρ) : Prop := TablePlaced t.rows ∧ t.rows ≠ []

/-- What an insert does, whatever the source shows. -/
theorem insert_transfer {ρ : Type} [RandomSource ρ] {t t' : Precision ρ} {key : Key}
    {out : Option Entry} (ht : Sound t) (h : insert t key = .ok (t', out)) :
    Sound t' ∧ Transfer ⟨key, 1⟩ (tableResidents t.rows) (tableResidents t'.rows) out := by
  obtain ⟨hp, hne⟩ := ht
  have hne' : ∀ {rows : List (Row Entry)}, rows.length = t.rows.length → rows ≠ [] :=
    fun hlen => List.ne_nil_of_length_pos (by rw [hlen]; exact List.length_pos_of_ne_nil hne)
  obtain ⟨⟨rows, settled⟩, hs, h⟩ := Checked.bind_eq_ok.mp h
  rcases settle_cases hp hs with ⟨rfl, hplaced, hlen, htr⟩ | ⟨rfl, rfl, hmiss⟩
  · obtain ⟨rfl, rfl⟩ := Prod.mk.inj (Checked.pure_eq_ok.mp h)
    exact ⟨⟨hplaced, hne' hlen⟩, htr⟩
  · -- after a miss in every row the source decides if a resident is displaced
    obtain ⟨weight, hw, h⟩ := Checked.bind_eq_ok.mp h
    dsimp only at h
    split at h
    · obtain ⟨⟨rows, victim⟩, hd, h⟩ := Checked.bind_eq_ok.mp h
      obtain ⟨rfl, rfl⟩ := Prod.mk.inj (Checked.pure_eq_ok.mp h)
      obtain ⟨hplaced, hlen, htr⟩ := displace_transfer hp hmiss (exists_of_lightest hne hw) hd
      exact ⟨⟨hplaced, hne' hlen⟩, htr⟩
    · obtain ⟨rfl, rfl⟩ := Prod.mk.inj (Checked.pure_eq_ok.mp h)
      exact ⟨⟨hp, hne⟩, by simp, fun select => rfl⟩

theorem conserves {ρ : Type} [RandomSource ρ] : Tracker.Conserves (@Sound ρ) :=
  .ofTransfer (fun ht => ht.1.positive) (fun ht => ht.1.weight_eq) insert_transfer

theorem fresh_of_ofBudget {ρ : Type} {source : UInt64 → ρ} {memory : Nat} {seed : UInt64}
    {t : Precision ρ} (h : ofBudget source memory seed = .ok t) :
    Sound t ∧ tableResidents t.rows = [] := by
  obtain ⟨length, hrows, hlength, -, rfl⟩ := exists_length_of_budget h
  obtain ⟨hp, hempty⟩ := tablePlaced_table (SeedStream.hashes ⟨seed⟩ rowCount).1 hlength
    (show Cell.resident Entry.empty = none from rfl)
  exact ⟨⟨hp, table_ne_nil hrows _ _ _⟩, hempty⟩

end Precision

/-! ## Funnel -/

/-- In a defended cell every offer is an exchange, whatever the votes. -/
theorem Defended.exchange_of_offer {lambda : Int} {old new : Defended} {unit : Entry}
    {given : Option Entry} (hunit : 1 ≤ unit.count) (hold : ∀ e ∈ Cell.resident old, 1 ≤ e.count)
    (h : old.offer lambda unit = .ok (new, given)) :
    Exchange unit (Cell.resident old) (Cell.resident new) given := by
  obtain ⟨resident, votes⟩ := old
  unfold offer at h
  cases he : resident.isEmpty with
  | true =>
    rw [he, if_pos rfl] at h
    obtain ⟨rfl, rfl⟩ := Prod.mk.inj (Checked.pure_eq_ok.mp h)
    show Exchange unit (Cell.resident resident) (Cell.resident unit) none
    rw [Entry.resident_of_isEmpty he, Entry.resident_of_pos hunit]
    exact .settled
  | false =>
    have hres : Cell.resident resident = some resident := if_neg (by simp [he])
    have hpos : 1 ≤ resident.count := hold resident hres
    rw [he, if_neg (by simp)] at h
    show Exchange unit (Cell.resident resident) (Cell.resident new.resident) given
    rw [hres]
    split at h
    · next hk =>
      obtain ⟨count, hc, h⟩ := Checked.bind_eq_ok.mp h
      obtain ⟨more, -, h⟩ := Checked.bind_eq_ok.mp h
      obtain ⟨rfl, rfl⟩ := Prod.mk.inj (Checked.pure_eq_ok.mp h)
      obtain ⟨-, rfl⟩ := Count.plus_eq_ok_iff.mp hc
      rw [Entry.resident_of_pos (show 1 ≤ resident.count + unit.count by omega)]
      exact .merged hk
    · next hk =>
      obtain ⟨fewer, -, h⟩ := Checked.bind_eq_ok.mp h
      split at h
      · obtain ⟨rfl, rfl⟩ := Prod.mk.inj (Checked.pure_eq_ok.mp h)
        rw [Entry.resident_of_pos hunit]
        exact .displaced hk
      · obtain ⟨rfl, rfl⟩ := Prod.mk.inj (Checked.pure_eq_ok.mp h)
        rw [hres]
        exact .passed hk

namespace Stage

/-- The row of a stage is placed. -/
def Placed : Stage → Prop
  | .vote _ row => row.Placed
  | .basic row => row.Placed

theorem Placed.positive {stage : Stage} (h : stage.Placed) :
    ∀ e ∈ stage.residents, 1 ≤ e.count := by
  cases stage with
  | vote lambda row => exact Row.Placed.residents_positive h
  | basic row => exact Row.Placed.residents_positive h

theorem Placed.weight_eq {stage : Stage} (h : stage.Placed) (key : Key) :
    stage.weight key = .ok (weightOf (· == key) stage.residents) := by
  cases stage with
  | vote lambda row => exact Row.Placed.weight_eq h key
  | basic row => exact Row.Placed.weight_eq h key

theorem Placed.offer {stage stage' : Stage} {unit : Entry} {given : Option Entry}
    (h : stage.Placed) (hunit : 1 ≤ unit.count) (ho : stage.offer unit = .ok (stage', given)) :
    stage'.Placed ∧ Transfer unit stage.residents stage'.residents given := by
  cases stage with
  | vote lambda row =>
    obtain ⟨⟨row', next⟩, hm, ho⟩ := Checked.bind_eq_ok.mp ho
    obtain ⟨rfl, rfl⟩ := Prod.mk.inj (Checked.pure_eq_ok.mp ho)
    exact Row.Placed.modify h
      (fun _ _ _ hold hn => Defended.exchange_of_offer hunit hold hn) hm hunit
  | basic row =>
    obtain ⟨⟨row', next⟩, hm, ho⟩ := Checked.bind_eq_ok.mp ho
    obtain ⟨rfl, rfl⟩ := Prod.mk.inj (Checked.pure_eq_ok.mp ho)
    exact Row.Placed.modify h
      (fun _ _ _ hold hn => Entry.exchange_of_keepHeavier hunit hold hn) hm hunit

theorem fresh_of_ofKind {kind : StageKind} {length : Nat} {hash : KeyHash} {stage : Stage}
    (hl : length ≠ 0) (h : ofKind kind length hash = .ok stage) :
    stage.Placed ∧ stage.residents = [] := by
  obtain ⟨_, -, h⟩ := Checked.bind_eq_ok.mp h
  cases kind with
  | vote lambda =>
    rw [← Checked.pure_eq_ok.mp h]
    exact ⟨Row.placed_fill hl rfl hash, Row.residents_fill rfl hash⟩
  | basic =>
    rw [← Checked.pure_eq_ok.mp h]
    exact ⟨Row.placed_fill hl rfl hash, Row.residents_fill rfl hash⟩

end Stage

namespace Funnel

/-- All stages are placed. -/
def Sound (t : Funnel) : Prop := ∀ stage ∈ t.stages, stage.Placed

theorem conserves : Tracker.Conserves Sound :=
  .ofTransfer
    (fun ht e he => by
      obtain ⟨stage, hs, he⟩ := List.mem_flatMap.mp he
      exact (ht stage hs).positive e he)
    (fun ht key => sum_weights_eq_narrow Stage.residents key
      (fun stage hs => (ht stage hs).positive) fun stage hs => (ht stage hs).weight_eq key)
    fun ht hi => by
      obtain ⟨⟨stages, out⟩, hc, h⟩ := Checked.bind_eq_ok.mp hi
      obtain ⟨rfl, rfl⟩ := Prod.mk.inj (Checked.pure_eq_ok.mp h)
      exact cascade_transfer Stage.residents (fun hs hu ho => hs.offer hu ho) ht (Int.le_refl 1) hc

/-- The first stage of a layout has cells and the first seed, and the others follow
from what is left of the seeds. -/
theorem exists_of_buildStages_cons {memory : Nat} {ratio : Float} {kind : StageKind}
    {rest : List StageKind} {index length : Nat} {seeds : SeedStream} {stages : List Stage}
    (h : buildStages memory ratio (kind :: rest) index length seeds = .ok stages) :
    ∃ stage others next, length ≠ 0 ∧
    Stage.ofKind kind length (KeyHash.ofSeed seeds.next.1) = .ok stage ∧
      buildStages memory ratio rest (index + 1) next seeds.next.2 = .ok others ∧
      stages = stage :: others := by
  rw [buildStages] at h
  dsimp only at h
  split at h
  · exact absurd h refuse_bind_ne_ok
  next hlength =>
  obtain ⟨stage, hs, h⟩ := Checked.bind_eq_ok.mp h
  obtain ⟨others, ho, h⟩ := Checked.bind_eq_ok.mp h
  exact ⟨stage, others, _, hlength, Outcome.ofChecked_eq_ok.mp hs, ho,
    (Checked.pure_eq_ok.mp h).symm⟩

/-- What holds of every new stage of a layout holds of the stages that are built. -/
theorem forall_of_buildStages {P : Stage → Prop} {memory : Nat} {ratio : Float}
    {layout : List StageKind}
    (hnew : ∀ kind ∈ layout, ∀ {length : Nat} {hash : KeyHash} {stage : Stage}, length ≠ 0 →
      Stage.ofKind kind length hash = .ok stage → P stage)
    {index length : Nat} {seeds : SeedStream} {stages : List Stage}
    (h : buildStages memory ratio layout index length seeds = .ok stages) :
    ∀ stage ∈ stages, P stage := by
  induction layout generalizing index length seeds stages with
  | nil =>
    cases h
    intro stage hs
    cases hs
  | cons kind rest ih =>
    obtain ⟨hkind, hrest⟩ := List.forall_mem_cons.mp hnew
    obtain ⟨stage, others, next, hlength, hs, ho, rfl⟩ := exists_of_buildStages_cons h
    exact List.forall_mem_cons.mpr ⟨hkind hlength hs, ih hrest ho⟩

theorem exists_of_ofLayout {memory : Nat} {layout : List StageKind} {ratio : Float} {seed : UInt64}
    {t : Funnel} (h : ofLayout memory layout ratio seed = .ok t) :
    checkVotes layout = .ok () ∧
      ∃ length, buildStages memory ratio layout 0 length ⟨seed⟩ = .ok t.stages := by
  unfold ofLayout at h
  dsimp only at h
  split at h
  · exact absurd h refuse_bind_ne_ok
  split at h
  · exact absurd h refuse_bind_ne_ok
  obtain ⟨_, hvotes, h⟩ := Checked.bind_eq_ok.mp h
  obtain ⟨stages, hb, h⟩ := Checked.bind_eq_ok.mp h
  rw [← Checked.pure_eq_ok.mp h]
  exact ⟨hvotes, _, hb⟩

theorem fresh_of_ofLayout {memory : Nat} {layout : List StageKind} {ratio : Float} {seed : UInt64}
    {t : Funnel} (h : ofLayout memory layout ratio seed = .ok t) :
    Sound t ∧ t.residents = [] := by
  obtain ⟨-, length, hb⟩ := exists_of_ofLayout h
  have hfresh := forall_of_buildStages (fun _ _ => Stage.fresh_of_ofKind) hb
  exact ⟨fun stage hs => (hfresh stage hs).1,
    List.flatMap_eq_nil_iff.mpr fun stage hs => (hfresh stage hs).2⟩

end Funnel

end HeavyHitters
