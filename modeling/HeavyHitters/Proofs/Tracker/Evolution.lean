import HeavyHitters.Proofs.Tracker.Pipelines

/-!
# How the cells of a table change

A table keeps its rows and its hash functions, and what happens to it happens cell by
cell.  What is known of every change at a cell, such as that a resident is never lost, is
known of each cell over a whole run.

* `Row.Evolves R` says that the cells of a row changed one by one as `R` tells, `TableEvolves R`
  says so of the rows of a table.
* `Row.Evolves.set` is the change of one bucket, `cascade_forall₂` what a unit does to the stages it
  is offered to, and `Tracker.evolves_insertAll` what a run does.
* `Entry.Keeps` and `Entry.Grows` are the two changes of a cell that pipelines are about.
-/

namespace HeavyHitters

section Lists

variable {α : Type} {R : α → α → Prop} {as bs cs : List α}

theorem forall₂_trans (htrans : ∀ {a b c}, R a b → R b c → R a c) (h : List.Forall₂ R as bs)
    (h' : List.Forall₂ R bs cs) : List.Forall₂ R as cs := by
  induction h generalizing cs with
  | nil => exact h'
  | cons hab _ ih =>
    cases h' with
    | cons hbc hrest => exact .cons (htrans hab hbc) (ih hrest)

theorem forall₂_set (hrefl : ∀ a, R a a) {i : Nat} {old new : α}
    (hold : as[i]? = some old) (h : R old new) : List.Forall₂ R as (as.set i new) := by
  induction as generalizing i with
  | nil => cases hold
  | cons a as ih =>
    cases i with
    | zero =>
      cases hold
      exact .cons h (List.forall₂_same.mpr fun a _ => hrefl a)
    | succ i => exact .cons (hrefl a) (ih hold)

end Lists

/-! ## Rows -/

namespace Row

variable {α : Type} {R S : α → α → Prop} {r r' r'' : Row α}

/-- The row behind a hash function, each cell of which changed as the relation tells. -/
structure Evolves (R : α → α → Prop) (r r' : Row α) : Prop where
  hash_eq : r'.hash = r.hash
  cells : List.Forall₂ R r.cells.toList r'.cells.toList

theorem Evolves.refl (hrefl : ∀ a, R a a) (r : Row α) : Evolves R r r :=
  ⟨rfl, List.forall₂_same.mpr fun a _ => hrefl a⟩

theorem Evolves.trans (htrans : ∀ {a b c}, R a b → R b c → R a c) (h : Evolves R r r')
    (h' : Evolves R r' r'') : Evolves R r r'' :=
  ⟨h'.hash_eq.trans h.hash_eq, forall₂_trans htrans h.cells h'.cells⟩

theorem Evolves.imp (hRS : ∀ a b, R a b → S a b) (h : Evolves R r r') : Evolves S r r' :=
  ⟨h.hash_eq, h.cells.imp hRS⟩

/-- Where one bucket gets new content, the other cells stay as they are. -/
theorem Evolves.set (hrefl : ∀ a, R a a) {key : Key} {old new : α}
    (hget : r.get key = .ok old) (h : R old new) : Evolves R r (r.set key new) := by
  refine ⟨rfl, ?_⟩
  have hold : r.cells.toList[r.position key]? = some old := by
    rw [Array.getElem?_toList]
    exact get_eq_ok_iff.mp hget
  show List.Forall₂ R _ (r.cells.setIfInBounds _ new).toList
  rw [Array.toList_setIfInBounds]
  exact forall₂_set hrefl hold h

end Row

/-! ## Tables -/

/-- Each row of a table evolved. -/
def TableEvolves {α : Type} (R : α → α → Prop) (rows rows' : List (Row α)) : Prop :=
  List.Forall₂ (Row.Evolves R) rows rows'

namespace TableEvolves

variable {α : Type} {R S : α → α → Prop} {rows rows' rows'' : List (Row α)}

theorem refl (hrefl : ∀ a, R a a) (rows : List (Row α)) : TableEvolves R rows rows :=
  List.forall₂_same.mpr fun row _ => .refl hrefl row

theorem trans (htrans : ∀ {a b c}, R a b → R b c → R a c) (h : TableEvolves R rows rows')
    (h' : TableEvolves R rows' rows'') : TableEvolves R rows rows'' :=
  forall₂_trans (fun hab hbc => hab.trans htrans hbc) h h'

theorem imp (hRS : ∀ a b, R a b → S a b) (h : TableEvolves R rows rows') :
    TableEvolves S rows rows' :=
  List.Forall₂.imp (fun _ _ hrow => hrow.imp hRS) h

/-- Where one row evolves, the others stay as they are. -/
theorem of_row (hrefl : ∀ a, R a a) (before after : List (Row α)) {row row' : Row α}
    (h : row.Evolves R row') :
    TableEvolves R (before ++ row :: after) (before ++ row' :: after) := by
  induction before with
  | nil => exact .cons h (refl hrefl after)
  | cons first before ih => exact .cons (.refl hrefl first) ih

end TableEvolves

/-- A unit that cascades changes each stage as an offer does, and leaves those as they
are that it does not get to. -/
theorem cascade_forall₂ {σ : Type} {R : σ → σ → Prop} (hrefl : ∀ s, R s s) {Good : σ → Prop}
    {offer : σ → Entry → Checked (σ × Option Entry)}
    (step : ∀ {s s' : σ} {unit : Entry} {given : Option Entry}, Good s → 1 ≤ unit.count →
      offer s unit = .ok (s', given) → R s s' ∧ ∀ e ∈ given, 1 ≤ e.count)
    {stages stages' : List σ} {unit : Entry} {out : Option Entry} (hg : ∀ s ∈ stages, Good s)
    (hu : 1 ≤ unit.count) (h : cascade offer stages unit = .ok (stages', out)) :
    List.Forall₂ R stages stages' := by
  induction stages generalizing stages' unit with
  | nil =>
    obtain ⟨rfl, -⟩ : [] = stages' ∧ some unit = out := by simpa [cascade] using h
    exact .nil
  | cons s stages ih =>
    rw [cascade] at h
    obtain ⟨⟨s', given⟩, ho, h⟩ := Checked.bind_eq_ok.mp h
    obtain ⟨hgood, hrest⟩ := List.forall_mem_cons.mp hg
    obtain ⟨hR, hpositive⟩ := step hgood hu ho
    cases given with
    | none =>
      obtain ⟨rfl, rfl⟩ := Prod.mk.inj (Checked.pure_eq_ok.mp h)
      exact .cons hR (List.forall₂_same.mpr fun s _ => hrefl s)
    | some passed =>
      obtain ⟨⟨rest, out'⟩, hc, h⟩ := Checked.bind_eq_ok.mp h
      obtain ⟨rfl, rfl⟩ := Prod.mk.inj (Checked.pure_eq_ok.mp h)
      exact .cons hR (ih hrest (hpositive passed rfl) hc)

/-- What every insert does to a tracker is done by a run, if it is done by doing nothing and
by one thing after the other. -/
theorem Tracker.evolves_insertAll {τ : Type} [Tracker τ] {Inv : τ → Prop} (R : τ → τ → Prop)
    (hrefl : ∀ t, R t t) (htrans : ∀ {t t' t''}, R t t' → R t' t'' → R t t'')
    (step : ∀ {t t' : τ} {key : Key} {out : Option Entry}, Inv t →
      Tracker.insert t key = .ok (t', out) →
      Inv t' ∧ R t t')
    {t t' : τ} {keys : List Key} {outs : List (Option Entry)} (ht : Inv t)
    (run : Tracker.insertAll t keys = .ok (t', outs)) : R t t' := by
  induction keys generalizing t outs with
  | nil =>
    cases run
    exact hrefl _
  | cons key keys ih =>
    obtain ⟨t₁, out, outs₁, hi, hrun, -⟩ := insertAll_cons_eq_ok.mp run
    obtain ⟨ht₁, hR⟩ := step ht hi
    exact htrans hR (ih ht₁ hrun)

/-! ## Cells -/

/-- A cell that was offered a unit is occupied. -/
theorem Exchange.exists_new {unit : Entry} {old new given : Option Entry}
    (h : Exchange unit old new given) : ∃ e, new = some e := by
  cases h <;> exact ⟨_, rfl⟩

namespace Entry

/-- An occupied cell is not emptied. -/
def Keeps (old new : Entry) : Prop := old.isEmpty = false → new.isEmpty = false

/-- The count of a cell does not decrease. -/
def Grows (old new : Entry) : Prop := old.count ≤ new.count

variable {old new unit : Entry} {given : Option Entry}

theorem Keeps.refl (cell : Entry) : Keeps cell cell := id

theorem Grows.refl (cell : Entry) : Grows cell cell := Int.le_refl _

theorem Grows.trans {a b c : Entry} (h : Grows a b) (h' : Grows b c) :
    Grows a c :=
  Int.le_trans h h'

theorem Keeps.trans {a b c : Entry} (h : Keeps a b) (h' : Keeps b c) :
    Keeps a c :=
  fun hempty => h' (h hempty)

theorem keeps_of_pos (h : 1 ≤ new.count) : Keeps old new := fun _ =>
  Bool.eq_false_iff.mpr (mt Record.isEmpty_iff.mp (by omega))

theorem keeps_of_exchange (h : Exchange unit (Cell.resident old) (Cell.resident new) given) :
    Keeps old new := by
  obtain ⟨e, he⟩ := h.exists_new
  obtain ⟨hcount, -⟩ := resident_eq_some_iff.mp he
  exact fun _ => Bool.eq_false_iff.mpr (mt Record.isEmpty_iff.mp hcount)

/-- Where the heavier unit stays, the count of the cell does not decrease. -/
theorem grows_of_keepHeavier (hunit : 0 ≤ unit.count)
    (h : old.keepHeavier unit = .ok (new, given)) : Grows old new := by
  unfold keepHeavier at h
  unfold Grows
  split at h
  · next hempty =>
    obtain ⟨rfl, -⟩ : unit = new ∧ none = given := by simpa using h
    rw [Record.isEmpty_iff.mp hempty]
    exact hunit
  · split at h
    · obtain ⟨count, hc, h⟩ := Checked.bind_eq_ok.mp h
      obtain ⟨rfl, -⟩ := Prod.mk.inj (Checked.pure_eq_ok.mp h)
      obtain ⟨-, rfl⟩ := Count.plus_eq_ok_iff.mp hc
      show old.count ≤ old.count + unit.count
      omega
    · split at h
      · next hlt =>
        obtain ⟨rfl, -⟩ : unit = new ∧ some old = given := by simpa using h
        exact Int.le_of_lt hlt
      · obtain ⟨rfl, -⟩ : old = new ∧ some unit = given := by simpa using h
        exact Int.le_refl _

end Entry

end HeavyHitters
