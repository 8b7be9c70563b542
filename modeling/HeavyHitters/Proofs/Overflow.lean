import HeavyHitters.Proofs.Geometry
import HeavyHitters.Proofs.Placement
import HeavyHitters.Tally

/-!
# Computations that fail only by an overflow

Answers are made of counts: counts are looked up, added up and ranked.  Where every bucket that is
looked up is there, the only way for an answer to have no value is that a count leaves its range.

* `FailsOnly` says of a computation in what ways it may fail, and passes through the steps of a
  computation and through loops.
* `failsOnly_mergeRanked` is about rankings, and `Row.Celled` about lookups in rows that have cells.
-/

namespace HeavyHitters

/-- A computation that fails, if it does, in a way that has a property. -/
def FailsOnly {φ α : Type} (P : φ → Prop) (x : Except φ α) : Prop :=
  ∀ failure, x = .error failure → P failure

/-- An arithmetic step has left its range. -/
def Fault.IsOverflow (fault : Fault) : Prop := ∃ operation, fault = .overflow operation

/-- An arithmetic step has left its range. -/
def Failure.IsOverflow (failure : Failure) : Prop :=
  ∃ operation, failure = .fault (.overflow operation)

section

variable {φ α β : Type} {P : φ → Prop}

theorem failsOnly_ok (a : α) : FailsOnly P (.ok a : Except φ α) := by
  intro failure h
  cases h

theorem failsOnly_of_exists {x : Except φ α} (h : ∃ a, x = .ok a) : FailsOnly P x := by
  obtain ⟨a, rfl⟩ := h
  exact failsOnly_ok a

theorem FailsOnly.bind {x : Except φ α} {f : α → Except φ β} (hx : FailsOnly P x)
    (hf : ∀ a, x = .ok a → FailsOnly P (f a)) : FailsOnly P (x >>= f) := by
  cases x with
  | error failure =>
    rintro _ ⟨⟩
    exact hx failure rfl
  | ok a => exact hf a rfl

theorem FailsOnly.map {x : Except φ α} (hx : FailsOnly P x) (f : α → β) :
    FailsOnly P (f <$> x) := by
  rw [map_eq_pure_bind]
  exact hx.bind fun a _ => failsOnly_ok (f a)

theorem failsOnly_mapM {f : α → Except φ β} {as : List α} (h : ∀ a ∈ as, FailsOnly P (f a)) :
    FailsOnly P (as.mapM f) := by
  induction as with
  | nil => exact failsOnly_ok []
  | cons a as ih =>
    obtain ⟨ha, hrest⟩ := List.forall_mem_cons.mp h
    rw [List.mapM_cons]
    exact ha.bind fun b _ => (ih hrest).bind fun bs _ => failsOnly_ok (b :: bs)

theorem failsOnly_foldlM {f : β → α → Except φ β} (h : ∀ b a, FailsOnly P (f b a))
    (as : List α) (b : β) : FailsOnly P (as.foldlM f b) := by
  induction as generalizing b with
  | nil => exact failsOnly_ok b
  | cons a as ih =>
    rw [List.foldlM_cons]
    exact (h b a).bind fun b' _ => ih b'

theorem FailsOnly.ofChecked {x : Checked α} (h : FailsOnly Fault.IsOverflow x) :
    FailsOnly Failure.IsOverflow (Outcome.ofChecked x) := by
  cases x with
  | error fault =>
    rintro _ ⟨⟩
    obtain ⟨operation, rfl⟩ := h fault rfl
    exact ⟨operation, rfl⟩
  | ok a => exact failsOnly_ok a

theorem Outcome.ofChecked_ne_error {x : Checked α} (h : x.isOk = true) (failure : Failure) :
    ofChecked x ≠ .error failure := by
  cases x with
  | error fault => cases h
  | ok a => exact fun herror => nomatch herror

end

/-! ## Counts and rankings -/

theorem Count.failsOnly_narrow (operation : Operation) (n : Int) :
    FailsOnly Fault.IsOverflow (Count.narrow operation n) := by
  unfold Count.narrow
  split
  · exact failsOnly_ok n
  · rintro _ ⟨⟩
    exact ⟨operation, rfl⟩

theorem Count.failsOnly_sumFrom (start : Int) (counts : List Int) :
    FailsOnly Fault.IsOverflow (Count.sumFrom start counts) := by
  induction counts generalizing start with
  | nil => exact failsOnly_ok start
  | cons c counts ih => exact (failsOnly_narrow _ _).bind fun sum _ => ih sum

section

variable {κ : Type} [Ord κ]

theorem Tally.failsOnly_ofRecords (records : List (Record κ)) :
    FailsOnly Fault.IsOverflow (Tally.ofRecords records) :=
  failsOnly_foldlM (fun t r => (Count.failsOnly_narrow _ _).bind fun sum _ =>
    failsOnly_ok (t.insert r.key sum)) _ _

/-- A ranking is made of whatever records, unless a sum overflows. -/
theorem failsOnly_mergeRanked (records : List (Record κ)) :
    FailsOnly Fault.IsOverflow (mergeRanked records) :=
  (Tally.failsOnly_ofRecords records).map _

end

/-! ## Tables -/

namespace Row

variable {α : Type}

/-- Every row has cells. -/
def Celled (rows : List (Row α)) : Prop := ∀ row ∈ rows, 0 < row.length

theorem celled_table {length : Nat} (hlength : length ≠ 0) (hashes : List KeyHash) (cell : α) :
    Celled (table hashes length cell) := by
  intro row hr
  obtain ⟨hash, rfl⟩ := mem_table hr
  rw [length_fill]
  exact Nat.pos_of_ne_zero hlength

theorem length_of_update {row row' : Row α} {key : Key} {change : α → Checked α}
    (h : row.update key change = .ok row') : row'.length = row.length := by
  obtain ⟨old, new, -, -, rfl⟩ := update_eq_ok_iff.mp h
  exact length_set row key new

theorem Celled.failsOnly_get {rows : List (Row α)} (h : Celled rows) (key : Key) :
    FailsOnly Fault.IsOverflow (rows.mapM (·.get key)) :=
  failsOnly_mapM fun row hr => failsOnly_of_exists (row.exists_get_eq_ok key (h row hr))

theorem Celled.failsOnly_weight [Cell α] {rows : List (Row α)} (h : Celled rows) (key : Key) :
    FailsOnly Fault.IsOverflow (rows.mapM (·.weight key)) :=
  failsOnly_mapM fun row hr => failsOnly_of_exists (row.exists_weight_eq_ok key (h row hr))

/-- The weights of a key in the rows are there, but their sum may overflow. -/
theorem Celled.failsOnly_tableWeight [Cell α] {rows : List (Row α)} (h : Celled rows) (key : Key) :
    FailsOnly Fault.IsOverflow (tableWeight rows key) :=
  (h.failsOnly_weight key).bind fun weights _ => Count.failsOnly_sumFrom 0 weights

end Row

end HeavyHitters
