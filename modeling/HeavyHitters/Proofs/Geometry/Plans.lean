import HeavyHitters.Estimator.CocoSketch
import HeavyHitters.Estimator.Conservative
import HeavyHitters.Estimator.CountMin
import HeavyHitters.Estimator.CountSketch
import HeavyHitters.Estimator.HeapSketch
import HeavyHitters.Estimator.Sampled
import HeavyHitters.Estimator.VoteSketch
import HeavyHitters.Proofs.Geometry
import HeavyHitters.Tracker.HashPipe
import HeavyHitters.Tracker.Precision
import HeavyHitters.Tracker.VoteTracker

/-!
# What comes of a plan

Ten structures are rows of cells in a budget of bytes.  Their plans differ in what the caller
chooses, in the bytes that a cell is charged and in the part of the budget that is for the
rows; the length of the rows is found in the same way for all of them.  Before it is, the
charge for a cell in every row is multiplied out in 64 bits, and this product may overflow
although no budget could pay for it.

* `Layout` has the numbers that decide, and `Layout.Overflows` and `Layout.Unfit` are the two ways
  for them to fail.  Below `ampleMemory` bytes of budget there is no third one, as
  `reserveRows_cases` and `BoundedHeap.ofBudget_cases` find the blocks of memory short enough.
* `Layout.Decides` says what a layout leads to, and `Layout.decides_of_build` takes it from the row
  length to whatever is built with it.
* `Plan.layout_decides` is the statement about all ten constructors, and
  `Plan.exists_overflowing_plans` has plans that overflow.
-/

namespace HeavyHitters

/-! ## Memory -/

/-- The budget from which on a block of memory for what it pays for might be too long.  For each
byte of a budget at most 128 are set aside. -/
def ampleMemory : Nat := 1 <<< 56

theorem reserveRows_cases {memory rows length width : Nat} (hrows : rows ≤ memory)
    (hcells : rows * length ≤ memory) (hwidth : width ≤ 128) :
    reserveRows rows length width = .ok () ∨
      ampleMemory ≤ memory ∧ reserveRows rows length width = .error .blockTooLong := by
  by_cases hmemory : memory < ampleMemory
  · refine .inl (reserveRows_eq_ok_iff.mpr ⟨?_, ?_⟩)
    · unfold ampleMemory at hmemory
      unfold KeyHash.width blockLimit
      omega
    · refine Nat.lt_of_le_of_lt (Nat.mul_le_mul hcells hwidth) ?_
      unfold ampleMemory at hmemory
      unfold blockLimit
      omega
  · unfold reserveRows reserve
    split
    · show (if _ then _ else _ : Checked Unit) = _ ∨ _ ∧ (if _ then _ else _ : Checked Unit) = _
      split
      · exact .inl rfl
      · exact .inr ⟨Nat.le_of_not_lt hmemory, rfl⟩
    · exact .inr ⟨Nat.le_of_not_lt hmemory, rfl⟩

theorem powerOfTwoFrom_le (n : Nat) : powerOfTwoFrom n ≤ 2 * n + 1 := by
  unfold powerOfTwoFrom
  split
  · omega
  · have hlog := Nat.log2_self_le (n := n - 1) (by omega)
    rw [Nat.one_shiftLeft, Nat.pow_succ]
    omega

namespace BoundedHeap

variable {memory : Nat} (subject : String)

theorem ofBudget_of_starved (h : memory / 8 = 0) :
    ∃ reason, ofBudget subject memory = refuse (.config subject reason) := by
  refine ⟨s!"{memory} bytes cannot hold a single heap entry", ?_⟩
  rw [ofBudget, if_pos h]
  rfl

theorem ofBudget_cases (h : memory / 8 ≠ 0) : ofBudget subject memory = .ok (empty (memory / 8)) ∨
    ampleMemory ≤ memory ∧ (ofBudget subject memory = .error (.fault .blockTooLong) ∨
      ofBudget subject memory = .error (.fault .hashTableTooLong)) := by
  by_cases hmemory : memory < ampleMemory
  · have hbuckets : bucketCount (memory / 8) ≤ 2 * (memory / 8 * 8 / 7) + 1 := powerOfTwoFrom_le _
    unfold ampleMemory at hmemory
    have htable : reserveHashTable (memory / 8) 16 = .ok () := by
      rw [reserveHashTable_eq_ok_iff]
      unfold blockLimit
      omega
    have hblock : reserve (memory / 8) 8 = .ok () := by
      rw [reserve_eq_ok_iff]
      unfold blockLimit
      omega
    rw [ofBudget, if_neg h, htable, hblock]
    exact .inl rfl
  · rw [ofBudget, if_neg h, reserveHashTable, reserve]
    split
    · split
      · exact .inl rfl
      · exact .inr ⟨Nat.le_of_not_lt hmemory, .inl rfl⟩
    · exact .inr ⟨Nat.le_of_not_lt hmemory, .inr rfl⟩

end BoundedHeap

/-! ## Layouts -/

/-- The numbers that rows are laid out by: the budget in bytes, the rows, and the
bytes that a cell is charged. -/
structure Layout where
  subject : String
  budget : Nat
  rows : Nat
  width : Nat

namespace Layout

variable {l : Layout}

/-- The charge for one cell in every row does not fit 64 bits. -/
def Overflows (l : Layout) : Prop := l.rows ≠ 0 ∧ l.width ≠ 0 ∧ 1 <<< 64 ≤ l.rows * l.width

/-- There is nothing to lay out, or the budget has no cell for every row. -/
def Unfit (l : Layout) : Prop := l.rows = 0 ∨ l.width = 0 ∨ l.budget < l.rows * l.width

/-- The length of the rows, found as all constructors find it. -/
def length (l : Layout) : Outcome Nat := rowLength l.subject l.budget l.rows l.width

theorem length_of_overflows (h : l.Overflows) :
    l.length = .error (.fault (.overflow .multiply)) := by
  obtain ⟨hrows, hwidth, hproduct⟩ := h
  unfold length rowLength
  dsimp only
  rw [if_neg hrows, if_neg hwidth, sizeTimes, if_neg (Nat.not_lt.mpr hproduct)]
  rfl

theorem sizeTimes_of_not_overflows (hover : ¬l.Overflows) (hrows : l.rows ≠ 0)
    (hwidth : l.width ≠ 0) : sizeTimes l.rows l.width = .ok (l.rows * l.width) :=
  if_pos (Nat.not_le.mp fun hproduct => hover ⟨hrows, hwidth, hproduct⟩)

theorem length_of_unfit (hover : ¬l.Overflows) (h : l.Unfit) :
    ∃ reason, l.length = refuse (.config l.subject reason) := by
  unfold length rowLength
  dsimp only
  by_cases hrows : l.rows = 0
  · exact ⟨_, by rw [if_pos hrows]; rfl⟩
  by_cases hwidth : l.width = 0
  · exact ⟨_, by rw [if_neg hrows, if_pos hwidth]; rfl⟩
  have hbudget : l.budget / (l.rows * l.width) = 0 :=
    Nat.div_eq_of_lt ((h.resolve_left hrows).resolve_left hwidth)
  refine ⟨s!"{l.budget} bytes cannot hold {l.rows} stages of {l.width}-byte slots", ?_⟩
  rw [if_neg hrows, if_neg hwidth, sizeTimes_of_not_overflows hover hrows hwidth]
  show (if l.budget / (l.rows * l.width) = 0 then _ else _ : Outcome Nat) = _
  rw [if_pos hbudget]
  rfl

/-- Otherwise the rows are as long as the budget lets them be. -/
theorem exists_length (hover : ¬l.Overflows) (h : ¬l.Unfit) : ∃ length, l.length = .ok length ∧
    1 ≤ length ∧ l.rows * length * l.width ≤ l.budget ∧
    l.budget < l.rows * (length + 1) * l.width := by
  have hrows : l.rows ≠ 0 := fun hrows => h (.inl hrows)
  have hwidth : l.width ≠ 0 := fun hwidth => h (.inr (.inl hwidth))
  have hbudget : l.rows * l.width ≤ l.budget := Nat.not_lt.mp fun hlt => h (.inr (.inr hlt))
  have hproduct : 0 < l.rows * l.width :=
    Nat.mul_pos (Nat.pos_of_ne_zero hrows) (Nat.pos_of_ne_zero hwidth)
  have hpos : 0 < l.budget / (l.rows * l.width) := Nat.div_pos hbudget hproduct
  refine ⟨l.budget / (l.rows * l.width), ?_, hpos, ?_, ?_⟩
  · unfold length rowLength
    dsimp only
    rw [if_neg hrows, if_neg hwidth, sizeTimes_of_not_overflows hover hrows hwidth]
    show (if l.budget / (l.rows * l.width) = 0 then _ else _ : Outcome Nat) = _
    rw [if_neg (Nat.ne_of_gt hpos)]
    rfl
  · rw [Nat.mul_right_comm]
    exact Nat.mul_div_le l.budget (l.rows * l.width)
  · rw [Nat.mul_right_comm]
    exact Nat.lt_mul_div_succ l.budget hproduct

/-- What a layout leads to, where `starved` says that a part beside the rows
gets too little of the budget. -/
structure Decides (l : Layout) (starved : Prop) (outcome : Outcome (List Nat)) : Prop where
  of_overflows : l.Overflows → outcome = .error (.fault (.overflow .multiply))
  of_unfit : ¬l.Overflows → l.Unfit ∨ starved → ∃ reason,
    outcome = refuse (.config l.subject reason)
  /-- Rows with cells, which the budget pays for, and for no longer ones; unless the budget is
  ample, and the memory cannot be set aside. -/
  of_fit : ¬l.Overflows → ¬(l.Unfit ∨ starved) → ∃ length,
    (1 ≤ length ∧ l.rows * length * l.width ≤ l.budget ∧
      l.budget < l.rows * (length + 1) * l.width) ∧
    (outcome = .ok (List.replicate l.rows length) ∨
      ampleMemory ≤ l.budget ∧
        (outcome = .error (.fault .blockTooLong) ∨ outcome = .error (.fault .hashTableTooLong)))

/-- What is built with the row length is left to decide only for rows that fit, and then the budget
has a byte for each of their cells. -/
theorem decides_of_build {starved : Prop} {build : Nat → Outcome (List Nat)}
    (hstarved : starved → ∀ length, ∃ reason, build length = refuse (.config l.subject reason))
    (hbuild : ¬starved → ∀ length, l.rows ≤ l.budget → l.rows * length ≤ l.budget →
      build length = .ok (List.replicate l.rows length) ∨
        ampleMemory ≤ l.budget ∧
          (build length = .error (.fault .blockTooLong) ∨
            build length = .error (.fault .hashTableTooLong))) :
    l.Decides starved (l.length >>= build) where
  of_overflows h := by
    rw [length_of_overflows h]
    rfl
  of_unfit hover h := by
    by_cases hunfit : l.Unfit
    · obtain ⟨reason, hlength⟩ := length_of_unfit hover hunfit
      exact ⟨reason, by rw [hlength]; rfl⟩
    · obtain ⟨length, hlength, -⟩ := exists_length hover hunfit
      rw [hlength]
      exact hstarved (h.resolve_left hunfit) length
  of_fit hover h := by
    have hfit : ¬l.Unfit := fun hunfit => h (.inl hunfit)
    obtain ⟨length, hlength, hpos, hle, hlt⟩ := exists_length hover hfit
    have hwidth : l.width ≠ 0 := fun hwidth => hfit (.inr (.inl hwidth))
    have hcells : l.rows * length ≤ l.budget :=
      Nat.le_trans (Nat.le_mul_of_pos_right _ (Nat.pos_of_ne_zero hwidth)) hle
    have hrows : l.rows ≤ l.budget := Nat.le_trans (Nat.le_mul_of_pos_right _ hpos) hcells
    rw [hlength]
    exact ⟨length, ⟨hpos, hle, hlt⟩, hbuild (fun hstarved => h (.inr hstarved)) length hrows hcells⟩

/-- A structure that is nothing but rows. -/
theorem decides_of_rows {γ : Type} {bytes : Nat} {make : Nat → γ} {lengths : γ → List Nat}
    (hbytes : bytes ≤ 128)
    (hmake : ∀ length, lengths (make length) = List.replicate l.rows length) :
    l.Decides False (lengths <$> (do
      let length ← rowLength l.subject l.budget l.rows l.width
      reserveRows l.rows length bytes
      return make length)) := by
  rw [map_bind]
  refine decides_of_build False.elim fun _ length hrows hcells => ?_
  rcases reserveRows_cases hrows hcells hbytes with hok | ⟨hmemory, herror⟩
  · refine .inl ?_
    rw [hok, ← hmake length]
    rfl
  · refine .inr ⟨hmemory, .inl ?_⟩
    rw [herror]
    rfl

end Layout

/-! ## Plans -/

/-- What a caller asks a constructor of rows for. -/
inductive Plan where
  | countMin (memory rows width : Nat)
  | countSketch (memory rows width : Nat)
  | conservative (memory rows width : Nat)
  | sampled (memory : Nat) (rate : Float)
      (accepted : (SamplingRate.ofFloat? rate).isSome) (rows width : Nat)
  | heapSketch (memory rows width : Nat)
  | coco (memory rows : Nat)
  | voteSketch (memory width : Nat)
  | hashPipe (memory : Nat)
  | precision (memory : Nat)
  | voteTracker (memory : Nat)

namespace Plan

/-- The numbers that the constructor lays its rows out by. -/
def layout : Plan → Layout
  | countMin memory rows width => ⟨CountMin.title, memory, rows, width⟩
  | countSketch memory rows width => ⟨CountSketch.title, memory, rows, width⟩
  | conservative memory rows width => ⟨Conservative.title, memory, rows, width⟩
  | sampled memory _ _ rows width => ⟨Sampled.title, memory, rows, width⟩
  | heapSketch memory rows width => ⟨HeapSketch.title, memory / 2, rows, width⟩
  | coco memory rows => ⟨CocoSketch.title, memory, rows, 8⟩
  | voteSketch memory width => ⟨VoteSketch.title, memory, VoteBucket.rowCount, 3 * width⟩
  | hashPipe memory => ⟨HashPipe.title, memory, HashPipe.rowCount, 8⟩
  | precision memory => ⟨Precision.title, memory, Precision.rowCount, 8⟩
  | voteTracker memory => ⟨VoteTracker.owner, memory, VoteBucket.rowCount, 12⟩

/-- The half of the budget that is for the heap has no place for a key. -/
def Starved : Plan → Prop
  | heapSketch memory _ _ => memory / 2 / 8 = 0
  | _ => False

/-- The lengths of the rows that the constructor builds; a source of draws
is made where one is needed. -/
def lengths {ρ : Type} (source : UInt64 → ρ) (seed : UInt64) : Plan → Outcome (List Nat)
  | countMin memory rows width =>
    (·.rows.map Row.length) <$> CountMin.ofBudget memory rows width seed
  | countSketch memory rows width =>
    (·.rows.map (·.row.length)) <$> CountSketch.ofBudget memory rows width seed
  | conservative memory rows width =>
    (·.rows.map Row.length) <$> Conservative.ofBudget memory rows width seed
  | sampled memory rate _ rows width =>
    (·.rows.map Row.length) <$> Sampled.ofBudget source memory rate rows width seed
  | heapSketch memory rows width =>
    (·.rows.map (·.row.length)) <$> HeapSketch.ofBudget memory rows width seed
  | coco memory rows => (·.rows.map Row.length) <$> CocoSketch.ofBudget source memory rows seed
  | voteSketch memory width => (·.rows.map Row.length) <$> VoteSketch.ofBudget memory width seed
  | hashPipe memory => (·.rows.map Row.length) <$> HashPipe.ofBudget memory seed
  | precision memory => (·.rows.map Row.length) <$> Precision.ofBudget source memory seed
  | voteTracker memory => (·.rows.map Row.length) <$> VoteTracker.ofBudget memory seed

theorem map_length_table {α : Type} (seeds : SeedStream) (rows length : Nat) (cell : α) :
    (table (seeds.hashes rows).1 length cell).map Row.length = List.replicate rows length := by
  refine List.eq_replicate_iff.mpr
    ⟨by rw [List.length_map, length_table, SeedStream.length_hashes], ?_⟩
  intro n hn
  obtain ⟨row, hr, rfl⟩ := List.mem_map.mp hn
  obtain ⟨hash, rfl⟩ := mem_table hr
  exact Row.length_fill length cell hash

theorem map_length_signedTable (seeds : SeedStream) (rows length : Nat) :
    (SignedRow.table rows length seeds).1.map (·.row.length) = List.replicate rows length := by
  refine List.eq_replicate_iff.mpr ⟨by rw [List.length_map, SignedRow.length_table], ?_⟩
  intro n hn
  obtain ⟨r, hr, rfl⟩ := List.mem_map.mp hn
  obtain ⟨⟨hash, signs⟩, -, rfl⟩ := List.mem_map.mp hr
  exact Row.length_fill length 0 hash

theorem decides_sampled {ρ : Type} (source : UInt64 → ρ) (seed : UInt64)
    (memory : Nat) (rate : Float) (accepted : (SamplingRate.ofFloat? rate).isSome)
    (rows width : Nat) : (sampled memory rate accepted rows width).layout.Decides False
      ((sampled memory rate accepted rows width).lengths source seed) := by
  obtain ⟨exactRate, hrate⟩ := Option.isSome_iff_exists.mp accepted
  rw [lengths, Sampled.ofBudget, hrate]
  exact Layout.decides_of_rows (by decide) fun length => map_length_table _ rows length _

/-- Beside its rows a sketch with a heap has the heap, which gets the other half of the budget. -/
theorem decides_heapSketch {ρ : Type} (source : UInt64 → ρ) (seed : UInt64)
    (memory rows width : Nat) :
    (heapSketch memory rows width).layout.Decides (heapSketch memory rows width).Starved
      ((heapSketch memory rows width).lengths source seed) := by
  rw [lengths, HeapSketch.ofBudget, map_bind]
  refine Layout.decides_of_build (fun hstarved length => ?starved)
    fun hroom length hrows hcells => ?built
  case starved =>
    obtain ⟨reason, hheap⟩ := BoundedHeap.ofBudget_of_starved HeapSketch.title hstarved
    exact ⟨reason, by rw [hheap]; rfl⟩
  case built =>
    rcases BoundedHeap.ofBudget_cases HeapSketch.title hroom with hheap | ⟨hmemory, hheap⟩
    · rw [hheap]
      have hblock : reserveRows rows length Count.width = .ok () ∨ ampleMemory ≤ memory / 2 ∧
          reserveRows rows length Count.width = .error .blockTooLong :=
            reserveRows_cases hrows hcells (by decide)
      rcases hblock with hok | ⟨hmemory, herror⟩
      · refine .inl ?_
        show _ = Except.ok (List.replicate rows length)
        rw [← map_length_signedTable ⟨seed⟩ rows length]
        simp only [hok]
        rfl
      · refine .inr ⟨hmemory, .inl ?_⟩
        simp only [herror]
        rfl
    · refine .inr ⟨hmemory, hheap.imp (fun hheap => ?_) fun hheap => ?_⟩
      · rw [hheap]
        rfl
      · rw [hheap]
        rfl

/-- A bucket is charged three words, and this product may overflow as well, but only
where that of all rows does. -/
theorem decides_voteSketch {ρ : Type} (source : UInt64 → ρ) (seed : UInt64) (memory width : Nat) :
    (voteSketch memory width).layout.Decides False
      ((voteSketch memory width).lengths source seed) := by
  rw [lengths, VoteSketch.ofBudget]
  by_cases hwords : 3 * width < 1 <<< 64
  · have hsize : sizeTimes 3 width = .ok (3 * width) := if_pos hwords
    rw [hsize]
    exact Layout.decides_of_rows (by decide) fun length => map_length_table _ _ length _
  · have hover : (voteSketch memory width).layout.Overflows := by
      refine ⟨show VoteBucket.rowCount ≠ 0 by decide, show 3 * width ≠ 0 by omega, ?_⟩
      show 1 <<< 64 ≤ 4 * (3 * width)
      omega
    have hsize : sizeTimes 3 width = .error (.overflow .multiply) := if_neg hwords
    rw [hsize]
    exact ⟨fun _ => rfl, fun h => absurd hover h, fun h => absurd hover h⟩

/--
**Every constructor of rows overflows just if the charge for one cell in every row does not fit 64
bits.**  Otherwise it refuses what is unfit, or builds as many rows as asked for, as long as the
budget lets them be and not empty; unless the budget is ample, and the memory cannot be set aside.
-/
theorem layout_decides {ρ : Type} (source : UInt64 → ρ) (seed : UInt64) (plan : Plan) :
    plan.layout.Decides plan.Starved (plan.lengths source seed) := by
  cases plan with
  | countMin memory rows width =>
    exact Layout.decides_of_rows (by decide) fun length => map_length_table _ rows length _
  | countSketch memory rows width =>
    exact Layout.decides_of_rows (by decide) fun length => map_length_signedTable _ rows length
  | conservative memory rows width =>
    exact Layout.decides_of_rows (by decide) fun length => map_length_table _ rows length _
  | sampled memory rate accepted rows width =>
    exact decides_sampled source seed memory rate accepted rows width
  | heapSketch memory rows width => exact decides_heapSketch source seed memory rows width
  | coco memory rows =>
    exact Layout.decides_of_rows (by decide) fun length => map_length_table _ rows length _
  | voteSketch memory width => exact decides_voteSketch source seed memory width
  | hashPipe memory =>
    exact Layout.decides_of_rows (by decide) fun length => map_length_table _ _ length _
  | precision memory =>
    exact @Layout.decides_of_rows _ (Precision ρ) _
      (fun length => ⟨table (SeedStream.hashes ⟨seed⟩ Precision.rowCount).1
      length Entry.empty, source (SeedStream.hashes ⟨seed⟩ Precision.rowCount).2.next.1,
      0, 0⟩) _ (by decide)
      fun length => map_length_table _ _ length _
  | voteTracker memory =>
    exact Layout.decides_of_rows (by decide) fun length => map_length_table _ _ length _

example : (countMin 1000 4 4).lengths id 1 = .ok [62, 62, 62, 62] := by decide +kernel

/-- **Sizes of 64 bits overflow** in constructors that take the number of rows or the width of a
cell from the caller, although one byte is no budget for any of these rows. -/
theorem exists_overflowing_plans : (9223372036854775808 : Nat) < 1 <<< 64 ∧
    CountMin.ofBudget 1 9223372036854775808 2 1 = .error (.fault (.overflow .multiply)) ∧
    CocoSketch.ofBudget (id : UInt64 → UInt64) 1 2305843009213693952 1
      = .error (.fault (.overflow .multiply)) ∧
    VoteSketch.ofBudget 1 9223372036854775808 1 = .error (.fault (.overflow .multiply)) :=
  ⟨by decide, rfl, rfl, rfl⟩

end Plan

end HeavyHitters
