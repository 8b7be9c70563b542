import HeavyHitters.Proofs.Estimator.Hierarchy
import HeavyHitters.Proofs.Estimator.Linear
import HeavyHitters.Proofs.Hash.SeedStream

/-!
# The hash functions of a structure

A structure takes one seed for each of its hash functions, and then one for each of its sign
functions, all from the stream of the seed that it is built from.  The seeds of a period are all
different, and different seeds give hash functions that differ in both hash keys.  No structure
takes more seeds than a period has, because its hash functions have to fit a block of memory.

The levels of a ladder and of a hierarchy are structures of their own.  They are built from seeds of
one stream, too, so no two of them are built from the same seed.

* `KeyHash.Apart` is said of hash functions with nothing in common, and
  `KeyHash.apart_ofSeed` finds them.
* `SeedStream.Distinct` is what is known of a stream, and
  `SeedStream.distinct` holds for all of them.
* `Drawn` lists the structures with their functions, and `Drawn.exists_hashes` finds
  these in a period of the stream.
* `Drawn.distinct_and_apart` puts the parts together.
-/

namespace HeavyHitters

variable {seed seed' : UInt64}

namespace KeyHash

/-- Hash functions that have neither hash key in common. -/
def Apart (h h' : KeyHash) : Prop := h.outer ≠ h'.outer ∧ h.inner ≠ h'.inner

instance (h h' : KeyHash) : Decidable (h.Apart h') := inferInstanceAs (Decidable (_ ∧ _))

/-- Different seeds give different first seeds and different second seeds, which
are masked in the same way. -/
theorem apart_ofSeed (h : seed ≠ seed') : (ofSeed seed).Apart (ofSeed seed') := by
  constructor
  · intro houter
    exact SeedStream.seedAt_ne h 0 ((UInt64.xor_left_inj _).mp houter)
  · intro hinner
    exact SeedStream.seedAt_ne h 1 ((UInt64.xor_left_inj _).mp hinner)

end KeyHash

/-! ## Streams -/

namespace SeedStream

variable {n : Nat}

/-- The streams of different seeds have no seed in common at the same place. -/
theorem forall₂_ne_take (h : seed ≠ seed') (n : Nat) :
    List.Forall₂ (· ≠ ·) (take ⟨seed⟩ n).1 (take ⟨seed'⟩ n).1 := by
  rw [take_fst, take_fst, List.forall₂_map_left_iff, List.forall₂_map_right_iff, List.forall₂_same]
  exact fun index _ => seedAt_ne h index

/-- Hash functions of one stream are apart, as long as no seed comes again. -/
theorem pairwise_hashes (s : SeedStream) (hn : n ≤ 2 ^ 64) :
    (s.hashes n).1.Pairwise KeyHash.Apart := by
  show ((s.take n).1.map KeyHash.ofSeed).Pairwise KeyHash.Apart
  exact List.pairwise_map.mpr ((s.nodup_take hn).imp KeyHash.apart_ofSeed)

theorem hashes_add (s : SeedStream) (m n : Nat) :
    (s.hashes (m + n)).1 = (s.hashes m).1 ++ ((s.hashes m).2.hashes n).1 := by
  simp [hashes, take_add]

theorem ofSeed_mem_hashes (s : SeedStream) {index : Nat} (hindex : index < n) :
    KeyHash.ofSeed (s.seedAt index) ∈ (s.hashes n).1 := by
  show _ ∈ (s.take n).1.map KeyHash.ofSeed
  rw [take_fst]
  exact List.mem_map_of_mem (List.mem_map_of_mem (List.mem_range.mpr hindex))

/-- What is known of the seeds and the hash functions of a stream. -/
structure Distinct (s : SeedStream) : Prop where
  nodup : (s.take (2 ^ 64)).1.Nodup
  /-- Every word is a seed of the period, and the stream comes back to where it was. -/
  count_eq_one : ∀ seed, (s.take (2 ^ 64)).1.count seed = 1
  returns : (s.take (2 ^ 64)).2 = s
  eq_of_seedAt_eq : ∀ i < 2 ^ 64, ∀ j < 2 ^ 64, s.seedAt i = s.seedAt j → i = j
  /-- The hash functions are apart. -/
  pairwise_hashes : ∀ n < 2 ^ 64, (s.hashes n).1.Pairwise KeyHash.Apart
  /-- And so are the sign functions that are drawn after them. -/
  pairwise_signs : ∀ m n, m + n ≤ 2 ^ 64 →
    ((s.hashes m).1 ++ ((s.hashes m).2.hashes n).1).Pairwise KeyHash.Apart

theorem distinct (s : SeedStream) : s.Distinct where
  nodup := s.nodup_take (Nat.le_refl _)
  count_eq_one := s.count_take_period
  returns := s.take_period_snd
  eq_of_seedAt_eq _ hi _ hj h := SeedStream.eq_of_seedAt_eq hi hj h
  pairwise_hashes _ hn := s.pairwise_hashes (Nat.le_of_lt hn)
  pairwise_signs m n hmn := s.hashes_add m n ▸ s.pairwise_hashes hmn

end SeedStream

/-! ## Rows and stages -/

/-- The functions of signed rows, those that give the signs after those that give the buckets. -/
def SignedRow.functions (rows : List SignedRow) : List (Key → UInt64) :=
  rows.map (·.row.hash) ++ rows.map (·.signs.hash)

theorem map_hash_table {α : Type} (hashes : List KeyHash) (length : Nat) (cell : α) :
    (table hashes length cell).map (·.hash) = hashes.map KeyHash.hash := by
  simp [table, Row.fill]

/-- A table of signed rows takes two seeds for each row. -/
theorem SignedRow.functions_table (rows length : Nat) (seeds : SeedStream) :
    functions (table rows length seeds).1 = (seeds.hashes (rows + rows)).1.map KeyHash.hash := by
  have hlength : (seeds.hashes rows).1.length = ((seeds.hashes rows).2.hashes rows).1.length := by
    rw [SeedStream.length_hashes, SeedStream.length_hashes]
  have hbuckets := List.map_fst_zip (Nat.le_of_eq hlength)
  have hsigns := List.map_snd_zip (Nat.le_of_eq hlength.symm)
  rw [SeedStream.hashes_add, List.map_append, functions]
  congr 1
  · conv_rhs => rw [← hbuckets]
    simp [table, Row.fill]
  · conv_rhs => rw [← hsigns]
    simp [table]

/-- The function that gives a key its bucket in a stage. -/
def Stage.hash : Stage → Key → UInt64
  | .vote _ row => row.hash
  | .basic row => row.hash

theorem Stage.hash_of_ofKind {kind : StageKind} {length : Nat} {hash : KeyHash} {stage : Stage}
    (h : ofKind kind length hash = .ok stage) : stage.hash = hash.hash := by
  obtain ⟨_, -, h⟩ := Checked.bind_eq_ok.mp h
  cases kind with
  | vote lambda => exact Checked.pure_eq_ok.mp h ▸ rfl
  | basic => exact Checked.pure_eq_ok.mp h ▸ rfl

/-- Stages that are built take one seed each. -/
theorem Funnel.map_hash_of_buildStages {memory : Nat} {ratio : Float} {layout : List StageKind}
    {index length : Nat} {seeds : SeedStream} {stages : List Stage}
    (h : buildStages memory ratio layout index length seeds = .ok stages) :
    stages.map Stage.hash = (seeds.hashes layout.length).1.map KeyHash.hash := by
  induction layout generalizing index length seeds stages with
  | nil =>
    cases h
    rfl
  | cons kind rest ih =>
    obtain ⟨stage, others, next, -, hstage, hothers, rfl⟩ := exists_of_buildStages_cons h
    rw [List.map_cons, Stage.hash_of_ofKind hstage, ih hothers]
    rfl

/-! ## Structures -/

/-- The functions that a structure built from a seed hashes keys with,
in the order of their seeds. -/
inductive Drawn (seed : UInt64) : List (Key → UInt64) → Prop where
  | countMin {memory rows width : Nat} {s : CountMin}
      (built : CountMin.ofBudget memory rows width seed = .ok s) :
      Drawn seed (s.rows.map (·.hash))
  | countSketch {memory rows width : Nat} {s : CountSketch}
      (built : CountSketch.ofBudget memory rows width seed = .ok s) :
        Drawn seed (SignedRow.functions s.rows)
  | conservative {memory rows width : Nat} {s : Conservative}
      (built : Conservative.ofBudget memory rows width seed = .ok s) :
        Drawn seed (s.rows.map (·.hash))
  | sampled {ρ : Type} {source : UInt64 → ρ} {memory rows width : Nat}
      {rate : Float} {s : Sampled ρ} (built : Sampled.ofBudget source memory rate rows width seed
        = .ok s) : Drawn seed (s.rows.map (·.hash))
  | coco {ρ : Type} {source : UInt64 → ρ} {memory rows : Nat} {s : CocoSketch ρ}
      (built : CocoSketch.ofBudget source memory rows seed = .ok s) :
        Drawn seed (s.rows.map (·.hash))
  | tree {memory width : Nat} {s : TreeSketch}
      (built : TreeSketch.ofBudget memory width seed = .ok s) :
      Drawn seed (s.trees.map (·.hash))
  | heap {memory rows width : Nat} {s : HeapSketch}
      (built : HeapSketch.ofBudget memory rows width seed = .ok s) :
      Drawn seed (SignedRow.functions s.rows)
  | vote {memory width : Nat} {s : VoteSketch}
      (built : VoteSketch.ofBudget memory width seed = .ok s) :
      Drawn seed (s.rows.map (·.hash))
  | hashPipe {memory : Nat} {t : HashPipe} (built : HashPipe.ofBudget memory seed = .ok t) :
      Drawn seed (t.rows.map (·.hash))
  | precision {ρ : Type} {source : UInt64 → ρ} {memory : Nat} {t : Precision ρ}
      (built : Precision.ofBudget source memory seed = .ok t) : Drawn seed (t.rows.map (·.hash))
  | voteTracker {memory : Nat} {t : VoteTracker}
      (built : VoteTracker.ofBudget memory seed = .ok t) :
      Drawn seed (t.rows.map (·.hash))
  | funnel {memory : Nat} {layout : List StageKind} {ratio : Float} {t : Funnel}
      (hlayout : layout.length < 2 ^ 64) (built :
        Funnel.ofLayout memory layout ratio seed = .ok t) : Drawn seed (t.stages.map Stage.hash)
  /-- A ladder itself has the one function that it samples with. -/
  | sampler {memory width : Nat} {s : UnivMon}
      (built : UnivMon.ofBudget memory width seed = .ok s) :
      Drawn seed [s.sampler.hash]

variable {functions : List (Key → UInt64)}

/-- Rows in one block of memory are much fewer than the seeds of a period. -/
theorem add_le_period_of_block {rows length : Nat} (hlength : length ≠ 0)
    (hblock : rows * length < blockLimit) : rows + rows ≤ 2 ^ 64 := by
  have hrows : rows ≤ rows * length := Nat.le_mul_of_pos_right rows (Nat.pos_of_ne_zero hlength)
  unfold blockLimit at hblock
  omega

/-- **The hash functions of a structure are drawn from one period** of
its stream, each of them once. -/
theorem Drawn.exists_hashes (h : Drawn seed functions) : ∃ n ≤ 2 ^ 64, ∃ hashes : List KeyHash,
    hashes.Sublist (SeedStream.hashes ⟨seed⟩ n).1 ∧ functions = hashes.map KeyHash.hash := by
  cases h with
  | countMin built | conservative built | coco built =>
    obtain ⟨length, -, hlength, hblock, rfl⟩ := exists_block_of_budget (by decide) built
    have hperiod := add_le_period_of_block hlength hblock
    exact ⟨_, Nat.le_of_add_right_le hperiod, _, List.Sublist.refl _, map_hash_table _ length _⟩
  | sampled built =>
    obtain ⟨_, length, -, -, hlength, hblock, rfl⟩ := Sampled.ofBudget_eq_ok built
    have hperiod := add_le_period_of_block hlength hblock
    exact ⟨_, Nat.le_of_add_right_le hperiod, _, List.Sublist.refl _, map_hash_table _ length _⟩
  | countSketch built =>
    obtain ⟨length, -, hlength, hblock, rfl⟩ := exists_block_of_budget (by decide) built
    have hperiod := add_le_period_of_block hlength hblock
    exact ⟨_, hperiod, _, List.Sublist.refl _, SignedRow.functions_table _ length _⟩
  | heap built =>
    obtain ⟨length, -, hlength, hblock, rfl⟩ := HeapSketch.ofBudget_eq_ok built
    have hperiod := add_le_period_of_block hlength hblock
    exact ⟨_, hperiod, _, List.Sublist.refl _, SignedRow.functions_table _ length _⟩
  | tree built =>
    obtain ⟨height, length, -, -, rfl⟩ := TreeSketch.ofBudget_eq_ok built
    have hperiod : TreeSketch.treeCount ≤ 2 ^ 64 := by decide
    refine ⟨_, hperiod, _, List.Sublist.refl _, ?_⟩
    rw [List.map_map]
    rfl
  | vote built =>
    obtain ⟨length, -, rfl⟩ := VoteSketch.ofBudget_eq_ok built
    exact ⟨VoteBucket.rowCount, by decide, _, List.Sublist.refl _, map_hash_table _ length _⟩
  | hashPipe built =>
    obtain ⟨length, -, -, -, rfl⟩ := exists_length_of_budget built
    exact ⟨HashPipe.rowCount, by decide, _, List.Sublist.refl _, map_hash_table _ length _⟩
  | precision built =>
    obtain ⟨length, -, -, -, rfl⟩ := exists_length_of_budget built
    exact ⟨Precision.rowCount, by decide, _, List.Sublist.refl _, map_hash_table _ length _⟩
  | voteTracker built =>
    obtain ⟨length, -, -, -, rfl⟩ := exists_length_of_budget built
    exact ⟨VoteBucket.rowCount, by decide, _, List.Sublist.refl _, map_hash_table _ length _⟩
  | funnel hlayout built =>
    obtain ⟨-, length, built⟩ := Funnel.exists_of_ofLayout built
    exact ⟨_, Nat.le_of_lt hlayout, _, List.Sublist.refl _, Funnel.map_hash_of_buildStages built⟩
  | sampler built =>
    obtain ⟨hsampler, -, -⟩ := UnivMon.ofBudget_eq_ok built
    have hmem := SeedStream.ofSeed_mem_hashes ⟨seed⟩ (Nat.lt_succ_self UnivMon.levelCount)
    refine ⟨_, by decide, [_], List.singleton_sublist.mpr hmem, ?_⟩
    rw [hsampler]
    rfl

/-- The levels of ladders and hierarchies that are built from a seed, with their numbers and the
functions they hash keys with. -/
inductive Level (base : UInt64) : (index : Nat) → List (Key → UInt64) → Prop where
  | ladder {memory width index : Nat} {s : UnivMon} {level : HeapSketch}
      (built : UnivMon.ofBudget memory width base = .ok s)
        (hlevel : s.levels[index]? = some level) :
      Level base index (SignedRow.functions level.rows)
  | hierarchy {ρ : Type} {choice : LevelChoice} {source : Option (UInt64 → ρ)} {memory index : Nat}
      {s : Hierarchy AnyTracker ρ} {t : Funnel}
      (built : Hierarchy.ofBudget choice.buildLevel source memory base = .ok s)
      (hlevel : s.levels[index]? = some (.funnel t)) : Level base index (t.stages.map Stage.hash)

/-- A level is a structure that is built from the seed with the number of the level. -/
theorem Level.drawn {base : UInt64} {index : Nat} (h : Level base index functions) :
    index < 2 ^ 64 ∧ Drawn (SeedStream.seedAt ⟨base⟩ index) functions := by
  cases h with
  | ladder built hlevel =>
    obtain ⟨-, hlength, hlevels⟩ := UnivMon.ofBudget_eq_ok built
    obtain ⟨hlt, -⟩ := List.getElem?_eq_some_iff.mp hlevel
    unfold UnivMon.levelCount at hlength
    exact ⟨by omega, .heap (hlevels index _ hlevel)⟩
  | hierarchy built hlevel =>
    obtain ⟨⟨hlength, hlevels⟩, -⟩ := Hierarchy.ofBudget_eq_ok built
    obtain ⟨hlt, -⟩ := List.getElem?_eq_some_iff.mp hlevel
    have hcount : Hierarchy.levelCount = 4 := rfl
    obtain ⟨⟩ | ⟨hfunnel⟩ := hlevels index _ hlevel
    exact ⟨by omega, .funnel (by decide) hfunnel⟩

/--
**Seeds and hash functions never come twice** in what one stream gives.  A stream hands out every
word once in a period.  Different seeds give hash functions that differ in both hash keys, and in
all seeds that these are made of.  So the hash functions that a structure takes from its stream, and
the sign functions, if it has any, are pairwise apart.

The comparison is within one stream each.  The sampler of a ladder takes one seed of the ladder's
stream, and each level of a ladder or a hierarchy has another seed of that stream, from which a
stream of its own is made.  So the functions of each level are apart from each other, and the levels
are built from different seeds; nothing is said of a function of one level against one of another
level, or against the sampler.
-/
theorem Drawn.distinct_and_apart {base : UInt64} {index : Nat} :
    SeedStream.Distinct ⟨base⟩ ∧
    (seed ≠ seed' → (KeyHash.ofSeed seed).Apart (KeyHash.ofSeed seed') ∧
      List.Forall₂ (· ≠ ·) (SeedStream.take ⟨seed⟩ 4).1 (SeedStream.take ⟨seed'⟩ 4).1) ∧
    (Drawn base functions → ∃ n ≤ 2 ^ 64, ∃ hashes : List KeyHash,
      hashes.Sublist (SeedStream.hashes ⟨base⟩ n).1 ∧ functions = hashes.map KeyHash.hash ∧
        hashes.Pairwise KeyHash.Apart) ∧
    (Level base index functions → index < 2 ^ 64 ∧
      Drawn (SeedStream.seedAt ⟨base⟩ index) functions) := by
  refine ⟨SeedStream.distinct _, fun h => ⟨KeyHash.apart_ofSeed h, SeedStream.forall₂_ne_take h 4⟩,
    fun h => ?_, fun h => h.drawn⟩
  obtain ⟨n, hn, hashes, hsublist, hfunctions⟩ := h.exists_hashes
  exact ⟨n, hn, hashes, hsublist, hfunctions, (SeedStream.pairwise_hashes _ hn).sublist hsublist⟩

/-- The six functions of a sketch of three signed rows, and those of the first level of a ladder. -/
theorem Drawn.distinct_and_apart_three_rows :
    ∃ (s : CountSketch) (ladder : UnivMon) (level : HeapSketch),
    CountSketch.ofBudget 48 3 4 11 = .ok s ∧ UnivMon.ofBudget 3072 4 11 = .ok ladder ∧
      ladder.levels[0]? = some level ∧ (SignedRow.functions s.rows).length = 6 ∧
      SeedStream.Distinct ⟨11⟩ ∧ (7 : UInt64) ≠ 8 ∧ (KeyHash.ofSeed 7).Apart (KeyHash.ofSeed 8) ∧
      Drawn 11 (SignedRow.functions s.rows) ∧
      (∃ n ≤ 2 ^ 64, ∃ hashes : List KeyHash, hashes.Sublist (SeedStream.hashes ⟨11⟩ n).1 ∧
        SignedRow.functions s.rows = hashes.map KeyHash.hash ∧ hashes.Pairwise KeyHash.Apart) ∧
      Level 11 0 (SignedRow.functions level.rows) ∧
      Drawn (SeedStream.seedAt ⟨11⟩ 0) (SignedRow.functions level.rows) := by
  have hrun : (do
      let s ← CountSketch.ofBudget 48 3 4 11
      let ladder ← UnivMon.ofBudget 3072 4 11
      return ((SignedRow.functions s.rows).length, ladder.levels.length) : Outcome (Nat × Nat))
        = .ok (6, 6) := by
    decide +kernel
  obtain ⟨s, built, hrun⟩ := Checked.bind_eq_ok.mp hrun
  obtain ⟨ladder, builtLadder, hrun⟩ := Checked.bind_eq_ok.mp hrun
  obtain ⟨hfunctions, hlevels⟩ := Prod.mk.inj (Checked.pure_eq_ok.mp hrun)
  have hlt : 0 < ladder.levels.length := by omega
  have drawn : Drawn 11 (SignedRow.functions s.rows) := .countSketch built
  have hlevel := List.getElem?_eq_getElem hlt
  have level : Level 11 0 (SignedRow.functions ladder.levels[0].rows) := .ladder builtLadder hlevel
  obtain ⟨hdistinct, hapart, hdrawn, -⟩ := @distinct_and_apart 7 8 (SignedRow.functions s.rows) 11 0
  obtain ⟨-, -, -, hpart⟩ :=
    @distinct_and_apart 7 8 (SignedRow.functions ladder.levels[0].rows) 11 0
  exact ⟨s, ladder, ladder.levels[0], built, builtLadder, hlevel, hfunctions, hdistinct, by decide,
    (hapart (by decide)).1, drawn, hdrawn drawn, level, (hpart level).2⟩

end HeavyHitters
