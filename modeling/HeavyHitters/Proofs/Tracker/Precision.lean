import HeavyHitters.Proofs.Tracker.Evolution
import HeavyHitters.Proofs.Tracker.Room
import Mathlib.Order.Bounds.Basic

/-!
# Precision keeps keys unique and displaces the lightest

A key settles in the first bucket on its path that is empty or its own.  So where a key is
resident, its buckets in the earlier rows are occupied by other keys, and it stays that way
because no bucket is ever emptied: a row shields the residents of all later rows.  This is
why no key gets a second cell.

* `Precision.Shields` is the invariant of two rows, `Precision.Unique` that of all rows, and
  `Precision.Unique.nodup_keys` says what it is for.
* `Precision.Step` are the three things an insert can do; `Precision.step_of_insert` says that there
  is no other, and all that follows is read off a step.
* `Precision.Admission` is the rule of admission by what an insert finds, draws and hands out.
* `Precision.unique_and_admissions` is all of it for every run of a built tracker.
-/

namespace HeavyHitters

namespace Row.Placed

/-- A key has one bucket in a row, so it has at most one resident there. -/
theorem nodup_keys {α : Type} [Cell α] {row : Row α} (h : row.Placed) :
    (row.residents.map (·.key)).Nodup := by
  rw [List.Nodup, List.pairwise_map, residents, List.pairwise_filterMap, List.pairwise_iff_getElem]
  intro i j hi hj hij e he e' he' hkey
  have hat : ∀ {k : Nat} (hk : k < row.cells.toList.length) {e : Entry},
      Cell.resident row.cells.toList[k] = some e → row.position e.key = k := by
    intro k hk e he
    refine h.position_eq k e ?_
    rw [residentAt, ← Array.getElem?_toList, List.getElem?_eq_getElem hk]
    exact he
  have := hat hi he
  have := hat hj he'
  rw [hkey] at *
  omega

/-- The residents of a row are the occupied contents of the buckets of their keys. -/
theorem mem_residents_iff {row : Row Entry} (h : row.Placed) {e : Entry} :
    e ∈ row.residents ↔ row.get e.key = .ok e ∧ e.isEmpty = false := by
  rw [Row.mem_residents]
  constructor
  · rintro ⟨i, hi⟩
    have hposition := h.position_eq i e hi
    obtain ⟨cell, hcell, he⟩ := Option.bind_eq_some_iff.mp hi
    obtain ⟨hcount, rfl⟩ := Entry.resident_eq_some_iff.mp he
    exact ⟨get_eq_ok_iff.mpr (hposition ▸ hcell),
      Bool.eq_false_iff.mpr (mt Record.isEmpty_iff.mp hcount)⟩
  · rintro ⟨hget, hempty⟩
    refine ⟨row.position e.key, ?_⟩
    rw [residentAt_of_get hget]
    exact if_neg (by simp [hempty])

end Row.Placed

namespace Precision

variable {key : Key} {rows rows' before after : List (Row Entry)} {row : Row Entry}

/-! ## One cell for each key -/

/-- Every resident of the later row finds its bucket in the earlier row occupied by another key. -/
def Shields (row later : Row Entry) : Prop :=
  ∀ e ∈ later.residents, ∃ cell, row.get e.key = .ok cell ∧ cell.isEmpty = false ∧ cell.key ≠ e.key

/-- Placed rows, each of which shields the later ones. -/
structure Unique (rows : List (Row Entry)) : Prop where
  placed : TablePlaced rows
  shields : rows.Pairwise Shields

/-- **A key is resident in at most one cell.** -/
theorem Unique.nodup_keys (h : Unique rows) : ((tableResidents rows).map (·.key)).Nodup := by
  rw [tableResidents, List.map_flatMap, List.nodup_flatMap]
  refine ⟨fun row hr => (h.placed row hr).nodup_keys, ?_⟩
  refine h.shields.imp_of_mem fun {row later} hrow _ hshields => ?_
  intro key hkey hkey'
  obtain ⟨e, he, rfl⟩ := List.mem_map.mp hkey
  obtain ⟨e', he', heq⟩ := List.mem_map.mp hkey'
  obtain ⟨cell, hget, -, hne⟩ := hshields e' he'
  rw [heq, ((h.placed row hrow).mem_residents_iff.mp he).1] at hget
  cases hget
  exact hne heq.symm

/-- A key that misses a row is not resident there. -/
theorem key_ne_of_misses (hp : TablePlaced rows) (hmiss : Misses key rows) :
    ∀ row ∈ rows, ∀ e ∈ row.residents, e.key ≠ key := by
  rintro row hr e he rfl
  obtain ⟨cell, hget, -, hne⟩ := hmiss row hr
  obtain rfl : e = cell := Except.ok.inj ((((hp row hr).mem_residents_iff.mp he).1).symm.trans hget)
  exact hne rfl

/-- A key with a bucket that is empty or its own is not resident in any later row. -/
theorem Unique.key_ne_of_own (h : Unique (before ++ row :: after)) {old : Entry}
    (hget : row.get key = .ok old) (hown : old.isEmpty = true ∨ old.key = key) :
    ∀ later ∈ after, ∀ e ∈ later.residents, e.key ≠ key := by
  rintro later hlater e he rfl
  obtain ⟨-, hrest, -⟩ := List.pairwise_append.mp h.shields
  obtain ⟨cell, hcell, hempty, hne⟩ := (List.pairwise_cons.mp hrest).1 later hlater e he
  obtain rfl : old = cell := Except.ok.inj (hget.symm.trans hcell)
  rcases hown with hown | hown
  · exact Bool.false_ne_true (hempty.symm.trans hown)
  · exact hne hown

/-- **A key that gets a bucket keeps the rows in order**, if it misses the earlier rows and is
not resident in a later one. -/
theorem Unique.set (h : Unique (before ++ row :: after)) (hmiss : Misses key before)
    (hlater : ∀ later ∈ after, ∀ e ∈ later.residents, e.key ≠ key) {old new : Entry}
    (hget : row.get key = .ok old) (hkey : new.key = key) (hcount : 1 ≤ new.count) :
    Unique (before ++ row.set key new :: after) := by
  obtain ⟨hbefore, hrow, hafter⟩ : TablePlaced before ∧ row.Placed ∧ TablePlaced after := by
    obtain ⟨hbefore, hrest⟩ := List.forall_mem_append.mp h.placed
    exact ⟨hbefore, List.forall_mem_cons.mp hrest⟩
  obtain ⟨hfirst, hrest, hcross⟩ := List.pairwise_append.mp h.shields
  obtain ⟨hnext, hlast⟩ := List.pairwise_cons.mp hrest
  have hset : (row.set key new).Placed := hrow.set_resident hget fun e he => by
    obtain ⟨-, rfl⟩ := Entry.resident_eq_some_iff.mp he
    exact ⟨hcount, Or.inl hkey⟩
  refine ⟨List.forall_mem_append.mpr ⟨hbefore, List.forall_mem_cons.mpr ⟨hset, hafter⟩⟩,
    List.pairwise_append.mpr ⟨hfirst, List.pairwise_cons.mpr ⟨?_, hlast⟩, ?_⟩⟩
  · intro later hl e he
    rw [Row.get_set hrow.length_pos]
    split
    · refine ⟨new, rfl, Bool.eq_false_iff.mpr (mt Record.isEmpty_iff.mp (by omega)), ?_⟩
      rw [hkey]
      exact (hlater later hl e he).symm
    · exact hnext later hl e he
  · intro earlier hearlier later hl e he
    rcases List.mem_cons.mp hl with rfl | hl
    · -- a resident of the changed row is the new one or was there before
      obtain ⟨hat, hempty⟩ := hset.mem_residents_iff.mp he
      rw [Row.get_set hrow.length_pos] at hat
      split at hat
      · obtain rfl := Except.ok.inj hat
        rw [hkey]
        exact hmiss earlier hearlier
      · exact hcross earlier hearlier row List.mem_cons_self e
          (hrow.mem_residents_iff.mpr ⟨hat, hempty⟩)
    · exact hcross earlier hearlier later (List.mem_cons_of_mem _ hl) e he

/-! ## Inserts -/

/-- A key settles in the first row in which its bucket is empty or its own, or misses all rows. -/
theorem settle_eq_ok {settled : Bool} (h : settle key rows = .ok (rows', settled)) :
    (settled = true ∧ ∃ before row after old new,
      rows = before ++ row :: after ∧ Misses key before ∧
      row.get key = .ok old ∧ rows' = before ++ row.set key new :: after ∧ new.key = key ∧
      (old.isEmpty = true ∧ new.count = 1 ∨ old.isEmpty = false ∧ old.key = key ∧
        new.count = old.count + 1)) ∨
    settled = false ∧ rows' = rows ∧ Misses key rows := by
  induction rows generalizing rows' with
  | nil =>
    obtain ⟨rfl, rfl⟩ : [] = rows' ∧ false = settled := by simpa [settle] using h
    exact Or.inr ⟨rfl, rfl, fun row hr => by cases hr⟩
  | cons row rows ih =>
    rw [settle] at h
    obtain ⟨resident, hget, h⟩ := Checked.bind_eq_ok.mp h
    split at h
    · next hempty =>
      obtain ⟨rfl, rfl⟩ := Prod.mk.inj (Checked.pure_eq_ok.mp h)
      exact Or.inl ⟨rfl, [], row, rows, resident, ⟨key, 1⟩, rfl,
        (fun row hr => by cases hr), hget, rfl, rfl, Or.inl ⟨hempty, rfl⟩⟩
    · next hempty =>
      have hempty := Bool.eq_false_iff.mpr hempty
      split at h
      · next hkey =>
        obtain ⟨count, hcount, h⟩ := Checked.bind_eq_ok.mp h
        obtain ⟨rfl, rfl⟩ := Prod.mk.inj (Checked.pure_eq_ok.mp h)
        obtain ⟨-, rfl⟩ := Count.plus_eq_ok_iff.mp hcount
        exact Or.inl ⟨rfl, [], row, rows, resident, _, rfl,
          (fun row hr => by cases hr), hget, rfl, rfl, Or.inr ⟨hempty, hkey, rfl⟩⟩
      · next hkey =>
        obtain ⟨⟨rest, settled'⟩, hsettle, h⟩ := Checked.bind_eq_ok.mp h
        obtain ⟨rfl, rfl⟩ := Prod.mk.inj (Checked.pure_eq_ok.mp h)
        rcases ih hsettle with ⟨rfl, before, next, after, old, new, rfl, hmiss, hold, rfl, hnew⟩
          | ⟨rfl, rfl, hmiss⟩
        · exact Or.inl ⟨rfl, row :: before, next, after, old, new, rfl,
            List.forall_mem_cons.mpr ⟨⟨resident, hget, hempty, hkey⟩, hmiss⟩, hold, rfl, hnew⟩
        · exact Or.inr ⟨rfl, rfl, List.forall_mem_cons.mpr ⟨⟨resident, hget, hempty, hkey⟩, hmiss⟩⟩

/-- One unit of a key takes the place of the first content of a weight on the key's path. -/
def Displaces (key : Key) (weight : Int) (rows rows' : List (Row Entry)) (victim : Entry) : Prop :=
  ∃ before row after, rows = before ++ row :: after ∧ row.get key = .ok victim ∧
    victim.count = weight ∧
    (∀ earlier ∈ before, ∃ cell, earlier.get key = .ok cell ∧ cell.count ≠ weight) ∧
    rows' = before ++ row.set key ⟨key, 1⟩ :: after

theorem displaces_of_displace {weight : Int} {victim : Option Entry}
    (h : displace key weight rows = .ok (rows', victim))
    (hw : ∃ row ∈ rows, ∃ resident, row.get key = .ok resident ∧ resident.count = weight) :
    ∃ old, victim = some old ∧ Displaces key weight rows rows' old := by
  induction rows generalizing rows' with
  | nil =>
    obtain ⟨row, hr, -⟩ := hw
    cases hr
  | cons row rows ih =>
    rw [displace] at h
    obtain ⟨resident, hget, h⟩ := Checked.bind_eq_ok.mp h
    split at h
    · next hcount =>
      obtain ⟨rfl, rfl⟩ := Prod.mk.inj (Checked.pure_eq_ok.mp h)
      exact ⟨resident, rfl, [], row, rows, rfl, hget, hcount, (fun row hr => by cases hr), rfl⟩
    · next hcount =>
      obtain ⟨⟨rest, victim'⟩, hdisplace, h⟩ := Checked.bind_eq_ok.mp h
      obtain ⟨rfl, rfl⟩ := Prod.mk.inj (Checked.pure_eq_ok.mp h)
      have hrest : ∃ row ∈ rows, ∃ resident, row.get key = .ok resident ∧
          resident.count = weight := by
        obtain ⟨r, hr, e, hg, hc⟩ := hw
        rcases List.mem_cons.mp hr with rfl | hr
        · obtain rfl := Except.ok.inj (hget.symm.trans hg)
          exact absurd hc hcount
        · exact ⟨r, hr, e, hg, hc⟩
      obtain ⟨old, rfl, before, next, after, rfl, hold, hweight, hbefore, rfl⟩ := ih hdisplace hrest
      exact ⟨old, rfl, row :: before, next, after, rfl, hold, hweight,
        List.forall_mem_cons.mpr ⟨⟨resident, hget, hcount⟩, hbefore⟩, rfl⟩

/-- The weights that a key meets on its path. -/
def pathCounts (key : Key) (rows : List (Row Entry)) : Set Int :=
  {count | ∃ row ∈ rows, ∃ cell, row.get key = .ok cell ∧ cell.count = count}

theorem isLeast_of_lightest {weight : Int} (hne : rows ≠ []) (h : lightest key rows = .ok weight) :
    IsLeast (pathCounts key rows) weight := by
  refine ⟨exists_of_lightest hne h, ?_⟩
  rintro count ⟨row, hr, cell, hget, rfl⟩
  obtain ⟨path, hpath, h⟩ := Checked.bind_eq_ok.mp h
  obtain rfl := Checked.pure_eq_ok.mp h
  have hmem : cell.count ∈ path.map (·.count) :=
    List.mem_map.mpr ⟨cell, Checked.mem_mapM hpath hr hget, rfl⟩
  exact (Count.le_leastOf_iff (List.ne_nil_of_mem hmem)).mp (Int.le_refl _) _ hmem

/-- The odds are the weight rounded up to a power of two. -/
theorem isLeast_odds (weight : Nat) :
    IsLeast {p : Nat | p.isPowerOfTwo ∧ weight ≤ p} (odds weight) := by
  refine ⟨⟨?_, le_odds weight⟩, ?_⟩
  · unfold odds powerOfTwoFrom
    split
    · exact ⟨0, rfl⟩
    · exact ⟨_, Nat.one_shiftLeft _⟩
  · rintro p ⟨⟨k, rfl⟩, hle⟩
    unfold odds powerOfTwoFrom
    split
    · exact Nat.one_le_two_pow
    · have hlog : (weight - 1).log2 < k := (Nat.log2_lt (by omega)).mpr (by omega)
      rw [Nat.one_shiftLeft]
      exact Nat.pow_le_pow_right (by decide) hlog

/-- A number drawn below `n` is 0 exactly if the half word times `n` stays
below the 32nd power of two. -/
theorem below_eq_zero_iff {ρ : Type} [RandomSource ρ] {n : Nat} {source : ρ} :
    (RandomSource.below n source).1 = 0 ↔
    (RandomSource.halfWord source).1.toNat * n < 4294967296 := by
  show ((RandomSource.halfWord source).1.toNat * n) >>> 32 = 0 ↔ _
  rw [Nat.shiftRight_eq_div_pow, Nat.div_eq_zero_iff]
  omega

variable {ρ : Type} [RandomSource ρ] {t t' : Precision ρ} {out : Option Entry}

/-- What an insert of a key can do. -/
inductive Step (t : Precision ρ) (key : Key) : Precision ρ → Option Entry → Prop where
  /-- The key settles in the first bucket on its path that is empty or its own. -/
  | settled {before after : List (Row Entry)} {row : Row Entry} {old new : Entry}
      (hrows : t.rows = before ++ row :: after) (hmiss : Misses key before)
        (hget : row.get key = .ok old)
      (hown : old.isEmpty = true ∨ old.key = key) (hkey : new.key = key) (hcount : 1 ≤ new.count) :
      Step t key { t with rows := before ++ row.set key new :: after } none
  /-- The key misses every row and takes the place of the lightest resident on its path. -/
  | displaced {rows' : List (Row Entry)} {least : Int} {victim : Entry} (hmiss : Misses key t.rows)
      (hleast : IsLeast (pathCounts key t.rows) least)
      (hdraw : (RandomSource.halfWord t.source).1.toNat * odds least.toNat < 4294967296)
      (hrows : Displaces key least t.rows rows' victim) :
      Step t key ⟨rows', (RandomSource.halfWord t.source).2, t.recirculated + 1,
        t.dropped⟩ (some victim)
  /-- The key misses every row and is handed back. -/
  | returned {least : Int} (hmiss : Misses key t.rows)
      (hleast : IsLeast (pathCounts key t.rows) least)
        (hdraw : 4294967296 ≤ (RandomSource.halfWord t.source).1.toNat * odds least.toNat) :
      Step t key ⟨t.rows, (RandomSource.halfWord t.source).2, t.recirculated,
        t.dropped + 1⟩ (some ⟨key, 1⟩)

/-- **An insert does one of the three.** -/
theorem step_of_insert (hp : TablePlaced t.rows) (hne : t.rows ≠ [])
    (h : t.insert key = .ok (t', out)) : Step t key t' out := by
  obtain ⟨rows, source, recirculated, dropped⟩ := t
  obtain ⟨⟨rows', settled⟩, hsettle, hrest⟩ := Checked.bind_eq_ok.mp h
  rcases settle_eq_ok hsettle with
    ⟨rfl, before, row, after, old, new, rfl, hmiss, hget, rfl, hkey, hnew⟩ | ⟨rfl, rfl, hmiss⟩
  · obtain ⟨rfl, rfl⟩ := Prod.mk.inj (Checked.pure_eq_ok.mp hrest)
    have hrow : row.Placed := hp row (List.mem_append_right _ List.mem_cons_self)
    rcases hnew with ⟨hempty, hcount⟩ | ⟨hempty, hown, hcount⟩
    · exact .settled rfl hmiss hget (Or.inl hempty) hkey (by omega)
    · have hpos : 1 ≤ old.count :=
        hrow.residents_positive old (hrow.mem_residents_iff.mpr ⟨hown ▸ hget, hempty⟩)
      exact .settled rfl hmiss hget (Or.inr hown) hkey (by omega)
  · obtain ⟨weight, hlightest, hrest⟩ := Checked.bind_eq_ok.mp hrest
    have hleast := isLeast_of_lightest hne hlightest
    dsimp only at hrest
    split at hrest
    · next hdraw =>
      obtain ⟨⟨rows', victim⟩, hdisplace, hrest⟩ := Checked.bind_eq_ok.mp hrest
      obtain ⟨rfl, rfl⟩ := Prod.mk.inj (Checked.pure_eq_ok.mp hrest)
      obtain ⟨old, rfl, hdisplaces⟩ := displaces_of_displace hdisplace hleast.1
      exact .displaced hmiss hleast (below_eq_zero_iff.mp hdraw) hdisplaces
    · next hdraw =>
      obtain ⟨rfl, rfl⟩ := Prod.mk.inj (Checked.pure_eq_ok.mp hrest)
      exact .returned hmiss hleast (Nat.le_of_not_lt fun hlt => hdraw (below_eq_zero_iff.mpr hlt))

/-! ## The rule of admission -/

/-- A key is not resident, and every bucket on its path is occupied. -/
def Crowded (key : Key) (rows : List (Row Entry)) : Prop :=
  (∀ e ∈ tableResidents rows, e.key ≠ key) ∧ ∀ row ∈ rows, ∃ cell, row.get key = .ok cell ∧
    cell.isEmpty = false

/-- A key that misses every row is not resident anywhere, as no other bucket could hold it. -/
theorem misses_iff_crowded (hp : TablePlaced rows) : Misses key rows ↔ Crowded key rows := by
  constructor
  · intro hmiss
    refine ⟨fun e he => ?_, fun row hr => (hmiss row hr).imp fun _ h => ⟨h.1, h.2.1⟩⟩
    obtain ⟨row, hr, he⟩ := List.mem_flatMap.mp he
    exact key_ne_of_misses hp hmiss row hr e he
  · rintro ⟨hresident, hpath⟩ row hr
    obtain ⟨cell, hget, hempty⟩ := hpath row hr
    refine ⟨cell, hget, hempty, fun hkey => ?_⟩
    have hcell : cell ∈ row.residents := (hp row hr).mem_residents_iff.mpr ⟨hkey ▸ hget, hempty⟩
    exact hresident cell (List.mem_flatMap.mpr ⟨row, hr, hcell⟩) hkey

/-- What an insert of a key finds, draws and hands out. -/
structure Admission (t : Precision ρ) (key : Key) (t' : Precision ρ)
    (out : Option Entry) : Prop where
  /-- A key that is resident or has an empty bucket on its path draws nothing,
  and nothing is carried out. -/
  settles : ¬Crowded key t.rows → t'.source = t.source ∧ out = none
  /-- Any other key draws one half word.  With the odds, the least power of two that is not
  below the least weight on its path of six, this decides if it displaces the first resident of
  that weight or is handed back. -/
  draws : Crowded key t.rows → t'.source = (RandomSource.halfWord t.source).2 ∧ t.rows.length = 6 ∧
    ∃ (least : Int) (odds : Nat), IsLeast (pathCounts key t.rows) least ∧
      IsLeast {p : Nat | p.isPowerOfTwo ∧ least ≤ p} odds ∧
      ((RandomSource.halfWord t.source).1.toNat * odds < 4294967296 →
        ∃ victim, Displaces key least t.rows t'.rows victim ∧ out = some victim) ∧
      (4294967296 ≤ (RandomSource.halfWord t.source).1.toNat * odds → t'.rows = t.rows ∧
        out = some ⟨key, 1⟩)
  /-- A new unit is handed back only by leaving all rows as they are. -/
  returns : out = some ⟨key, 1⟩ → t'.rows = t.rows

/-- What is displaced is of another key. -/
theorem Displaces.key_ne {weight : Int} {victim : Entry}
    (h : Displaces key weight rows rows' victim) (hmiss : Misses key rows) : victim.key ≠ key := by
  obtain ⟨before, row, after, rfl, hget, -⟩ := h
  obtain ⟨cell, hcell, -, hne⟩ := hmiss row (List.mem_append_right _ List.mem_cons_self)
  obtain rfl := Except.ok.inj (hget.symm.trans hcell)
  exact hne

theorem isLeast_odds_toNat (weight : Int) :
    IsLeast {p : Nat | p.isPowerOfTwo ∧ weight ≤ p} (odds weight.toNat) := by
  have hset : {p : Nat | p.isPowerOfTwo ∧ weight ≤ p}
      = {p : Nat | p.isPowerOfTwo ∧ weight.toNat ≤ p} := by
    ext p
    simp only [Set.mem_ofPred_eq]
    rw [Int.toNat_le]
  rw [hset]
  exact isLeast_odds _

/-- **A step is an admission.** -/
theorem Step.admission (h : Step t key t' out) (hp : TablePlaced t.rows)
    (hlength : t.rows.length = rowCount) : Admission t key t' out := by
  cases h with
  | @settled before after row old new hrows hmiss hget hown hkey hcount =>
    refine ⟨fun _ => ⟨rfl, rfl⟩, fun hcrowded => ?_, nofun⟩
    -- the bucket in which the key settled is not occupied by another one
    obtain ⟨cell, hcell, hempty, hne⟩ := (misses_iff_crowded hp).mpr hcrowded row
      (hrows ▸ List.mem_append_right _ List.mem_cons_self)
    obtain rfl := Except.ok.inj (hget.symm.trans hcell)
    rcases hown with hown | hown
    · exact absurd (hempty.symm.trans hown) Bool.false_ne_true
    · exact absurd hown hne
  | @displaced rows' least victim hmiss hleast hdraw hrows =>
    refine ⟨fun hn => absurd ((misses_iff_crowded hp).mp hmiss) hn, fun _ => ?_, fun hout => ?_⟩
    · exact ⟨rfl, hlength, least, odds least.toNat, hleast, isLeast_odds_toNat least, fun _ =>
        ⟨victim, hrows, rfl⟩, fun hge => absurd hdraw (Nat.not_lt.mpr hge)⟩
    · exact absurd (congrArg Record.key (Option.some.inj hout)) (hrows.key_ne hmiss)
  | @returned least hmiss hleast hdraw =>
    refine ⟨fun hn => absurd ((misses_iff_crowded hp).mp hmiss) hn, fun _ => ?_, fun _ => rfl⟩
    exact ⟨rfl, hlength, least, odds least.toNat, hleast, isLeast_odds_toNat least,
      fun hlt => absurd hlt (Nat.not_lt.mpr hdraw), fun _ => ⟨rfl, rfl⟩⟩

/-! ## Room -/

omit [RandomSource ρ] in
theorem exists_settle {bound : Key → Int} (hp : TablePlaced rows)
    (hroom : ∀ key, bound key ≤ Count.greatest)
    (hbound : ∀ other, weightOf (· == other) (tableResidents rows) +
      weightOf (· == other) [⟨key, 1⟩] ≤ bound other) :
    ∃ rows' settled, settle key rows = .ok (rows', settled) := by
  induction rows with
  | nil => exact ⟨[], false, rfl⟩
  | cons row rows ih =>
    obtain ⟨hrow, hrest⟩ := List.forall_mem_cons.mp hp
    change ∀ other, weightOf _ (row.residents ++ tableResidents rows) + _ ≤ _ at hbound
    simp only [weightOf_append] at hbound
    have hshare : ∀ other, 0 ≤ weightOf (· == other) (tableResidents rows) := fun other =>
      weightOf_nonneg fun e he => Int.le_trans (by decide) (TablePlaced.positive hrest e he)
    have hheld : ∀ other, 0 ≤ weightOf (· == other) row.residents := fun other =>
      weightOf_nonneg fun e he => Int.le_trans (by decide) (hrow.residents_positive e he)
    obtain ⟨resident, hget⟩ := row.exists_get_eq_ok key hrow.length_pos
    have hwithin : Cell.Within bound ⟨key, 1⟩ resident :=
      hrow.within_of_get (fun other => by have := hbound other; have := hshare other; omega) hget
    rw [settle, hget]
    by_cases hempty : resident.isEmpty = true
    · exact ⟨_, true, if_pos hempty⟩
    by_cases hkey : resident.key = key
    · have hplus := Entry.plus_of_within (Int.le_refl 1) hwithin hroom hempty hkey
      refine ⟨row.set key ⟨key, resident.count + 1⟩ :: rows, true, ?_⟩
      simp only [bind, Except.bind, if_neg hempty, if_pos hkey, hplus]
      rfl
    · obtain ⟨rest, settled, hsettle⟩ := ih hrest fun other => by
        have := hbound other
        have := hheld other
        omega
      refine ⟨row :: rest, settled, ?_⟩
      simp only [bind, Except.bind, if_neg hempty, if_neg hkey, hsettle]
      rfl

omit [RandomSource ρ] in
theorem exists_displace (hp : TablePlaced rows) (weight : Int) :
    ∃ rows' victim, displace key weight rows = .ok (rows', victim) := by
  induction rows with
  | nil => exact ⟨[], none, rfl⟩
  | cons row rows ih =>
    obtain ⟨hrow, hrest⟩ := List.forall_mem_cons.mp hp
    obtain ⟨resident, hget⟩ := row.exists_get_eq_ok key hrow.length_pos
    rw [displace, hget]
    by_cases hcount : resident.count = weight
    · exact ⟨_, some resident, if_pos hcount⟩
    · obtain ⟨rest, victim, hdisplace⟩ := ih hrest
      refine ⟨row :: rest, victim, ?_⟩
      simp only [bind, Except.bind, if_neg hcount, hdisplace]
      rfl

/-- An insert has a value if all that is held of each key can be counted
together with the new unit. -/
theorem exists_insert {bound : Key → Int} (hp : TablePlaced t.rows)
    (hroom : ∀ key, bound key ≤ Count.greatest)
    (hbound : ∀ other, weightOf (· == other) (tableResidents t.rows) +
      weightOf (· == other) [⟨key, 1⟩] ≤ bound other) :
    ∃ t' out, t.insert key = .ok (t', out) := by
  obtain ⟨rows, source, recirculated, dropped⟩ := t
  obtain ⟨rows', settled, hsettle⟩ := exists_settle hp hroom hbound
  rw [insert, Checked.bind_of_eq_ok hsettle]
  cases settled with
  | true => exact ⟨_, none, rfl⟩
  | false =>
    obtain rfl := eq_of_settle_eq_false hsettle
    have hget : ∀ row ∈ rows', ∃ cell, row.get key = .ok cell := fun row hr =>
      row.exists_get_eq_ok key (hp row hr).length_pos
    obtain ⟨path, hpath⟩ := Checked.exists_mapM hget
    have hlightest : lightest key rows' = .ok (Count.leastOf (path.map (·.count))) := by
      rw [lightest, hpath]
      rfl
    obtain ⟨rows, victim, hdisplace⟩ := exists_displace hp (Count.leastOf (path.map (·.count)))
    dsimp only
    rw [if_neg Bool.false_ne_true, Checked.bind_of_eq_ok hlightest]
    split
    · rw [Checked.bind_of_eq_ok hdisplace]
      exact ⟨_, victim, rfl⟩
    · exact ⟨_, _, rfl⟩

/-! ## Runs -/

/-- Six rows in order. -/
structure Tidy (t : Precision ρ) : Prop where
  length_rows : t.rows.length = rowCount
  unique : Unique t.rows

omit [RandomSource ρ] in
theorem tidy_of_ofBudget {source : UInt64 → ρ} {memory : Nat} {seed : UInt64}
    (built : ofBudget source memory seed = .ok t) :
    t.Tidy ∧ t.recirculated = 0 ∧ t.dropped = 0 := by
  obtain ⟨⟨hp, -⟩, -⟩ := fresh_of_ofBudget built
  obtain ⟨length, -, -, -, rfl⟩ := exists_length_of_budget built
  refine ⟨⟨(length_table _ _ _).trans rfl, hp, ?_⟩, rfl, rfl⟩
  -- no row has a resident that would have to be shielded
  refine List.pairwise_of_forall_mem_list fun row _ later hl e he => ?_
  obtain ⟨hash, rfl⟩ := mem_table hl
  rw [Row.residents_fill rfl] at he
  cases he

omit [RandomSource ρ] in
/-- A key that gets a bucket leaves the rows in order and empties no cell. -/
theorem Tidy.set (ht : t.Tidy) {old : Entry} (new : Entry) (hrows : t.rows = before ++ row :: after)
    (hmiss : Misses key before) (hlater : ∀ later ∈ after, ∀ e ∈ later.residents, e.key ≠ key)
    (hget : row.get key = .ok old) (hkey : new.key = key) (hcount : 1 ≤ new.count)
    (hrows' : t'.rows = before ++ row.set key new :: after) :
    t'.Tidy ∧ TableEvolves Entry.Keeps t.rows t'.rows := by
  obtain ⟨hlength, hunique⟩ := ht
  rw [hrows] at hlength hunique ⊢
  refine ⟨⟨?_, ?_⟩, ?_⟩
  · rw [hrows', ← hlength]
    simp
  · rw [hrows']
    exact hunique.set hmiss hlater hget hkey hcount
  · rw [hrows']
    exact .of_row .refl before after (.set .refl hget (Entry.keeps_of_pos hcount))

/-- A step keeps the rows in order and empties no cell. -/
theorem Step.tidy (h : Step t key t' out) (ht : t.Tidy) :
    t'.Tidy ∧ TableEvolves Entry.Keeps t.rows t'.rows := by
  cases h with
  | @settled before after row old new hrows hmiss hget hown hkey hcount =>
    have hlater := (hrows ▸ ht.unique).key_ne_of_own hget hown
    exact ht.set new hrows hmiss hlater hget hkey hcount rfl
  | displaced hmiss hleast hdraw hdisplaces =>
    obtain ⟨before, row, after, hrows, hget, -, -, rfl⟩ := hdisplaces
    have hbefore : Misses key before := fun row hr => hmiss row (hrows ▸ List.mem_append_left _ hr)
    have hlater : ∀ later ∈ after, ∀ e ∈ later.residents, e.key ≠ key := fun later hl =>
      key_ne_of_misses ht.unique.placed hmiss later
        (hrows ▸ List.mem_append_right _ (List.mem_cons_of_mem _ hl))
    exact ht.set ⟨key, 1⟩ hrows hbefore hlater hget rfl (Int.le_refl 1) rfl
  | returned hmiss hleast hdraw => exact ⟨⟨ht.length_rows, ht.unique⟩, .refl .refl _⟩

theorem Tidy.step (ht : t.Tidy) (h : t.insert key = .ok (t', out)) : Step t key t' out :=
  step_of_insert ht.unique.placed (List.ne_nil_of_length_pos (by rw [ht.length_rows]; decide)) h

/-- Whether an insert of a key handed its unit back. -/
def handedBack (key : Key) (out : Option Entry) : Bool := decide (out = some ⟨key, 1⟩)

/-- A step counts what it carries out, and apart from that what it hands back. -/
theorem Step.counters (h : Step t key t' out) :
    t'.recirculated + t'.dropped = t.recirculated + t.dropped + (if out.isSome then 1 else 0) ∧
      t'.dropped = t.dropped + if handedBack key out then 1 else 0 := by
  cases h with
  | settled => exact ⟨rfl, rfl⟩
  | displaced hmiss _ _ hrows =>
    have hother : handedBack key (some _) = false :=
      decide_eq_false fun hout => hrows.key_ne hmiss (congrArg Record.key (Option.some.inj hout))
    simp only [hother]
    exact ⟨Nat.add_right_comm _ _ _, rfl⟩
  | returned =>
    have hsame : handedBack key (some ⟨key, 1⟩) = true := decide_eq_true rfl
    simp only [hsame]
    exact ⟨rfl, rfl⟩

/-- So does a run. -/
theorem counters_insertAll {keys : List Key} {outs : List (Option Entry)} (ht : t.Tidy)
    (run : Tracker.insertAll t keys = .ok (t', outs)) :
    t'.recirculated + t'.dropped = t.recirculated + t.dropped + outs.countP Option.isSome ∧
      t'.dropped = t.dropped + (List.zipWith handedBack keys outs).count true := by
  induction keys generalizing t outs with
  | nil =>
    cases run
    exact ⟨rfl, rfl⟩
  | cons key keys ih =>
    obtain ⟨t₁, out, outs₁, hi, hrun, rfl⟩ := Tracker.insertAll_cons_eq_ok.mp run
    have hstep := ht.step hi
    obtain ⟨hsum, hdropped⟩ := hstep.counters
    obtain ⟨hsum', hdropped'⟩ := ih (hstep.tidy ht).1 hrun
    rw [List.countP_cons, List.zipWith_cons_cons, List.count_cons]
    simp only [beq_true]
    omega

/--
**In every run each key is resident in at most one cell, no cell is ever emptied, every insert is an
admission, and the two counters count what was carried out and what of it was handed back.**  Runs
of as many keys as can be counted have a value, whatever the source shows.
-/
theorem unique_and_admissions (source : UInt64 → ρ) (memory : Nat) (seed : UInt64)
    (start : Precision ρ) (built : ofBudget source memory seed = .ok start) :
    (∀ keys : List Key, (keys.length : Int) ≤ Count.greatest →
      ∃ t outs, Tracker.insertAll start keys = .ok (t, outs)) ∧
    ∀ (past : List Key) (t : Precision ρ) (gone : List (Option Entry)),
    Tracker.insertAll start past = .ok (t, gone) →
      ((tableResidents t.rows).map (·.key)).Nodup ∧
      (∀ (keys : List Key) (t' : Precision ρ) (outs : List (Option Entry)),
        Tracker.insertAll t keys = .ok (t', outs) → TableEvolves Entry.Keeps t.rows t'.rows) ∧
      (∀ key t' out, Tracker.insert t key = .ok (t', out) → Admission t key t' out) ∧
      t.recirculated + t.dropped = gone.countP Option.isSome ∧
      t.dropped = (List.zipWith handedBack past gone).count true := by
  obtain ⟨hsound, hempty⟩ := fresh_of_ofBudget built
  obtain ⟨htidy, hrecirculated, hdropped⟩ := tidy_of_ofBudget built
  refine ⟨fun keys hlength => ?_, fun past t gone hpast => ?_⟩
  · exact conserves.exists_insertAll_of_empty
      (fun t key ht hbound => exists_insert ht.1 (fun _ => Int.le_refl _) hbound)
        hsound hempty hlength
  · have ht : t.Tidy := Tracker.inv_insertAll (fun ht hi => ((ht.step hi).tidy ht).1) htidy hpast
    obtain ⟨hsum, hhanded⟩ := counters_insertAll htidy hpast
    rw [hrecirculated, hdropped, Nat.zero_add] at hsum
    rw [hdropped, Nat.zero_add] at hhanded
    refine ⟨ht.unique.nodup_keys, fun keys t' outs hrun => ?_,
      fun key t' out hi => ?_, by simpa using hsum, hhanded⟩
    · refine Tracker.evolves_insertAll (fun t t' => TableEvolves Entry.Keeps t.rows t'.rows)
        (fun t => .refl .refl t.rows) ?_ (fun ht hi => (ht.step hi).tidy ht) ht hrun
      intro t t' t'' h h'
      exact h.trans .trans h'
    · exact (ht.step hi).admission ht.unique.placed ht.length_rows

/-- Six rows of one cell: two keys are handed back and one displaces a resident of two units, which
is then the lightest itself. -/
theorem unique_and_admissions_one_cell :
    ∃ start t t' : Precision Xoshiro, ∃ gone, ofBudget Xoshiro.ofSeed 48 5 = .ok start ∧
      (([1, 1, 2, 2, 3, 3, 4, 4, 5, 5, 6, 6, 7, 8, 9] : List Key).length : Int) ≤ Count.greatest ∧
      Tracker.insertAll start [1, 1, 2, 2, 3, 3, 4, 4, 5, 5, 6, 6, 7, 8, 9] = .ok (t, gone) ∧
      gone.reduceOption = [⟨7, 1⟩, ⟨8, 1⟩, ⟨1, 2⟩] ∧ ((tableResidents t.rows).map (·.key)).Nodup ∧
      t.recirculated + t.dropped = gone.countP Option.isSome ∧
      t.dropped = (List.zipWith handedBack [1, 1, 2, 2, 3, 3, 4, 4, 5, 5, 6, 6, 7, 8, 9] gone).count
        true ∧
      Tracker.insert t 10 = .ok (t', some ⟨9, 1⟩) ∧ Admission t 10 t' (some ⟨9, 1⟩) ∧
      Tracker.insertAll t [10] = .ok (t', [some ⟨9, 1⟩]) ∧
      TableEvolves Entry.Keeps t.rows t'.rows := by
  have hrun : (do
      let start ← ofBudget Xoshiro.ofSeed 48 5
      let result ← Outcome.ofChecked
        (Tracker.insertAll start [1, 1, 2, 2, 3, 3, 4, 4, 5, 5, 6, 6, 7, 8, 9])
      let last ← Outcome.ofChecked (Tracker.insert result.1 10)
      return (result.2.reduceOption, last.2) : Outcome (List Entry × Option Entry))
        = .ok ([⟨7, 1⟩, ⟨8, 1⟩, ⟨1, 2⟩], some ⟨9, 1⟩) := by decide +kernel
  obtain ⟨start, built, hrun⟩ := Checked.bind_eq_ok.mp hrun
  obtain ⟨⟨t, gone⟩, hpast, hrun⟩ := Checked.bind_eq_ok.mp hrun
  obtain ⟨⟨t', out⟩, hinsert, hout⟩ := Checked.bind_eq_ok.mp hrun
  obtain ⟨hgone, hout⟩ := Prod.mk.inj (Checked.pure_eq_ok.mp hout)
  obtain rfl : out = some ⟨9, 1⟩ := hout
  have hpast := Outcome.ofChecked_eq_ok.mp hpast
  have hinsert := Outcome.ofChecked_eq_ok.mp hinsert
  have hlast : Tracker.insertAll t [10] = .ok (t', [some ⟨9, 1⟩]) :=
    Tracker.insertAll_cons_eq_ok.mpr ⟨t', _, [], hinsert, rfl, rfl⟩
  obtain ⟨hnodup, hkeeps, hadmission, hsum, hdropped⟩ :=
    (unique_and_admissions Xoshiro.ofSeed 48 5 start built).2 _ t gone hpast
  exact ⟨start, t, t', gone, built, by decide, hpast, hgone, hnodup, hsum, hdropped, hinsert,
    hadmission 10 t' _ hinsert, hlast, hkeeps [10] t' _ hlast⟩

end Precision

end HeavyHitters
