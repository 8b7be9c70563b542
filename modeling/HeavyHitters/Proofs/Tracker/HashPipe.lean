import HeavyHitters.Proofs.Tracker.Evolution
import HeavyHitters.Proofs.Tracker.Room

/-!
# HashPipe forwards the lightest unit

A new key always moves into its bucket of the first row.  What it displaces is carried
through the other rows, and in each of them the heavier of resident and carried unit stays.
So a unit that comes out at the end is the lightest of those on the way, while the residents
of the other rows only get heavier.

* `HashPipe.visited` are the contents of the buckets that a carried unit comes by; which they are
  depends on what is carried from row to row.
* `HashPipe.visited_of_cascade` says that a unit carried out is the lightest of them.
* `HashPipe.Arrival` is what an insert does to the key and the unit that is carried out
  (`HashPipe.arrival_of_insert`), `HashPipe.Evolves` what becomes of the cells
  (`HashPipe.evolves_of_insertRows`).
* `HashPipe.arrivals_and_evolution` is both for all runs of a built HashPipe.
-/

namespace HeavyHitters

/-- Where the heavier unit stays, the lighter one is given on. -/
theorem Entry.given_of_keepHeavier {resident unit cell given : Entry}
    (h : resident.keepHeavier unit = .ok (cell, some given)) :
    given.count = min unit.count resident.count ∧ (given = unit ∨ given = resident) := by
  unfold keepHeavier at h
  split at h
  · simp at h
  · split at h
    · obtain ⟨count, -, h⟩ := Checked.bind_eq_ok.mp h
      simp [pure, Except.pure] at h
    · split at h
      · next hlt =>
        obtain ⟨-, rfl⟩ : unit = cell ∧ resident = given := by simpa using h
        exact ⟨by omega, Or.inr rfl⟩
      · next hle =>
        obtain ⟨-, rfl⟩ : resident = cell ∧ unit = given := by simpa using h
        exact ⟨by omega, Or.inl rfl⟩

namespace HashPipe

variable {t t' : HashPipe} {key : Key} {out : Option Entry} {rows rows' : List (Row Entry)}

/-! ## The way of a carried unit -/

/-- The contents of the buckets that a carried unit comes by, before it changes them.  The first one
that takes in what is carried is the last. -/
def visited : List (Row Entry) → Entry → Checked (List Entry)
  | [], _ => .ok []
  | row :: rows, unit => do
    let resident ← row.get unit.key
    match (← resident.keepHeavier unit).2 with
    | none => return [resident]
    | some given => return resident :: (← visited rows given)

/-- **A unit that is carried out is the lightest on its way.**  The induction is on the rows: what a
row gives on is the lighter of the two that met there. -/
theorem visited_of_cascade {unit last : Entry}
    (h : cascade (fun row unit => row.modify unit.key (·.keepHeavier unit)) rows unit
      = .ok (rows', some last)) :
    ∃ cells, visited rows unit = .ok cells ∧ cells.length = rows.length ∧ last ∈ unit :: cells ∧
      last.count = Count.leastOf (unit.count :: cells.map (·.count)) := by
  induction rows generalizing rows' unit with
  | nil =>
    obtain ⟨-, rfl⟩ : [] = rows' ∧ unit = last := by simpa [cascade] using h
    exact ⟨[], rfl, rfl, List.mem_cons_self, rfl⟩
  | cons row rows ih =>
    rw [cascade] at h
    obtain ⟨⟨row', given⟩, hmodify, h⟩ := Checked.bind_eq_ok.mp h
    obtain ⟨resident, new, hget, hkeep, rfl⟩ := Row.modify_eq_ok_iff.mp hmodify
    cases given with
    | none => simp [pure, Except.pure] at h
    | some given =>
      obtain ⟨⟨rest, out⟩, hcascade, h⟩ := Checked.bind_eq_ok.mp h
      obtain ⟨rfl, rfl⟩ := Prod.mk.inj (Checked.pure_eq_ok.mp h)
      obtain ⟨cells, hvisited, hlength, hmem, hleast⟩ := ih hcascade
      obtain ⟨hcount, hgiven⟩ := Entry.given_of_keepHeavier hkeep
      refine ⟨resident :: cells, ?_, congrArg (· + 1) hlength, ?_, ?_⟩
      · rw [visited, hget]
        simp only [bind, Except.bind, hkeep, hvisited]
        rfl
      · rcases List.mem_cons.mp hmem with rfl | hmem
        · rcases hgiven with rfl | rfl <;> simp
        · exact List.mem_cons_of_mem _ (List.mem_cons_of_mem _ hmem)
      · rw [hleast, hcount]
        rfl

/-! ## Inserts -/

/-- What an insert of a key does to a HashPipe. -/
structure Arrival (t t' : HashPipe) (key : Key) (out : Option Entry) : Prop where
  /-- Afterwards the key is resident in its bucket of the first row. -/
  resident : ∃ first cell, t'.rows.head? = some first ∧ first.get key = .ok cell ∧
    cell.key = key ∧ 1 ≤ cell.count
  /-- A unit that is carried out is the lightest of the resident that made room for the key in the
  first row and of those in the five other buckets on the way. -/
  lightest : ∀ unit ∈ out, ∃ first displaced cells, t.rows.head? = some first ∧
    first.get key = .ok displaced ∧
    displaced.key ≠ key ∧ 1 ≤ displaced.count ∧
    visited t.rows.tail displaced = .ok cells ∧ cells.length = 5 ∧
    unit ∈ displaced :: cells ∧ unit.count = Count.leastOf (displaced.count :: cells.map (·.count))

/-- The first row holds the key afterwards, and gives on a resident of another key. -/
theorem takeIn_eq_ok {old new : Entry} {given : Option Entry}
    (hold : ∀ e ∈ Cell.resident old, 1 ≤ e.count) (h : takeIn key old = .ok (new, given)) :
    new.key = key ∧ 1 ≤ new.count ∧ ∀ unit ∈ given, unit = old ∧ old.key ≠ key ∧ 1 ≤ old.count := by
  unfold takeIn at h
  split at h
  · next hown =>
    obtain ⟨count, hc, h⟩ := Checked.bind_eq_ok.mp h
    obtain ⟨rfl, rfl⟩ := Prod.mk.inj (Checked.pure_eq_ok.mp h)
    obtain ⟨-, rfl⟩ := Count.plus_eq_ok_iff.mp hc
    have hempty : ¬old.isEmpty = true := by
      intro he
      simp [he] at hown
    have := hold old (if_neg hempty)
    refine ⟨rfl, ?_, by simp⟩
    show 1 ≤ old.count + 1
    omega
  · next hother =>
    obtain ⟨rfl, rfl⟩ : ⟨key, 1⟩ = new ∧ old.carried = given := by simpa using h
    refine ⟨rfl, Int.le_refl 1, fun unit hunit => ?_⟩
    obtain ⟨hpos, hunit⟩ := Record.carried_eq_some_iff.mp hunit
    have hempty : old.isEmpty = false := Bool.eq_false_iff.mpr (mt Record.isEmpty_iff.mp (by omega))
    exact ⟨hunit, fun hkey => hother (by simp [hempty, hkey]), hpos⟩

/-- **An insert is an arrival.** -/
theorem arrival_of_insert (hp : TablePlaced t.rows) (hrows : t.rows.length = rowCount)
    (h : t.insert key = .ok (t', out)) : Arrival t t' key out := by
  obtain ⟨⟨rows', out'⟩, hinsert, h⟩ := Checked.bind_eq_ok.mp h
  obtain ⟨rfl, rfl⟩ := Prod.mk.inj (Checked.pure_eq_ok.mp h)
  obtain ⟨rows⟩ := t
  cases rows with
  | nil => cases hrows
  | cons first rest =>
    unfold insertRows at hinsert
    obtain ⟨⟨first', displaced⟩, hmodify, hinsert⟩ := Checked.bind_eq_ok.mp hinsert
    obtain ⟨old, new, hget, htake, rfl⟩ := Row.modify_eq_ok_iff.mp hmodify
    have hfirst : first.Placed := hp first List.mem_cons_self
    obtain ⟨hkey, hcount, hgiven⟩ := takeIn_eq_ok
      (fun e he => hfirst.positive _ e (Row.residentAt_of_get hget ▸ he)) htake
    have hheld : (first.set key new).get key = .ok new := by
      rw [Row.get_set hfirst.length_pos, if_pos rfl]
    cases displaced with
    | none =>
      obtain ⟨rfl, rfl⟩ := Prod.mk.inj (Checked.pure_eq_ok.mp hinsert)
      exact ⟨⟨_, new, rfl, hheld, hkey, hcount⟩, by simp⟩
    | some unit =>
      obtain ⟨⟨rest', out'⟩, hcascade, hinsert⟩ := Checked.bind_eq_ok.mp hinsert
      obtain ⟨rfl, rfl⟩ := Prod.mk.inj (Checked.pure_eq_ok.mp hinsert)
      refine ⟨⟨_, new, rfl, hheld, hkey, hcount⟩, fun last hlast => ?_⟩
      obtain rfl := Option.mem_def.mp hlast
      obtain ⟨rfl, hother, hpos⟩ := hgiven unit rfl
      obtain ⟨cells, hvisited, hlength, hmem, hleast⟩ := visited_of_cascade hcascade
      exact ⟨first, unit, cells, rfl, hget, hother, hpos, hvisited,
        hlength.trans (Nat.succ_inj.mp hrows), hmem, hleast⟩

/-- What becomes of the cells from one state to a later one: none is emptied in any row, and in the
rows after the first no count decreases. -/
structure Evolves (rows rows' : List (Row Entry)) : Prop where
  keeps : TableEvolves Entry.Keeps rows rows'
  grows : TableEvolves Entry.Grows rows.tail rows'.tail

theorem Evolves.refl (rows : List (Row Entry)) : Evolves rows rows := ⟨.refl .refl _, .refl .refl _⟩

theorem Evolves.trans {rows'' : List (Row Entry)} (h : Evolves rows rows')
    (h' : Evolves rows' rows'') : Evolves rows rows'' :=
  ⟨h.keeps.trans .trans h'.keeps, h.grows.trans .trans h'.grows⟩

theorem evolves_of_insertRows (hp : TablePlaced rows) (h : insertRows rows key = .ok (rows', out)) :
    Evolves rows rows' := by
  cases rows with
  | nil =>
    obtain ⟨rfl, -⟩ : [] = rows' ∧ some ⟨key, 1⟩ = out := by simpa [insertRows] using h
    exact ⟨.nil, .nil⟩
  | cons first rest =>
    unfold insertRows at h
    obtain ⟨⟨first', displaced⟩, hmodify, h⟩ := Checked.bind_eq_ok.mp h
    obtain ⟨old, new, hget, htake, rfl⟩ := Row.modify_eq_ok_iff.mp hmodify
    have hfirst : first.Placed := hp first List.mem_cons_self
    have hrest : TablePlaced rest := fun row hr => hp row (List.mem_cons_of_mem first hr)
    have hold : ∀ e ∈ Cell.resident old, 1 ≤ e.count :=
      fun e he => hfirst.positive _ e (Row.residentAt_of_get hget ▸ he)
    have hkeeps : Row.Evolves Entry.Keeps first (first.set key new) :=
      .set Entry.Keeps.refl hget (Entry.keeps_of_exchange (exchange_of_takeIn hold htake))
    cases displaced with
    | none =>
      obtain ⟨rfl, -⟩ := Prod.mk.inj (Checked.pure_eq_ok.mp h)
      exact ⟨.cons hkeeps (TableEvolves.refl Entry.Keeps.refl rest),
        TableEvolves.refl Entry.Grows.refl rest⟩
    | some unit =>
      obtain ⟨⟨rest', out'⟩, hcascade, h⟩ := Checked.bind_eq_ok.mp h
      obtain ⟨rfl, -⟩ := Prod.mk.inj (Checked.pure_eq_ok.mp h)
      obtain ⟨-, -, hgiven⟩ := takeIn_eq_ok hold htake
      have hunit : 1 ≤ unit.count := by
        obtain ⟨rfl, -, hpos⟩ := hgiven unit rfl
        exact hpos
      have hevolves : TableEvolves (fun a b => Entry.Keeps a b ∧ Entry.Grows a b) rest rest' := by
        refine cascade_forall₂ (.refl fun a => ⟨.refl a, .refl a⟩) ?_ hrest hunit hcascade
        intro row row' unit given hrow hunit hmodify
        obtain ⟨old, new, hget, hkeep, rfl⟩ := Row.modify_eq_ok_iff.mp hmodify
        have hex := Entry.exchange_of_keepHeavier hunit
          (fun e he => hrow.positive _ e (Row.residentAt_of_get hget ▸ he)) hkeep
        exact ⟨.set (fun a => ⟨.refl a, .refl a⟩) hget
          ⟨Entry.keeps_of_exchange hex, Entry.grows_of_keepHeavier (by omega) hkeep⟩,
          (hex.positive (fun e he => hrow.positive _ e (Row.residentAt_of_get hget ▸ he)) hunit).2⟩
      exact ⟨.cons hkeeps (hevolves.imp fun _ _ h => h.1), hevolves.imp fun _ _ h => h.2⟩

/-! ## Room -/

theorem exists_takeIn {bound : Key → Int} {resident : Entry}
    (hwithin : Cell.Within bound ⟨key, 1⟩ resident) (hroom : ∀ key, bound key ≤ Count.greatest) :
    ∃ cell given, takeIn key resident = .ok (cell, given) := by
  unfold takeIn
  split
  · next hown =>
    have hempty : ¬resident.isEmpty = true := by
      intro he
      simp [he] at hown
    have hkey : resident.key = key := by
      rw [Bool.and_eq_true] at hown
      exact eq_of_beq hown.2
    have hunit : 1 ≤ (⟨key, 1⟩ : Entry).count := Int.le_refl 1
    rw [Entry.plus_of_within hunit hwithin hroom hempty hkey]
    exact ⟨_, none, rfl⟩
  · exact ⟨_, _, rfl⟩

theorem exists_insertRows {bound : Key → Int} (hp : TablePlaced rows)
    (hroom : ∀ key, bound key ≤ Count.greatest)
    (hbound : ∀ other, weightOf (· == other) (tableResidents rows) +
      weightOf (· == other) [⟨key, 1⟩] ≤ bound other) :
    ∃ rows' out, insertRows rows key = .ok (rows', out) := by
  cases rows with
  | nil => exact ⟨[], some ⟨key, 1⟩, rfl⟩
  | cons first rest =>
    obtain ⟨hfirst, hrest⟩ := List.forall_mem_cons.mp hp
    have hunit : 1 ≤ (⟨key, 1⟩ : Entry).count := Int.le_refl 1
    have hshare : ∀ other, 0 ≤ weightOf (· == other) (rest.flatMap Row.residents) := fun other =>
      weightOf_nonneg fun e he => Int.le_trans (by decide) (TablePlaced.positive hrest e he)
    change ∀ other, weightOf _ (first.residents ++ rest.flatMap Row.residents) + _ ≤ _ at hbound
    simp only [weightOf_append] at hbound
    obtain ⟨first', displaced, hmodify, hfirst', htransfer⟩ := hfirst.exists_exchange hunit
      (fun other => by have := hbound other; have := hshare other; omega)
      (fun _ hwithin => exists_takeIn hwithin hroom) fun _ _ _ hold hn => exchange_of_takeIn hold hn
    change first.modify key (takeIn key) = _ at hmodify
    rw [insertRows, hmodify]
    cases displaced with
    | none => exact ⟨first' :: rest, none, rfl⟩
    | some unit =>
      obtain ⟨rest', out, hcascade, -⟩ := exists_cascade (fun _ hrow => hrow.residents_positive)
        (fun _ _ hrow hunit hbound => hrow.exists_keepHeavier hroom hunit hbound) hrest
        (htransfer.positive unit rfl) fun other => by
          have := htransfer.passed_le hfirst'.residents_positive (· == other)
          have := hbound other
          omega
      refine ⟨first' :: rest', out, ?_⟩
      simp only [bind, Except.bind, hcascade]
      rfl

/-- An insert has a value if all that is held of each key can be counted
together with the new unit. -/
theorem exists_insert {bound : Key → Int} (hp : TablePlaced t.rows)
    (hroom : ∀ key, bound key ≤ Count.greatest)
    (hbound : ∀ other, weightOf (· == other) (tableResidents t.rows) +
      weightOf (· == other) [⟨key, 1⟩] ≤ bound other) :
    ∃ t' out, t.insert key = .ok (t', out) := by
  obtain ⟨rows', out, hinsert⟩ := exists_insertRows hp hroom hbound
  exact ⟨⟨rows'⟩, out, by rw [insert, hinsert]; rfl⟩

/-! ## Runs -/

/-- Six placed rows. -/
def Sound (t : HashPipe) : Prop := TablePlaced t.rows ∧ t.rows.length = rowCount

theorem Sound.insert (h : t.Sound) (hi : t.insert key = .ok (t', out)) :
    t'.Sound ∧ Evolves t.rows t'.rows := by
  obtain ⟨hp, hlength⟩ := h
  obtain ⟨⟨rows', out'⟩, hinsert, hi⟩ := Checked.bind_eq_ok.mp hi
  obtain ⟨rfl, rfl⟩ := Prod.mk.inj (Checked.pure_eq_ok.mp hi)
  have hevolves := evolves_of_insertRows hp hinsert
  exact ⟨⟨(insertRows_transfer hp hinsert).1, hevolves.keeps.length_eq.symm.trans hlength⟩,
    hevolves⟩

theorem sound_of_ofBudget {memory : Nat} {seed : UInt64} (built : ofBudget memory seed = .ok t) :
    t.Sound := by
  refine ⟨(fresh_of_ofBudget built).1, ?_⟩
  obtain ⟨length, -, -, -, rfl⟩ := exists_length_of_budget built
  exact (length_table _ _ _).trans (SeedStream.length_hashes _ _)

/--
**Every insert into a built HashPipe is an arrival, no cell is ever emptied, and in the rows after
the first no count ever decreases.**  Runs of as many keys as can be counted have a value; what is
said of an insert and of the cells needs no such bound.
-/
theorem arrivals_and_evolution (memory : Nat) (seed : UInt64) (start : HashPipe)
    (built : ofBudget memory seed = .ok start) :
    (∀ keys : List Key, (keys.length : Int) ≤ Count.greatest →
      ∃ t outs, Tracker.insertAll start keys = .ok (t, outs)) ∧
    ∀ (past : List Key) (t : HashPipe) (gone : List (Option Entry)),
    Tracker.insertAll start past = .ok (t, gone) →
      (∀ key t' out, Tracker.insert t key = .ok (t', out) → Arrival t t' key out) ∧
      ∀ (keys : List Key) (t' : HashPipe) (outs : List (Option Entry)),
      Tracker.insertAll t keys = .ok (t', outs) →
        Evolves t.rows t'.rows := by
  obtain ⟨hplaced, hempty⟩ := fresh_of_ofBudget built
  refine ⟨fun keys hlength => ?_, fun past t gone hpast => ?_⟩
  · exact conserves.exists_insertAll_of_empty
      (fun t key hp hbound => exists_insert hp (fun _ => Int.le_refl _) hbound)
      hplaced hempty hlength
  · have hsound : t.Sound :=
      Tracker.inv_insertAll (fun ht hi => (ht.insert hi).1) (sound_of_ofBudget built) hpast
    refine ⟨fun key t' out hi => arrival_of_insert hsound.1 hsound.2 hi,
      fun keys t' outs hrun => ?_⟩
    exact Tracker.evolves_insertAll (fun t t' => Evolves t.rows t'.rows)
      (fun t => .refl t.rows) .trans Sound.insert
      hsound hrun

/-- Six rows of one cell: the key 6 displaces the key 5, which meets nothing
lighter and is carried out. -/
theorem arrivals_and_evolution_one_cell :
    ∃ start t t' : HashPipe, ∃ gone, ofBudget 48 1 = .ok start ∧
      (([7, 7, 1, 2, 1, 1, 3, 4, 5] : List Key).length : Int) ≤ Count.greatest ∧
      Tracker.insertAll start [7, 7, 1, 2, 1, 1, 3, 4, 5] = .ok (t, gone) ∧
      Tracker.insert t 6 = .ok (t', some ⟨5, 1⟩) ∧ Arrival t t' 6 (some ⟨5, 1⟩) ∧
      Tracker.insertAll t [6] = .ok (t', [some ⟨5, 1⟩]) ∧ Evolves t.rows t'.rows := by
  have hrun : (do
      let start ← ofBudget 48 1
      let result ← Outcome.ofChecked (Tracker.insertAll start [7, 7, 1, 2, 1, 1, 3, 4, 5])
      let last ← Outcome.ofChecked (Tracker.insert result.1 6)
      return last.2 : Outcome (Option Entry)) = .ok (some ⟨5, 1⟩) := by decide +kernel
  obtain ⟨start, built, hrun⟩ := Checked.bind_eq_ok.mp hrun
  obtain ⟨⟨t, gone⟩, hpast, hrun⟩ := Checked.bind_eq_ok.mp hrun
  obtain ⟨⟨t', out⟩, hinsert, hout⟩ := Checked.bind_eq_ok.mp hrun
  obtain rfl : out = some ⟨5, 1⟩ := Checked.pure_eq_ok.mp hout
  have hpast := Outcome.ofChecked_eq_ok.mp hpast
  have hinsert := Outcome.ofChecked_eq_ok.mp hinsert
  have hlast : Tracker.insertAll t [6] = .ok (t', [some ⟨5, 1⟩]) :=
    Tracker.insertAll_cons_eq_ok.mpr ⟨t', _, [], hinsert, rfl, rfl⟩
  obtain ⟨harrival, hevolves⟩ := (arrivals_and_evolution 48 1 start built).2 _ t gone hpast
  exact ⟨start, t, t', gone,
    built, by decide, hpast, hinsert, harrival 6 t' _ hinsert, hlast, hevolves [6] t' _ hlast⟩

end HashPipe

end HeavyHitters
