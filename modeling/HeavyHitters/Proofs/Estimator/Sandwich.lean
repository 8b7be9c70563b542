import HeavyHitters.Proofs.Estimator.OneSided

/-!
# Conservative update between the truth and count-min

A sketch with conservative update and a count-min sketch that are built alike and given the same
units are run in lockstep.  Each counter of the first stays between zero and the counter of the
second in the same cell, so the first cannot overflow where the second does not, and its answers lie
between the weight of the key and the other's answer.

An insert moves the answer for its own key by exactly its weight: all counters of the key end at no
less than the least raised one, and none is raised by more than the weight.

* `Row.Within` is the relation of two rows in lockstep, and
  `Conservative.exists_raising_within` is the step.
* `Conservative.Raising.leastOf_bounds` and `Conservative.Raising.add_le_leastOf` say how an insert
  moves the least counter of a key.
* `Conservative.Sandwiched` is what the two sketches are to each other and to the units, and
  `Conservative.sandwiched_of_insertAll` says that every run leads to it.
-/

namespace HeavyHitters

/-! ## Rows in lockstep -/

namespace Row

variable {low low' high high' : Row Int} {key : Key} {weight : Int}

/-- After a counter was set, a position has the new one or what it had before. -/
theorem getElem?_set_cases {row : Row Int} {value c : Int} {i : Nat}
    (h : (row.set key value).cells[i]? = some c) :
    i = row.position key ∧ c = value ∨ i ≠ row.position key ∧ row.cells[i]? = some c := by
  unfold Row.set at h
  rw [Array.getElem?_setIfInBounds] at h
  by_cases hi : row.position key = i
  · rw [if_pos hi] at h
    split at h
    · exact .inl ⟨hi.symm, (Option.some.inj h).symm⟩
    · cases h
  · rw [if_neg hi] at h
    exact .inr ⟨Ne.symm hi, h⟩

/-- The counters of a row lie between zero and those of another row with the same cells. -/
structure Within (low high : Row Int) : Prop where
  hash_eq : low.hash = high.hash
  length_eq : low.length = high.length
  length_pos : 0 < low.length
  nonneg : ∀ (i : Nat) (c : Int), low.cells[i]? = some c → 0 ≤ c
  le : ∀ (i : Nat) (c d : Int), low.cells[i]? = some c → high.cells[i]? = some d → c ≤ d

namespace Within

theorem position_eq (h : Within low high) (key : Key) : low.position key = high.position key := by
  rw [position, position, h.hash_eq, h.length_eq]

theorem get_nonneg (h : Within low high) {c : Int} (hc : low.get key = .ok c) : 0 ≤ c :=
  h.nonneg _ _ (get_eq_ok_iff.mp hc)

theorem get_le (h : Within low high) {c d : Int} (hc : low.get key = .ok c)
    (hd : high.get key = .ok d) : c ≤ d := by
  have hd := get_eq_ok_iff.mp hd
  rw [← h.position_eq key] at hd
  exact h.le _ _ _ (get_eq_ok_iff.mp hc) hd

/-- Rows stay in lockstep if the counters of one key are changed in both. -/
theorem set (h : Within low high) {c d : Int} (hc : 0 ≤ c) (hcd : c ≤ d) :
    Within (low.set key c) (high.set key d) where
  hash_eq := h.hash_eq
  length_eq := by rw [length_set, length_set, h.length_eq]
  length_pos := by
    rw [length_set]
    exact h.length_pos
  nonneg i a ha := by
    rcases getElem?_set_cases ha with ⟨-, rfl⟩ | ⟨-, ha⟩
    · exact hc
    · exact h.nonneg i a ha
  le i a b ha hb := by
    -- the key has the same position in both rows, so both counters were changed or neither
    have hposition := h.position_eq key
    rcases getElem?_set_cases ha with ⟨hi, rfl⟩ | ⟨hi, ha⟩
    · rcases getElem?_set_cases hb with ⟨-, rfl⟩ | ⟨hi', -⟩
      · exact hcd
      · exact absurd (hi.trans hposition) hi'
    · rcases getElem?_set_cases hb with ⟨hi', -⟩ | ⟨-, hb⟩
      · exact absurd (hi'.trans hposition.symm) hi
      · exact h.le i a b ha hb

end Within

theorem within_fill {length : Nat} (hl : length ≠ 0) (hash : KeyHash) :
    Within (fill length 0 hash) (fill length 0 hash) where
  hash_eq := rfl
  length_eq := rfl
  length_pos := by
    rw [length_fill]
    exact Nat.pos_of_ne_zero hl
  nonneg i c hc := by
    rw [fill, Array.getElem?_replicate] at hc
    split at hc
    · cases hc
      exact Int.le_refl 0
    · cases hc
  le i c d hc hd := by
    rw [hc] at hd
    cases hd
    exact Int.le_refl c

end Row

namespace Conservative

variable {key : Key} {weight : Int}

/-- **A raise stays within a count-min insert**, and has a value where that has one. -/
theorem exists_raising_within {low high high' : List (Row Int)} (hw : 0 ≤ weight)
    (h : List.Forall₂ Row.Within low high)
    (hm : high.mapM (fun row => row.update key (Count.plus · weight)) = .ok high') (limit : Int) :
    ∃ low', Raising key weight limit low low' ∧ List.Forall₂ Row.Within low' high' := by
  have hupdates := Checked.mapM_eq_ok.mp hm
  clear hm
  induction h generalizing high' limit with
  | nil =>
    cases hupdates
    exact ⟨[], .nil, .nil⟩
  | @cons row other low high hrow _ ih =>
    cases hupdates with
    | cons hupdate hupdates =>
      obtain ⟨count, sum, hcount, hplus, rfl⟩ := Row.update_eq_ok_iff.mp hupdate
      obtain ⟨hfits, rfl⟩ := Count.plus_eq_ok_iff.mp hplus
      obtain ⟨current, hget⟩ := Row.exists_get_eq_ok row key hrow.length_pos
      have hnonneg := hrow.get_nonneg hget
      have hle := hrow.get_le hget hcount
      obtain ⟨low', hraising, hwithin⟩ := ih (min limit (current + weight)) hupdates
      -- the raised counter is no more than the other's, which fits
      have hfits' : Count.Fits (current + weight) := by
        have := hfits.2
        refine ⟨?_, by omega⟩
        unfold Count.least
        omega
      exact ⟨_, .cons hget hfits' hraising, .cons (hrow.set (by omega) (by omega)) hwithin⟩

theorem exists_insert_within {lower : Conservative} {upper upper' : CountMin} (hw : 0 ≤ weight)
    (h : List.Forall₂ Row.Within lower.rows upper.rows)
    (hi : Estimator.insert upper key weight = .ok upper') : ∃ lower',
      Estimator.insert lower key weight = .ok lower' ∧
        List.Forall₂ Row.Within lower'.rows upper'.rows := by
  obtain ⟨rows, hm, hi⟩ := Checked.bind_eq_ok.mp hi
  obtain rfl := Checked.pure_eq_ok.mp hi
  obtain ⟨low', hraising, hwithin⟩ := exists_raising_within hw h hm Count.greatest
  exact ⟨⟨low'⟩, Checked.bind_eq_ok.mpr ⟨low', (raise_eq_ok_iff hw).mpr hraising, rfl⟩, hwithin⟩

theorem exists_insertAll_within {lower : Conservative} {upper upper' : CountMin}
    {units : List Entry} (hpos : ∀ unit ∈ units, 0 ≤ unit.count)
    (h : List.Forall₂ Row.Within lower.rows upper.rows)
    (run : Estimator.insertAll upper units = .ok upper') : ∃ lower',
      Estimator.insertAll lower units = .ok lower' ∧
        List.Forall₂ Row.Within lower'.rows upper'.rows := by
  induction units generalizing lower upper with
  | nil =>
    cases run
    exact ⟨lower, rfl, h⟩
  | cons unit units ih =>
    rw [Estimator.insertAll_cons] at run
    obtain ⟨upper₁, hi, run⟩ := Checked.bind_eq_ok.mp run
    obtain ⟨lower₁, hi', h₁⟩ := exists_insert_within (hpos unit List.mem_cons_self) h hi
    obtain ⟨lower', run', h'⟩ :=
      ih (fun other ho => hpos other (List.mem_cons_of_mem unit ho)) h₁ run
    exact ⟨lower', Checked.bind_eq_ok.mpr ⟨lower₁, hi', run'⟩, h'⟩

/-! ## How an insert moves answers -/

section

variable {limit : Int} {rows rows' : List (Row Int)} {counts counts' : List Int}

theorem counts_ne_nil (hne : rows ≠ []) (hm : rows.mapM (·.get key) = .ok counts) :
    counts ≠ [] := by
  rintro rfl
  exact hne (List.eq_nil_of_length_eq_zero (Checked.length_mapM hm).symm)

/-- The least counter of any key rises by at most the weight. -/
theorem Raising.leastOf_bounds (hw : 0 ≤ weight) (h : Raising key weight limit rows rows')
    {other : Key} (hm : rows.mapM (·.get other) = .ok counts)
    (hm' : rows'.mapM (·.get other) = .ok counts') :
    Count.leastOf counts ≤ Count.leastOf counts' ∧
      Count.leastOf counts' ≤ Count.leastOf counts + weight := by
  have hbounds : List.Forall₂ (fun c c' => c ≤ c' ∧ c' ≤ c + weight) counts counts' :=
    Checked.forall₂_of_mapM (fun _ _ _ _ hraised hget hget' => hraised.get_bounds hw hget hget')
      (h.forall₂_raised hw) hm hm'
  constructor
  · exact Count.leastOf_le_leastOf (hbounds.imp fun _ _ hc => hc.1)
  · exact Count.leastOf_le_add hw (hbounds.flip.imp fun _ _ hc => hc.2)

/-- The least counter of the key itself rises by the whole weight. -/
theorem Raising.add_le_leastOf (h : Raising key weight Count.greatest rows rows') (hne : rows ≠ [])
    (hm : rows.mapM (·.get key) = .ok counts) (hm' : rows'.mapM (·.get key) = .ok counts') :
    Count.leastOf counts + weight ≤ Count.leastOf counts' := by
  have hcounts := counts_ne_nil hne hm
  have hne' : rows' ≠ [] := by
    rintro rfl
    cases h
    exact hne rfl
  -- the least counter has room for the weight, so the first limit does not bind
  have hlimit : Count.leastOf counts + weight ≤ Count.greatest := by
    obtain ⟨row, hr, hget⟩ := Checked.exists_of_mem_mapM hm (Count.leastOf_mem hcounts)
    exact (h.fits row hr _ hget).2
  have hleast := (Count.le_leastOf_iff hcounts).mp (Int.le_refl _)
  have hbound : ∀ row ∈ rows, ∀ current, row.get key = .ok current →
      Count.leastOf counts + weight ≤ current + weight := by
    intro row hr current hget
    have := hleast current (Checked.mem_mapM hm hr hget)
    omega
  refine (Count.le_leastOf_iff (counts_ne_nil hne' hm')).mpr fun count hc => ?_
  obtain ⟨row, hr, hget⟩ := Checked.exists_of_mem_mapM hm' hc
  exact h.le_get hlimit hbound row hr count hget

end

/-! ## Two runs -/

section

variable {units : List Entry} {unit : Entry} {lower : Conservative} {upper : CountMin}

/-- The answer for a key is its least counter, and covers the weight that was given. -/
theorem Given.exists_counts {s : Conservative} (h : Given units s) (key : Key) : ∃ counts,
    s.rows.mapM (·.get key) = .ok counts ∧
      Estimator.query s key = .ok (Count.leastOf counts) ∧
      weightOf (· == key) units ≤ Count.leastOf counts := by
  obtain ⟨answer, hquery, hle⟩ := Row.exists_leastOf h.1 h.2 key
  obtain ⟨counts, hm, hleast⟩ := Checked.bind_eq_ok.mp hquery
  obtain rfl := Checked.pure_eq_ok.mp hleast
  exact ⟨counts, hm, Outcome.ofChecked_eq_ok.mpr hquery, hle⟩

/-- **An insert moves the answer for its key by its weight**, and any other by at most that. -/
theorem Given.exists_answers {before after : Conservative} (h : Given units before)
    (hunit : 0 ≤ unit.count) (hi : Estimator.insert before unit.key unit.count = .ok after)
    (key : Key) : ∃ answer answer',
      Estimator.query before key = .ok answer ∧ Estimator.query after key = .ok answer' ∧
        answer ≤ answer' ∧ answer' ≤ answer + unit.count ∧
        (key = unit.key → answer' = answer + unit.count) := by
  have h' : Given (units ++ [unit]) after := oneSided.given_insert h hunit hi
  obtain ⟨counts, hm, hquery, -⟩ := h.exists_counts key
  obtain ⟨counts', hm', hquery', -⟩ := h'.exists_counts key
  obtain ⟨rows, hr, hi⟩ := Checked.bind_eq_ok.mp hi
  obtain rfl := Checked.pure_eq_ok.mp hi
  have hraising := (raise_eq_ok_iff hunit).mp hr
  obtain ⟨hle, hge⟩ := hraising.leastOf_bounds hunit hm hm'
  refine ⟨_, _, hquery, hquery', hle, hge, ?_⟩
  rintro rfl
  have := hraising.add_le_leastOf h.1 hm hm'
  omega

/-- Answers of sketches in lockstep, of which the lower covers the weights. -/
theorem Given.exists_sandwich (h : Given units lower) (h' : CountMin.Given units upper)
    (hwithin : List.Forall₂ Row.Within lower.rows upper.rows) (key : Key) : ∃ low high,
      Estimator.query lower key = .ok low ∧ Estimator.query upper key = .ok high ∧
        weightOf (· == key) units ≤ low ∧ low ≤ high := by
  obtain ⟨counts, hm, hquery, hle⟩ := h.exists_counts key
  obtain ⟨others, hm'⟩ := Checked.exists_mapM fun row hr =>
    Row.exists_get_eq_ok row key (h'.2 row hr).length_pos
  have hcounts : List.Forall₂ (fun c d => c ≤ d) counts others :=
    Checked.forall₂_of_mapM (fun _ _ _ _ hrow hc hd => hrow.get_le hc hd) hwithin hm hm'
  refine ⟨_, _, hquery, ?_, hle, Count.leastOf_le_leastOf hcounts⟩
  exact Outcome.ofChecked_eq_ok.mpr (Checked.bind_eq_ok.mpr ⟨others, hm', rfl⟩)

/-- What is built like a count-min sketch starts out in lockstep with it. -/
theorem exists_ofBudget_within {memory rows width : Nat} {seed : UInt64} {start : CountMin}
    (built : CountMin.ofBudget memory rows width seed = .ok start) : ∃ start',
      ofBudget memory rows width seed = .ok start' ∧
        List.Forall₂ Row.Within start'.rows start.rows := by
  obtain ⟨length, hl, built⟩ := Checked.bind_eq_ok.mp built
  obtain ⟨_, hreserve, built⟩ := Checked.bind_eq_ok.mp built
  obtain rfl := Checked.pure_eq_ok.mp built
  obtain ⟨-, -, hlength, -⟩ := rowLength_eq_ok hl
  refine ⟨⟨table (SeedStream.hashes ⟨seed⟩ rows).1 length 0⟩, ?_, ?_⟩
  · refine Checked.bind_eq_ok.mpr ⟨length, rowLength_of_subject hl, ?_⟩
    exact Checked.bind_eq_ok.mpr ⟨_, hreserve, rfl⟩
  · refine List.forall₂_same.mpr fun row hr => ?_
    obtain ⟨hash, rfl⟩ := mem_table hr
    exact Row.within_fill hlength hash

/-- What a sketch with conservative update, a count-min sketch and the units that both were given
are to each other, where `start` is the former as it was built. -/
structure Sandwiched (units : List Entry) (start lower : Conservative)
    (upper : CountMin) : Prop where
  /-- Each counter is at most the other's in the same cell. -/
  rows_within : List.Forall₂ Row.Within lower.rows upper.rows
  /-- Each answer is between the weight of the key and the other's answer. -/
  exists_sandwich : ∀ key, ∃ low high,
    Estimator.query lower key = .ok low ∧ Estimator.query upper key = .ok high ∧
      weightOf (· == key) units ≤ low ∧ low ≤ high
  /-- Each of the inserts moved the answer for its key by its weight,
  and any other by at most that. -/
  exists_answers : ∀ past unit rest, units = past ++ unit :: rest → ∃ before after,
    Estimator.insertAll start past = .ok before ∧
      Estimator.insert before unit.key unit.count = .ok after ∧
      Estimator.insertAll after rest = .ok lower ∧
      ∀ key, ∃ answer answer',
        Estimator.query before key = .ok answer ∧ Estimator.query after key = .ok answer' ∧
          answer ≤ answer' ∧ answer' ≤ answer + unit.count ∧
          (key = unit.key → answer' = answer + unit.count)

/-- **Where count-min has a value, conservative update has one too**,
between the truth and count-min. -/
theorem sandwiched_of_insertAll {memory rows width : Nat} {seed : UInt64} {start upper : CountMin}
    (built : CountMin.ofBudget memory rows width seed = .ok start)
    (hpos : ∀ unit ∈ units, 0 ≤ unit.count) (run : Estimator.insertAll start units = .ok upper) :
    ∃ start' lower, ofBudget memory rows width seed = .ok start' ∧
      Estimator.insertAll start' units = .ok lower ∧ Sandwiched units start' lower upper := by
  obtain ⟨start', built', hstart⟩ := exists_ofBudget_within built
  obtain ⟨lower, run', hwithin⟩ := exists_insertAll_within hpos hstart run
  have hgiven := given_of_ofBudget built'
  have hlower : Given units lower := oneSided.given_insertAll hgiven hpos run'
  have hupper : CountMin.Given units upper :=
    CountMin.oneSided.given_insertAll (CountMin.given_of_ofBudget built) hpos run
  refine ⟨start', lower, built', run', hwithin, hlower.exists_sandwich hupper hwithin, ?_⟩
  rintro past unit rest rfl
  -- the run is cut before and after the insert
  rw [Estimator.insertAll, List.foldlM_append] at run'
  obtain ⟨before, hpast, run'⟩ := Checked.bind_eq_ok.mp run'
  obtain ⟨after, hi, hrest⟩ := Checked.bind_eq_ok.mp run'
  have hbefore : Given past before := oneSided.given_insertAll hgiven
    (fun other ho => hpos other (List.mem_append_left _ ho)) hpast
  have hunit := hpos unit (List.mem_append_right past List.mem_cons_self)
  exact ⟨before, after, hpast, hi, hrest, hbefore.exists_answers hunit hi⟩

/-- The key 5 weighs 4 and shares its counters with others in both rows: conservative
update answers 5, count-min 7. -/
theorem sandwiched_of_insertAll_two_rows : ∃ start upper start' lower,
    CountMin.ofBudget 24 2 4 2 = .ok start ∧
      Estimator.insertAll start [⟨5, 3⟩, ⟨3, 2⟩, ⟨9, 1⟩, ⟨5, 1⟩, ⟨1, 0⟩, ⟨7, 4⟩] = .ok upper ∧
      ofBudget 24 2 4 2 = .ok start' ∧
      Estimator.insertAll start' [⟨5, 3⟩, ⟨3, 2⟩, ⟨9, 1⟩, ⟨5, 1⟩, ⟨1, 0⟩, ⟨7, 4⟩] = .ok lower ∧
      Estimator.query lower 5 = .ok 5 ∧ Estimator.query upper 5 = .ok 7 ∧
      Sandwiched [⟨5, 3⟩, ⟨3, 2⟩, ⟨9, 1⟩, ⟨5, 1⟩, ⟨1, 0⟩, ⟨7, 4⟩] start' lower upper := by
  have hrun : (do
      let start ← CountMin.ofBudget 24 2 4 2
      let upper ← Outcome.ofChecked
        (Estimator.insertAll start [⟨5, 3⟩, ⟨3, 2⟩, ⟨9, 1⟩, ⟨5, 1⟩, ⟨1, 0⟩, ⟨7, 4⟩])
      Estimator.query upper 5 : Outcome _) = .ok 7 := by decide +kernel
  have hrun' : (do
      let start ← ofBudget 24 2 4 2
      let lower ← Outcome.ofChecked
        (Estimator.insertAll start [⟨5, 3⟩, ⟨3, 2⟩, ⟨9, 1⟩, ⟨5, 1⟩, ⟨1, 0⟩, ⟨7, 4⟩])
      Estimator.query lower 5 : Outcome _) = .ok 5 := by decide +kernel
  obtain ⟨start, built, hrun⟩ := Checked.bind_eq_ok.mp hrun
  obtain ⟨upper, run, hhigh⟩ := Checked.bind_eq_ok.mp hrun
  obtain ⟨start', built', hrun'⟩ := Checked.bind_eq_ok.mp hrun'
  obtain ⟨lower, run', hlow⟩ := Checked.bind_eq_ok.mp hrun'
  have run := Outcome.ofChecked_eq_ok.mp run
  have run' := Outcome.ofChecked_eq_ok.mp run'
  obtain ⟨start₁, lower₁, built₁, run₁, hsandwiched⟩ :=
    sandwiched_of_insertAll built (by decide) run
  obtain rfl := Except.ok.inj (built'.symm.trans built₁)
  obtain rfl := Except.ok.inj (run'.symm.trans run₁)
  exact ⟨start, upper, start', lower, built, run, built', run', hlow, hhigh, hsandwiched⟩

end

end Conservative

end HeavyHitters
