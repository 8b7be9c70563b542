import HeavyHitters.Proofs.Checked
import HeavyHitters.Proofs.Counts
import HeavyHitters.Proofs.Geometry
import HeavyHitters.Proofs.Weight

/-!
# What rows of counters hold

A row of counters is spoken of through the units of weight that it was given.  The strongest that
can be said of a counter is that it shows the whole weight of the keys in its bucket; what an
estimate needs is only that it covers the weight of each of them.

* `Row.Shows` and `Row.Covers` are the two, each with the lemma that carries it over a unit more.
* `Row.exists_leastOf` turns covered rows into an estimate that is not too low.
-/

namespace HeavyHitters

theorem weightOf_append_singleton (select : Key → Bool) (units : List Entry) (unit : Entry) :
    weightOf select (units ++ [unit])
      = weightOf select units + if select unit.key then unit.count else 0 := by
  rw [weightOf_append, weightOf_cons, weightOf_nil, Int.add_zero]

namespace Row

variable {row row' : Row Int} {units : List Entry} {unit : Entry}

/-- The keys in a key's bucket. -/
def shares (row : Row Int) (key : Key) : Key → Bool :=
  fun other => row.position other == row.position key

/-- The keys in a key's bucket weigh no less than the key. -/
theorem weightOf_le_shares (row : Row Int) (hunits : ∀ unit ∈ units, 0 ≤ unit.count) (key : Key) :
    weightOf (· == key) units ≤ weightOf (row.shares key) units := by
  refine weightOf_mono (fun other ho => ?_) hunits
  simp [shares, show other = key by simpa using ho]

/-- Every counter shows the weight of the keys in its bucket. -/
structure Shows (row : Row Int) (units : List Entry) : Prop where
  length_pos : 0 < row.length
  get_eq : ∀ key, row.get key = .ok (weightOf (row.shares key) units)

/-- Every counter covers the weight of each key in its bucket. -/
structure Covers (row : Row Int) (units : List Entry) : Prop where
  length_pos : 0 < row.length
  le_get : ∀ key count, row.get key = .ok count → weightOf (· == key) units ≤ count

theorem get_fill {length : Nat} (hl : length ≠ 0) (hash : KeyHash) (count : Int) (key : Key) :
    (Row.fill length count hash).get key = .ok count := by
  have hpos : 0 < (Row.fill length count hash).length := by
    rw [length_fill]
    exact Nat.pos_of_ne_zero hl
  have hlt := position_lt _ key hpos
  refine get_eq_ok_iff.mpr ?_
  rw [Array.getElem?_eq_getElem hlt]
  simp [fill]

theorem shows_fill {length : Nat} (hl : length ≠ 0) (hash : KeyHash) :
    (Row.fill length 0 hash).Shows [] where
  length_pos := by
    rw [length_fill]
    exact Nat.pos_of_ne_zero hl
  get_eq := get_fill hl hash 0

theorem shows_table {length : Nat} (hl : length ≠ 0) (hashes : List KeyHash) :
    ∀ row ∈ table hashes length (0 : Int), row.Shows [] := by
  intro row hr
  obtain ⟨hash, rfl⟩ := mem_table hr
  exact shows_fill hl hash

/-- A counter that shows the weight of its bucket covers that of each key in it. -/
theorem Shows.covers (h : row.Shows units) (hunits : ∀ unit ∈ units, 0 ≤ unit.count) :
    row.Covers units where
  length_pos := h.length_pos
  le_get key count hget := by
    rw [h.get_eq key] at hget
    exact Except.ok.inj hget ▸ row.weightOf_le_shares hunits key

theorem shares_set (row : Row Int) (key : Key) (count : Int) :
    (row.set key count).shares = row.shares := by
  funext other another
  simp only [shares, position_set]

/-- Adding a unit to the counter of its key keeps what the counters show. -/
theorem Shows.update (h : row.Shows units)
    (hu : row.update unit.key (Count.plus · unit.count) = .ok row') :
    row'.Shows (units ++ [unit]) := by
  obtain ⟨old, new, hget, hplus, rfl⟩ := update_eq_ok_iff.mp hu
  obtain ⟨-, rfl⟩ := Count.plus_eq_ok_iff.mp hplus
  rw [h.get_eq unit.key] at hget
  obtain rfl := Except.ok.inj hget
  refine ⟨by rw [length_set]; exact h.length_pos, fun key => ?_⟩
  rw [shares_set, get_set h.length_pos, weightOf_append_singleton]
  by_cases hp : row.position key = row.position unit.key
  · have hkey : row.shares key unit.key = true := by simp [shares, hp]
    have hsame : row.shares unit.key = row.shares key := by
      funext other
      rw [shares, shares, hp]
    rw [if_pos hp, if_pos hkey, hsame]
  · have hkey : ¬row.shares key unit.key = true := by simpa [shares] using Ne.symm hp
    rw [if_neg hp, if_neg hkey, h.get_eq key, Int.add_zero]

/-- Raising the counter of a unit's key far enough keeps the weights covered. -/
theorem Covers.set (h : row.Covers units) {old new : Int} (hget : row.get unit.key = .ok old)
    (hold : old ≤ new) (hnew : weightOf (· == unit.key) units + unit.count ≤ new) :
    (row.set unit.key new).Covers (units ++ [unit]) := by
  refine ⟨by rw [length_set]; exact h.length_pos, fun key count hc => ?_⟩
  rw [get_set h.length_pos] at hc
  rw [weightOf_append_singleton]
  by_cases hk : unit.key = key
  · subst hk
    rw [if_pos rfl] at hc
    rw [if_pos (by simp), ← Except.ok.inj hc]
    exact hnew
  · rw [if_neg (by simpa using hk), Int.add_zero]
    by_cases hp : row.position key = row.position unit.key
    · -- a key of the same bucket finds a counter that is not lower than before
      rw [if_pos hp] at hc
      have hsame : row.get key = .ok old := by
        rw [← hget, Row.get, Row.get, hp]
      have := h.le_get key old hsame
      rw [← Except.ok.inj hc]
      omega
    · rw [if_neg hp] at hc
      exact h.le_get key count hc

/-- The least counter of a key covers its weight. -/
theorem exists_leastOf {rows : List (Row Int)} (hne : rows ≠ [])
    (h : ∀ row ∈ rows, row.Covers units) (key : Key) : ∃ estimate,
      (do return Count.leastOf (← rows.mapM (·.get key)) : Checked Int) = .ok estimate ∧
        weightOf (· == key) units ≤ estimate := by
  obtain ⟨counts, hm⟩ := Checked.exists_mapM fun row hr =>
    Row.exists_get_eq_ok row key (h row hr).length_pos
  have hcounts : counts ≠ [] := by
    rintro rfl
    exact hne (List.eq_nil_of_length_eq_zero (Checked.length_mapM hm).symm)
  refine ⟨_, Checked.bind_eq_ok.mpr ⟨counts, hm, rfl⟩,
    (Count.le_leastOf_iff hcounts).mpr fun count hc => ?_⟩
  obtain ⟨row, hr, hget⟩ := Checked.exists_of_mem_mapM hm hc
  exact (h row hr).le_get key count hget

end Row

end HeavyHitters
