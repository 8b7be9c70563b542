import HeavyHitters.Hash.SeedStream
import Mathlib.Data.FinEnum
import Mathlib.Data.List.Nodup
import Mathlib.Data.Nat.ModEq
import Mathlib.Data.Nat.Prime.Basic

/-!
# The period of a seed stream

A stream counts through all words before it comes back to one, because its step is odd, and the
mixing of a state into a seed loses nothing: it multiplies by odd words, and in between it takes a
shifted copy of a word off by exclusive or.  So every seed is handed out just once in a period.

* `SeedStream.mix_injective` is put together from the two kinds of steps of the mixing.
* `SeedStream.seedAt_eq` finds each seed of a stream without those before it.
* `SeedStream.nodup_take` and `SeedStream.count_take_period` are about the seeds of a period.
-/

namespace HeavyHitters

/-! ## Steps that lose nothing -/

/-- A word that stays the same when it is shifted is zero. -/
theorem eq_zero_of_shiftRight_eq {k w : UInt64} (hk : k.toNat % 64 ≠ 0)
    (h : w >>> k = w) : w = 0 := by
  have hdiv : w.toNat / 2 ^ (k.toNat % 64) = w.toNat := by
    have hshift := congrArg UInt64.toNat h
    rwa [UInt64.toNat_shiftRight, Nat.shiftRight_eq_div_pow] at hshift
  by_contra hw
  have hpos : 0 < w.toNat := Nat.pos_of_ne_zero fun h0 => hw (UInt64.toNat_inj.mp h0)
  have hlt := Nat.div_lt_self hpos (Nat.one_lt_two_pow hk)
  omega

/-- A word is known from what is left when a shifted copy is taken off. -/
theorem eq_of_xorShift_eq {k x y : UInt64} (hk : k.toNat % 64 ≠ 0)
    (h : x ^^^ (x >>> k) = y ^^^ (y >>> k)) : x = y := by
  -- the step is linear, so only the word in which both differ matters
  have hxor : (x ^^^ y) >>> k = x ^^^ y := by
    rw [UInt64.shiftRight_xor, ← UInt64.xor_eq_zero_iff]
    calc ((x >>> k) ^^^ (y >>> k)) ^^^ (x ^^^ y) = (x ^^^ (x >>> k)) ^^^ (y ^^^
      (y >>> k)) := by ac_rfl
      _ = 0 := UInt64.xor_eq_zero_iff.mpr h
  exact UInt64.xor_eq_zero_iff.mp (eq_zero_of_shiftRight_eq hk hxor)

/-- An odd factor can be cancelled, as it has no divisor in common with the number of words. -/
theorem eq_of_mul_eq_of_odd {c x y : UInt64} (hc : c.toNat % 2 = 1) (h : x * c = y * c) :
    x = y := by
  have hcoprime : Nat.Coprime (2 ^ 64) c.toNat := by
    apply Nat.Coprime.pow_left
    rwa [Nat.coprime_two_left, Nat.odd_iff]
  have hmod : x.toNat * c.toNat ≡ y.toNat * c.toNat [MOD 2 ^ 64] := by
    have hproduct := congrArg UInt64.toNat h
    rwa [UInt64.toNat_mul, UInt64.toNat_mul] at hproduct
  have hwords := Nat.ModEq.cancel_right_of_coprime hcoprime hmod
  exact UInt64.toNat_inj.mp (Nat.ModEq.eq_of_lt_of_lt hwords x.toNat_lt y.toNat_lt)

namespace SeedStream

variable {s : SeedStream} {i j n : Nat}

/-- **Mixing loses nothing.** -/
theorem mix_injective : Function.Injective mix := by
  intro x y h
  unfold mix at h
  have hlast := eq_of_xorShift_eq (by decide) h
  have hsecond := eq_of_mul_eq_of_odd (by decide) hlast
  have hmiddle := eq_of_xorShift_eq (by decide) hsecond
  have hfirst := eq_of_mul_eq_of_odd (by decide) hmiddle
  exact eq_of_xorShift_eq (by decide) hfirst

/-! ## Seeds by number -/

/-- The seed that a stream hands out after some others. -/
def seedAt (s : SeedStream) (index : Nat) : UInt64 := (s.take index).2.next.1

theorem take_succ_snd (s : SeedStream) (n : Nat) : (s.take (n + 1)).2 = (s.next.2.take n).2 := by
  rw [take]

theorem seedAt_succ (s : SeedStream) (index : Nat) :
    s.seedAt (index + 1) = s.next.2.seedAt index := by
  rw [seedAt, take_succ_snd, seedAt]

/-- Each seed moves the state on by one step. -/
theorem take_snd (s : SeedStream) (n : Nat) : (s.take n).2 = ⟨s.state + UInt64.ofNat n * step⟩ := by
  induction n generalizing s with
  | zero => simp [take]
  | succ n ih =>
    rw [take_succ_snd, ih, UInt64.ofNat_add, UInt64.add_mul]
    simp [next, UInt64.add_assoc, UInt64.add_comm step]

theorem seedAt_eq (s : SeedStream) (index : Nat) :
    s.seedAt index = mix (s.state + UInt64.ofNat (index + 1) * step) := by
  rw [seedAt, take_snd, UInt64.ofNat_add, UInt64.add_mul]
  simp [next, UInt64.add_assoc]

theorem take_fst (s : SeedStream) (n : Nat) : (s.take n).1 = (List.range n).map s.seedAt := by
  induction n generalizing s with
  | zero => simp [take]
  | succ n ih =>
    have htail : s.next.2.seedAt = s.seedAt ∘ Nat.succ :=
      funext fun index => (s.seedAt_succ index).symm
    rw [List.range_succ_eq_map, List.map_cons, List.map_map, ← htail, ← ih]
    rfl

/-- Streams that start at different states differ in every seed. -/
theorem seedAt_ne {seed seed' : UInt64} (h : seed ≠ seed') (index : Nat) :
    seedAt ⟨seed⟩ index ≠ seedAt ⟨seed'⟩ index := by
  intro heq
  rw [seedAt_eq, seedAt_eq] at heq
  exact h ((UInt64.add_left_inj _).mp (mix_injective heq))

/-! ## The period -/

/-- Within a period the number of a seed is known from the seed. -/
theorem eq_of_seedAt_eq (hi : i < 2 ^ 64) (hj : j < 2 ^ 64) (h : s.seedAt i = s.seedAt j) :
    i = j := by
  rw [seedAt_eq, seedAt_eq] at h
  have hsteps := (UInt64.add_right_inj _).mp (mix_injective h)
  have hcount : UInt64.ofNat (i + 1) = UInt64.ofNat (j + 1) :=
    eq_of_mul_eq_of_odd (by decide) hsteps
  have hmod := congrArg UInt64.toNat hcount
  rw [UInt64.toNat_ofNat', UInt64.toNat_ofNat'] at hmod
  omega

/-- **No seed is handed out twice in a period.** -/
theorem nodup_take (s : SeedStream) (hn : n ≤ 2 ^ 64) : (s.take n).1.Nodup := by
  rw [take_fst]
  refine List.Nodup.map_on (fun i hi j hj h => ?_) List.nodup_range
  rw [List.mem_range] at hi hj
  exact eq_of_seedAt_eq (by omega) (by omega) h

/-- Every word is a seed of the stream: there are as many seeds in a period as there are words. -/
theorem exists_seedAt_eq (s : SeedStream) (seed : UInt64) :
    ∃ index < 2 ^ 64, s.seedAt index = seed := by
  have hinjective : Function.Injective fun index : UInt64 => s.seedAt index.toNat := by
    intro x y h
    exact UInt64.toNat_inj.mp (eq_of_seedAt_eq x.toNat_lt y.toNat_lt h)
  obtain ⟨index, hindex⟩ := Finite.injective_iff_surjective.mp hinjective seed
  exact ⟨index.toNat, index.toNat_lt, hindex⟩

/-- **A period hands every word out once.** -/
theorem count_take_period (s : SeedStream) (seed : UInt64) :
    (s.take (2 ^ 64)).1.count seed = 1 := by
  refine List.count_eq_one_of_mem (s.nodup_take (Nat.le_refl _)) ?_
  rw [take_fst]
  obtain ⟨index, hlt, hindex⟩ := s.exists_seedAt_eq seed
  exact List.mem_map.mpr ⟨index, List.mem_range.mpr hlt, hindex⟩

/-- After a period the stream is where it was. -/
theorem take_period_snd (s : SeedStream) : (s.take (2 ^ 64)).2 = s := by
  have hzero : UInt64.ofNat (2 ^ 64) = 0 := by rw [← UInt64.toNat_inj, UInt64.toNat_ofNat']; rfl
  rw [take_snd, hzero]
  simp

end SeedStream

end HeavyHitters
