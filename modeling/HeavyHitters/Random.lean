import HeavyHitters.Hash.SeedStream
import HeavyHitters.Word

/-!
# Random draws

A source hands out 64-bit words one after the other.  A structure that flips coins is written for
any source, so that what holds of it holds whatever the coins show; it is run with a generator of
the xoshiro256++ family.
-/

namespace HeavyHitters

/-- A source of 64-bit words. -/
class RandomSource (ρ : Type) where
  /-- The next word, and the source after it. -/
  next : ρ → UInt64 × ρ

namespace RandomSource

variable {ρ : Type} [RandomSource ρ]

/-- The upper half of the next word. -/
def halfWord (source : ρ) : UInt32 × ρ :=
  let (word, source) := next source
  ((word >>> 32).toUInt32, source)

/-- The upper 53 bits of the next word. -/
def significand (source : ρ) : Nat × ρ :=
  let (word, source) := next source
  ((word >>> 11).toNat, source)

/-- A number from 0 up to but not including 1: a significand over the 53rd power of two. -/
def fraction (source : ρ) : Float × ρ :=
  let (word, source) := next source
  ((word >>> 11).toFloat * (1.0 / 9007199254740992.0), source)

/-- A number below `n`: the whole part of `n` times a half word read as a fraction.  All numbers
are equally likely when `n` is a power of two. -/
def below (n : Nat) (source : ρ) : Nat × ρ :=
  let (word, source) := halfWord source
  ((word.toNat * n) >>> 32, source)

theorem significand_lt (source : ρ) : (significand source).1 < 1 <<< 53 := by
  have h := (next source).1.toNat_lt
  simp only [significand, UInt64.toNat_shiftRight, UInt64.reduceToNat, Nat.reduceMod,
    Nat.shiftRight_eq_div_pow]
  omega

theorem below_lt {n : Nat} (hn : 0 < n) (source : ρ) : (below n source).1 < n := by
  have h : (halfWord source).1.toNat < 2 ^ 32 := (halfWord source).1.toNat_lt
  simp only [below, Nat.shiftRight_eq_div_pow]
  exact Nat.div_lt_of_lt_mul (Nat.mul_lt_mul_of_pos_right h hn)

end RandomSource

/-- The state of a xoshiro256++ generator. -/
structure Xoshiro where
  s0 : UInt64
  s1 : UInt64
  s2 : UInt64
  s3 : UInt64
  deriving DecidableEq

namespace Xoshiro

/-- The generator of a seed: its state is the next four seeds of the seed's stream. -/
def ofSeed (seed : UInt64) : Xoshiro :=
  let (s0, stream) := SeedStream.next ⟨seed⟩
  let (s1, stream) := stream.next
  let (s2, stream) := stream.next
  let (s3, _) := stream.next
  ⟨s0, s1, s2, s3⟩

/-- The next word, and the generator after it. -/
def next (g : Xoshiro) : UInt64 × Xoshiro :=
  let word := rotateLeft (g.s0 + g.s3) 23 + g.s0
  let shifted := g.s1 <<< 17
  let s2 := g.s2 ^^^ g.s0
  let s3 := g.s3 ^^^ g.s1
  let s1 := g.s1 ^^^ s2
  let s0 := g.s0 ^^^ s3
  (word, ⟨s0, s1, s2 ^^^ shifted, rotateLeft s3 45⟩)

instance : RandomSource Xoshiro := ⟨next⟩

end Xoshiro

end HeavyHitters
