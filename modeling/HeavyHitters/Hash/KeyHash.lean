import HeavyHitters.Flow
import HeavyHitters.Hash.SeedStream
import HeavyHitters.Word

/-!
# Hashing keys

A keyed hash of flow keys: two rounds of folded multiplication and a rotation by an amount that
depends on the data.  The two 64-bit hash keys are drawn from a seed stream.  From the hash follows
the bucket of a key in a row of cells, and its sign where a structure needs one.
-/

namespace HeavyHitters

/-- A hash function on keys, given by its two hash keys. -/
structure KeyHash where
  outer : UInt64
  inner : UInt64
  deriving DecidableEq

namespace KeyHash

/-- The bytes that a hash function takes. -/
def width : Nat := 32

/-- The hash function of a seed.  Four seeds are drawn from the seed's stream and the first two
make the hash keys. -/
def ofSeed (seed : UInt64) : KeyHash :=
  let (first, stream) := SeedStream.next ⟨seed⟩
  let (second, _) := stream.next
  ⟨first ^^^ 0x452821e638d01377, second ^^^ 0xbe5466cf34e90c6c⟩

/-- The hash of a key. -/
def hash (h : KeyHash) (key : Key) : UInt64 :=
  let buffer := foldedMul 6364136223846793005 (key.toUInt64 ^^^ h.inner)
  rotateLeft (foldedMul h.outer buffer) (buffer &&& 63)

/-- The sign of a key: plus one if the hash is odd, minus one if it is even. -/
def sign (h : KeyHash) (key : Key) : Int := if h.hash key &&& 1 = 1 then 1 else -1

theorem sign_eq (h : KeyHash) (key : Key) : h.sign key = 1 ∨ h.sign key = -1 := by
  unfold sign
  split <;> simp

theorem sign_mul_self (h : KeyHash) (key : Key) : h.sign key * h.sign key = 1 := by
  rcases h.sign_eq key with e | e <;> simp [e]

end KeyHash

namespace SeedStream

/-- The hash functions of the next `n` seeds, and the stream after them. -/
def hashes (s : SeedStream) (n : Nat) : List KeyHash × SeedStream :=
  let (seeds, s) := s.take n
  (seeds.map KeyHash.ofSeed, s)

theorem length_hashes (s : SeedStream) (n : Nat) : (s.hashes n).1.length = n := by
  simp [hashes, length_take]

end SeedStream

end HeavyHitters
