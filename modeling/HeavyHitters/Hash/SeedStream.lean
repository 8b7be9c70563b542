/-!
# Seed streams

A stream of 64-bit seeds: a state that advances by a fixed odd step, and a mixing of that state
into the seed handed out.  Every random choice of a structure, its hash keys and its generator,
starts from one such stream, so a structure is fixed by a single base seed.
-/

namespace HeavyHitters

/-- A stream of seeds, given by the state before the next one. -/
structure SeedStream where
  state : UInt64
  deriving DecidableEq

namespace SeedStream

/-- The step between consecutive states. -/
def step : UInt64 := 0x9e3779b97f4a7c15

/-- Spreads a state over all 64 bits. -/
def mix (z : UInt64) : UInt64 :=
  let z := (z ^^^ (z >>> 30)) * 0xbf58476d1ce4e5b9
  let z := (z ^^^ (z >>> 27)) * 0x94d049bb133111eb
  z ^^^ (z >>> 31)

/-- The next seed, and the stream after it. -/
def next (s : SeedStream) : UInt64 × SeedStream :=
  let state := s.state + step
  (mix state, ⟨state⟩)

/-- The next `n` seeds in order, and the stream after them. -/
def take (s : SeedStream) : Nat → List UInt64 × SeedStream
  | 0 => ([], s)
  | n + 1 =>
    let (seed, s) := s.next
    let (seeds, s) := s.take n
    (seed :: seeds, s)

theorem length_take (s : SeedStream) (n : Nat) : (s.take n).1.length = n := by
  induction n generalizing s with
  | zero => rfl
  | succ n ih => simp [take, ih]

/-- Taking `m + n` seeds is taking `m` and then `n`. -/
theorem take_add (s : SeedStream) (m n : Nat) :
    s.take (m + n) = ((s.take m).1 ++ ((s.take m).2.take n).1, ((s.take m).2.take n).2) := by
  induction m generalizing s with
  | zero => simp [take]
  | succ m ih => simp [Nat.succ_add, take, ih]

end SeedStream

end HeavyHitters
