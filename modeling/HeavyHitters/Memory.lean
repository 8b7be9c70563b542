import HeavyHitters.Fault

/-!
# Blocks of memory

The cells of a structure lie in one block of memory, and so do the buckets of a hash table.  A block
has fewer than 2^63 bytes.  A structure that would need a longer one cannot be built, and that is a
fault: nothing is wrong with the request but its size.
-/

namespace HeavyHitters

/-- The length in bytes that no block of memory reaches. -/
def blockLimit : Nat := 1 <<< 63

/-- Sets aside a block for `count` cells of `width` bytes. -/
def reserve (count width : Nat) : Checked Unit :=
  if count * width < blockLimit then .ok () else .error .blockTooLong

theorem reserve_eq_ok_iff {count width : Nat} :
    reserve count width = .ok () ↔ count * width < blockLimit := by
  unfold reserve
  split <;> simp_all

/-! ## Hash tables -/

/-- The least power of two that is not below a number. -/
def powerOfTwoFrom (n : Nat) : Nat := if n ≤ 1 then 1 else 1 <<< ((n - 1).log2 + 1)

theorem le_powerOfTwoFrom (n : Nat) : n ≤ powerOfTwoFrom n := by
  unfold powerOfTwoFrom
  split
  · assumption
  · have := Nat.lt_log2_self (n := n - 1)
    rw [Nat.one_shiftLeft]
    omega

/-- The number of buckets of a hash table that is to hold so many entries.  It is a power of two,
and one bucket in eight stays empty. -/
def bucketCount (entries : Nat) : Nat := powerOfTwoFrom (entries * 8 / 7)

/-- Sets aside a hash table for entries of `width` bytes.  A bucket takes one byte more than its
entry, and two groups of sixteen bytes frame the whole. -/
def reserveHashTable (entries width : Nat) : Checked Unit :=
  if bucketCount entries * (width + 1) + 32 ≤ blockLimit then .ok ()
  else .error .hashTableTooLong

theorem reserveHashTable_eq_ok_iff {entries width : Nat} :
    reserveHashTable entries width = .ok () ↔
      bucketCount entries * (width + 1) + 32 ≤ blockLimit := by
  unfold reserveHashTable
  split <;> simp_all

end HeavyHitters
