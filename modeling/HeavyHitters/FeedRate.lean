import HeavyHitters.Decimal.Fixed
import HeavyHitters.Fault

/-!
# Feed rates

The number of packets that went through a structure and the time they took.
-/

namespace HeavyHitters

/-- A span of time in whole seconds and the nanoseconds of one more. -/
structure Duration where
  seconds : Nat
  nanoseconds : Nat

namespace Duration

/-- A span of nanoseconds. -/
def ofNanoseconds (nanoseconds : Nat) : Duration :=
  ⟨nanoseconds / 1000000000, nanoseconds % 1000000000⟩

/-- A span of seconds and any number of nanoseconds.  The seconds have to fit 64 bits. -/
def ofParts (seconds nanoseconds : Nat) : Checked Duration :=
  let carried := ofNanoseconds nanoseconds
  if seconds + carried.seconds < 1 <<< 64 then
    .ok ⟨seconds + carried.seconds, carried.nanoseconds⟩
  else .error .durationTooLong

/-- The span in seconds. -/
def toSeconds (d : Duration) : Float :=
  d.seconds.toUInt64.toFloat + d.nanoseconds.toUInt64.toFloat / 1000000000.0

end Duration

/-- Packets and the time they took. -/
structure FeedRate where
  packets : Nat
  elapsed : Duration

namespace FeedRate

/-- Million packets per second, zero if no time passed. -/
def megaPerSecond (r : FeedRate) : Float :=
  let seconds := r.elapsed.toSeconds
  if seconds == 0.0 then 0.0 else r.packets.toUInt64.toFloat / 1000000.0 / seconds

/-- The text of a feed rate. -/
def text (r : FeedRate) : String :=
  s!"{r.packets} packets in " ++ Decimal.fixed 3 r.elapsed.toSeconds ++ "s ("
    ++ Decimal.fixed 2 r.megaPerSecond ++ " Mpps)"

end FeedRate

end HeavyHitters
