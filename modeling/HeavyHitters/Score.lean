import Std.Data.TreeSet
import HeavyHitters.Decimal.Fixed
import HeavyHitters.Tally

/-!
# Scores

How well estimates and rankings agree with the truth: the mean absolute and relative error over the
true keys, and the share of true keys among those reported.  Shares are counted in whole numbers
first and divided at the end.
-/

namespace HeavyHitters

/-! ## Errors of estimates -/

/-- The mean absolute error and the mean relative error. -/
structure MeanErrors where
  absolute : Float
  relative : Float

/-- The running sums from which the means are made. -/
structure ErrorSums where
  absolute : Float
  relative : Float
  /-- The number of keys that have a relative error. -/
  keys : Nat

/-- Adds the error of one estimate.  A true count of zero has no relative error. -/
def ErrorSums.add (sums : ErrorSums) (truth estimate : Int) : ErrorSums :=
  let error := (Float.ofInt estimate - Float.ofInt truth).abs
  if truth = 0 then { sums with absolute := sums.absolute + error }
  else ⟨sums.absolute + error, sums.relative + error / Float.ofInt truth, sums.keys + 1⟩

/-- Estimates the keys in order and sums the errors up. -/
def sumErrors {κ : Type} (estimate : κ → Outcome Int) :
    List (Record κ) → ErrorSums → Outcome ErrorSums
  | [], sums => .ok sums
  | record :: rest, sums => do
    sumErrors estimate rest (sums.add record.count (← estimate record.key))

/-- The mean errors of estimates over the true keys.  There has to be a true key, and one with a
count other than zero. -/
def meanErrors {κ : Type} (truth : List (Record κ)) (estimate : κ → Outcome Int) :
    Outcome MeanErrors := do
  if truth.isEmpty then refuse (.numericDomain "no ground-truth keys to average over")
  let sums ← sumErrors estimate truth ⟨0.0, 0.0, 0⟩
  if sums.keys = 0 then
    refuse (.numericDomain "every ground-truth count is zero; relative error is undefined")
  return ⟨sums.absolute / truth.length.toFloat, sums.relative / sums.keys.toFloat⟩

/-! ## Hits of rankings -/

/-- The number of true records, how many of as many first reported records name a true key, and how
many true keys are reported at all. -/
structure Hits where
  expected : Nat
  precise : Nat
  recalled : Nat
  deriving DecidableEq

/-- Precision and recall: the share of true keys among the first reported ones, and the share of
true keys that are reported at all. -/
structure HitShares where
  precise : Float
  recalled : Float

/-- The keys of records, each once. -/
def keySet {κ : Type} [Ord κ] (records : List (Record κ)) : Std.TreeSet κ :=
  records.foldl (fun keys record => keys.insert record.key) ∅

/-- Counts the true keys in a report. -/
def Hits.count {κ : Type} [Ord κ] (truth reported : List (Record κ)) : Hits :=
  let expected := keySet truth
  let found := keySet reported
  ⟨truth.length, (reported.take truth.length).countP fun record => expected.contains record.key,
    expected.toList.countP fun key => found.contains key⟩

/-- The counts as shares of the number of true records, zero if there is none. -/
def Hits.shares (hits : Hits) : HitShares :=
  if hits.expected = 0 then ⟨0.0, 0.0⟩
  else ⟨hits.precise.toFloat / hits.expected.toFloat, hits.recalled.toFloat / hits.expected.toFloat⟩

/-! ## Scores and their texts -/

/-- The score over the `k` heaviest true keys, with the hits where keys are reported. -/
structure Score where
  k : Nat
  errors : MeanErrors
  hits : Option HitShares

/-- The text of a score. -/
def Score.text (s : Score) : String :=
  s!"K={s.k} AAE=" ++ Decimal.fixed 4 s.errors.absolute
    ++ " ARE=" ++ Decimal.fixed 6 s.errors.relative
    ++ match s.hits with
      | some hits =>
        " PR=" ++ Decimal.fixed 4 hits.precise ++ " RR=" ++ Decimal.fixed 4 hits.recalled
      | none => ""

/-- The score of a structure over flows and, where it enumerates them, over networks. -/
structure Scorecard where
  subject : String
  flows : Score
  networks : Option Score

/-- The text of a scorecard. -/
def Scorecard.text (c : Scorecard) : String :=
  c.subject ++ ": " ++ c.flows.text
    ++ match c.networks with
      | some networks => " | partial " ++ networks.text
      | none => ""

/-- The scorecard of a tracker, the number of keys it tracks, by how much it undercounts them in
sum, and its own counters. -/
structure TrackerScorecard where
  card : Scorecard
  tracked : Nat
  undercount : Int
  diagnostics : List (String × Nat)

/-- The text of a tracker's scorecard. -/
def TrackerScorecard.text (c : TrackerScorecard) : String :=
  c.card.text ++ s!" tracked={c.tracked} underestimate={c.undercount}"
    ++ String.join (c.diagnostics.map fun (name, value) => s!" {name}={value}")

/-- The score of one level of a hierarchy, under the level's mask. -/
structure LevelScore where
  level : Nat
  mask : Key
  score : Score

/-- The text of a mask: eight hexadecimal digits. -/
def maskText (mask : Key) : String :=
  let digits := Nat.toDigits 16 mask.toNat
  String.ofList ('0' :: 'x' :: List.replicate (8 - digits.length) '0' ++ digits)

/-- The text of a level's score. -/
def LevelScore.text (s : LevelScore) : String :=
  s!"level {s.level} mask=" ++ maskText s.mask ++ ": " ++ s.score.text

end HeavyHitters
