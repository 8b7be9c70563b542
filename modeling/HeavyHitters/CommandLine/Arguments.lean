import HeavyHitters.CommandLine.Options
import HeavyHitters.Decimal.Read

/-!
# Arguments

Reads the words of a command line into options.  A word that starts with two dashes names an option
by its long name, with its value after an equals sign or in the next word; one dash and a letter
name it by its short name, the value following in the same word or the next one.  A value in a word
of its own cannot start with a dash, unless it is just a dash.  Every other word is the path of the
trace, and after a word of two dashes alone every word is.

Each option may be given once, the list of estimators any number of times.  The words are read from
left to right, and the first that does not fit decides the result.
-/

namespace HeavyHitters

/-- Why a command line does not lead to a run. -/
inductive Usage where
  /-- The help text was asked for. -/
  | help
  /-- The version was asked for. -/
  | version
  /-- A word does not fit. -/
  | invalid
  deriving DecidableEq

/-- The options by their long and short names. -/
inductive Flag where
  | recordSize
  | memory
  | k
  | seed
  | estimators
  | tracker
  | hierarchy
  | roundRobin
  | rows
  | sampleRate
  | debug
  | help
  | version
  deriving DecidableEq

namespace Flag

/-- The option of a long name. -/
def ofLong? (name : String) : Option Flag :=
  List.lookup name [("record-size", recordSize), ("memory", memory), ("seed", seed),
    ("sketch", estimators), ("tracker", tracker), ("rhhh", hierarchy), ("round-robin", roundRobin),
    ("stages", rows), ("sample-rate", sampleRate), ("debug", debug), ("help", help),
    ("version", version)]

/-- The option of a short name. -/
def ofShort? (name : Char) : Option Flag :=
  List.lookup name [('m', memory), ('k', k), ('d', debug), ('h', help), ('V', version)]

/-- Whether an option takes a value. -/
def takesValue : Flag → Bool
  | roundRobin | debug | help | version => false
  | _ => true

end Flag

/-- The value of a decimal number without a fraction, a plus sign allowed, up to a limit. -/
def readNumber? (limit : Nat) (text : String) : Option Nat :=
  let digits := match text.toList with
    | '+' :: rest => rest
    | digits => digits
  if digits.isEmpty || !digits.all Char.isDigit then none
  else
    let value := Decimal.digitsValue digits
    if value < limit then some value else none

/-- The estimators named in a list with commas. -/
def readEstimators? (text : String) : Option (List EstimatorChoice) :=
  (text.splitOn ",").mapM fun word => List.lookup word EstimatorChoice.words

namespace Options

/-- Sets an option that takes a value; nothing if the value does not fit. -/
def setValue? (o : Options) (flag : Flag) (value : String) : Option Options :=
  match flag with
  | .recordSize => (readNumber? (1 <<< 64) value).map fun recordSize => { o with recordSize }
  | .memory => (readNumber? (1 <<< 64) value).map fun memory => { o with memory }
  | .k => (readNumber? (1 <<< 64) value).map fun k => { o with k }
  | .seed => (readNumber? (1 <<< 64) value).map fun seed => { o with seed := seed.toUInt64 }
  | .estimators => (readEstimators? value).map fun estimators => { o with estimators }
  | .tracker => (List.lookup value TrackerChoice.words).map fun tracker => { o with tracker }
  | .hierarchy =>
    (List.lookup value LevelChoice.words).map fun level => { o with hierarchy := some level }
  | .rows => (readNumber? (1 <<< 64) value).map fun rows => { o with rows }
  | .sampleRate => (Decimal.read? value).map fun sampleRate => { o with sampleRate }
  | _ => none

/-- Sets an option that takes no value. -/
def setSwitch (o : Options) : Flag → Options
  | .roundRobin => { o with roundRobin := true }
  | .debug => { o with debug := true }
  | _ => o

end Options

/-- The options read so far, which of them were given, and the path if one was. -/
structure Parsed where
  options : Options
  given : List Flag
  path : Option String

namespace Parsed

/-- Nothing read yet. -/
def start : Parsed := ⟨Options.default "", [], none⟩

/-- Notes that an option is given.  Only the list of estimators may be given again, which adds to
it. -/
def note (p : Parsed) (flag : Flag) : Except Usage Parsed :=
  if flag ≠ .estimators && p.given.contains flag then .error .invalid
  else .ok { p with given := flag :: p.given }

/-- Takes an option with its value. -/
def takeValue (p : Parsed) (flag : Flag) (value : String) : Except Usage Parsed := do
  let noted ← p.note flag
  match p.options.setValue? flag value with
  | none => throw .invalid
  | some options =>
    let estimators :=
      if flag = .estimators && p.given.contains .estimators then
        p.options.estimators ++ options.estimators
      else options.estimators
    return { noted with options := { options with estimators } }

/-- Takes an option without a value. -/
def takeSwitch (p : Parsed) (flag : Flag) : Except Usage Parsed :=
  match flag with
  | .help => .error .help
  | .version => .error .version
  | _ => do
    let noted ← p.note flag
    return { noted with options := p.options.setSwitch flag }

/-- Takes the path of the trace, which is not empty and given once. -/
def takePath (p : Parsed) (path : String) : Except Usage Parsed :=
  if p.path.isSome || path.isEmpty then .error .invalid else .ok { p with path := some path }

/-- The options, if the path was given. -/
def finish (p : Parsed) : Except Usage Options :=
  match p.path with
  | none => .error .invalid
  | some path => .ok { p.options with path }

/-- Takes the letters after one dash: options without a value, of which the last may be one with a
value.  That value is the rest of the word, an equals sign in front of it dropped; without a rest
the option is handed back, to find its value in the next word. -/
def takeShort (p : Parsed) : List Char → Except Usage (Parsed × Option Flag)
  | [] => .ok (p, none)
  | letter :: rest =>
    match Flag.ofShort? letter with
    | none => .error .invalid
    | some flag =>
      if flag.takesValue then
        match rest with
        | [] => .ok (p, some flag)
        | '=' :: value => (·, none) <$> p.takeValue flag (String.ofList value)
        | value => (·, none) <$> p.takeValue flag (String.ofList value)
      else do takeShort (← p.takeSwitch flag) rest

/-- Takes a word after two dashes: an option, with its value after an equals sign or, if it needs
one, in the next word. -/
def takeLong (p : Parsed) (word : List Char) : Except Usage (Parsed × Option Flag) :=
  let (name, rest) := word.span (· ≠ '=')
  match Flag.ofLong? (String.ofList name), rest with
  | none, _ => .error .invalid
  | some flag, [] =>
    if flag.takesValue then .ok (p, some flag) else (·, none) <$> p.takeSwitch flag
  | some flag, _ :: value =>
    if flag.takesValue then (·, none) <$> p.takeValue flag (String.ofList value)
    else .error .invalid

/-- Whether a word can be a value of its own. -/
def isValue (word : String) : Bool := word == "-" || !(word.startsWith "-")

/-- Reads words from left to right.  An option that waits for its value gets the next word. -/
def takeWords (p : Parsed) (waiting : Option Flag) : List String → Except Usage Parsed
  | [] => if waiting.isSome then .error .invalid else .ok p
  | word :: words =>
    match waiting with
    | some flag =>
      if isValue word then do takeWords (← p.takeValue flag word) none words else .error .invalid
    | none =>
      if word = "--" then words.foldlM takePath p
      else if isValue word then do takeWords (← p.takePath word) none words
      else
        match word.toList with
        | '-' :: '-' :: name => do
          let (p, waiting) ← p.takeLong name
          takeWords p waiting words
        | letters => do
          let (p, waiting) ← p.takeShort (letters.drop 1)
          takeWords p waiting words

end Parsed

/-- The options of a command line. -/
def readArguments (words : List String) : Except Usage Options := do
  (← Parsed.start.takeWords none words).finish

end HeavyHitters
