import HeavyHitters.Text.Quoted

/-!
# Faults and errors

Two kinds of failure are kept apart.  A *fault* is an arithmetic step or an access that has no
value: a counter leaves its 32 bits, a remainder has no divisor, an index lies outside, a block of
memory would be too long.  After a fault there is no state to go on with.  An *error* is a request
that is refused with a reason; the structure it was put to is unchanged and goes on serving.

`Checked` computations can only fault, `Outcome` computations can do both.
-/

namespace HeavyHitters

/-- The arithmetic steps that can leave their range. -/
inductive Operation where
  | add
  | subtract
  | multiply
  | shiftRight
  deriving DecidableEq

/-- The verb of an operation in a fault's message. -/
def Operation.verb : Operation → String
  | .add => "add"
  | .subtract => "subtract"
  | .multiply => "multiply"
  | .shiftRight => "shift right"

/-- Why an arithmetic step or an access has no value. -/
inductive Fault where
  /-- The result does not fit the width of its type. -/
  | overflow (operation : Operation)
  /-- A remainder was asked for with the divisor zero. -/
  | zeroDivisor
  /-- The index is not below the length. -/
  | outOfBounds (length index : Nat)
  /-- A block of memory would be too long. -/
  | blockTooLong
  /-- The block of a hash table would be too long. -/
  | hashTableTooLong
  /-- A span of time has too many seconds. -/
  | durationTooLong
  deriving DecidableEq

/-- The message of a fault. -/
def Fault.message : Fault → String
  | .overflow operation => "attempt to " ++ operation.verb ++ " with overflow"
  | .zeroDivisor => "attempt to calculate the remainder with a divisor of zero"
  | .outOfBounds length index =>
    s!"index out of bounds: the len is {length} but the index is {index}"
  | .blockTooLong => "capacity overflow"
  | .hashTableTooLong => "Hash table capacity overflow"
  | .durationTooLong => "overflow in Duration::new"

/-- Why a file cannot be read.  The code is that of the operating system, if the request got as far
as there. -/
structure SystemError where
  code : Option Nat
  kind : String
  message : String
  deriving DecidableEq

namespace SystemError

/-- There is no file of that name. -/
def notFound : SystemError := ⟨some 2, "NotFound", "No such file or directory"⟩

/-- The file may not be read. -/
def permissionDenied : SystemError := ⟨some 13, "PermissionDenied", "Permission denied"⟩

/-- A name on the way to the file belongs to something other than a directory. -/
def notADirectory : SystemError := ⟨some 20, "NotADirectory", "Not a directory"⟩

/-- What the name belongs to has no bytes to look at. -/
def noSuchDevice : SystemError := ⟨some 19, "Uncategorized", "No such device"⟩

/-- The name is longer than names may be. -/
def nameTooLong : SystemError := ⟨some 36, "InvalidFilename", "File name too long"⟩

/-- Any other failure to read. -/
def inputOutput : SystemError := ⟨some 5, "Uncategorized", "Input/output error"⟩

/-- The name holds the character that ends names. -/
def nulInName : SystemError :=
  ⟨none, "InvalidInput", "file name contained an unexpected NUL byte"⟩

/-- The failure of a code of the operating system. -/
def ofCode (code : Nat) : SystemError :=
  match [notFound, permissionDenied, noSuchDevice, notADirectory, nameTooLong].find?
    (·.code == some code) with
  | some failure => failure
  | none => inputOutput

/-- The message of a failure, with its code in brackets. -/
def text (failure : SystemError) : String :=
  match failure.code with
  | some code => failure.message ++ s!" (os error {code})"
  | none => failure.message

end SystemError

/-- Why a request is refused. -/
inductive Error where
  /-- A structure cannot be built as asked. -/
  | config (subject reason : String)
  /-- A structure does not offer the operation. -/
  | unsupported (subject operation : String)
  /-- The trace file cannot be read. -/
  | unreadable (path : String) (cause : SystemError)
  /-- The trace file does not hold a whole number of records. -/
  | truncated (path : String) (length recordSize : Nat)
  /-- There is no packet to work on. -/
  | emptyTrace
  /-- An average has no value. -/
  | numericDomain (reason : String)
  deriving DecidableEq

namespace Error

/-- The one-sentence message of an error. -/
def message : Error → String
  | .config subject reason => "invalid configuration for " ++ subject ++ ": " ++ reason
  | .unsupported subject operation => operation ++ " is not supported by " ++ subject
  | .unreadable path cause =>
    "failed to read trace " ++ Text.quoted path ++ ": " ++ cause.text
  | .truncated path length recordSize =>
    "trace " ++ Text.quoted path ++ s!" is truncated: {length} bytes is not a multiple of "
      ++ s!"the {recordSize}-byte record"
  | .emptyTrace => "trace contains no records"
  | .numericDomain reason => "numeric domain error: " ++ reason

/-- The kind of an error followed by its named details in braces. -/
def details (kind : String) (fields : List (String × String)) : String :=
  kind ++ " \x7b " ++ ", ".intercalate (fields.map fun (name, value) => name ++ ": " ++ value)
    ++ " \x7d"

/-- The diagnostic form of an error: its kind and every detail, texts quoted. -/
def diagnostic : Error → String
  | .config subject reason =>
    details "Config" [("structure", Text.quoted subject), ("reason", Text.quoted reason)]
  | .unsupported subject operation =>
    details "Unsupported" [("structure", Text.quoted subject), ("operation", Text.quoted operation)]
  | .unreadable path cause =>
    let source := [("kind", cause.kind), ("message", Text.quoted cause.message)]
    details "Io" [("path", Text.quoted path),
      ("source", match cause.code with
        | some code => details "Os" (("code", toString code) :: source)
        | none => details "Error" source)]
  | .truncated path length recordSize =>
    details "Truncated" [("path", Text.quoted path), ("len", toString length),
      ("record_size", toString recordSize)]
  | .emptyTrace => "EmptyTrace"
  | .numericDomain reason => "NumericDomain(" ++ Text.quoted reason ++ ")"

end Error

/-- A computation ends without a value by a fault or by an error. -/
inductive Failure where
  | fault (fault : Fault)
  | error (error : Error)
  deriving DecidableEq

/-- A computation that can only fault. -/
abbrev Checked := Except Fault

/-- A computation that can fault or be refused. -/
abbrev Outcome := Except Failure

/-- Refuses a request. -/
def refuse {α : Type} (error : Error) : Outcome α := .error (.error error)

/-- A computation that can only fault, where refusals are possible too. -/
def Outcome.ofChecked {α : Type} : Checked α → Outcome α
  | .ok a => .ok a
  | .error fault => .error (.fault fault)

instance : MonadLift Checked Outcome := ⟨Outcome.ofChecked⟩

/-- The value of a request, or nothing where the structure does not offer it; any other failure
stays. -/
def supported {α : Type} : Outcome α → Outcome (Option α)
  | .ok a => .ok (some a)
  | .error (.error (.unsupported _ _)) => .ok none
  | .error failure => .error failure

@[simp] theorem Outcome.ofChecked_ok {α : Type} (a : α) : Outcome.ofChecked (.ok a) = .ok a := rfl

@[simp] theorem Outcome.ofChecked_error {α : Type} (fault : Fault) :
    Outcome.ofChecked (.error fault : Checked α) = .error (.fault fault) :=
  rfl

end HeavyHitters
