import HeavyHitters.Tally

/-!
# Packet traces

A trace is the sequence of the packets' keys together with the exact size of every flow.  It is made
from keys in memory or from the bytes of a file: records of one fixed size, each starting with its
packet's key in four bytes, the least significant first.  The rest of a record is not looked at.

Exact rankings list every flow, every network, or every part of a key under a mask, with its number
of packets.  They are the truth that structures are scored against.
-/

namespace HeavyHitters

/-- The keys of the packets in order, and the number of packets of each flow. -/
structure Trace where
  keys : Array Key
  counts : Tally Key

/-- What opening a file shows.  A directory can be opened and has a length, but no bytes. -/
inductive OpenFile where
  | regular (bytes : ByteArray)
  | directory (length : Nat)

namespace OpenFile

/-- The length of a directory with few entries: one block. -/
def directoryLength : Nat := 4096

/-- The length of an open file. -/
def length : OpenFile → Nat
  | .regular bytes => bytes.size
  | .directory length => length

end OpenFile

namespace Trace

/-- A trace of keys in memory, of which there has to be one. -/
def ofKeys (keys : Array Key) : Outcome Trace := do
  if keys.isEmpty then refuse .emptyTrace
  return ⟨keys, ← Tally.ofRecords (keys.toList.map (⟨·, 1⟩))⟩

/-! ## Files -/

/-- The bytes of a key at the start of a record. -/
def keyWidth : Nat := 4

/-- The record size that files have by default. -/
def defaultRecordSize : Nat := 21

/-- The byte at a position, 0 past the end. -/
def byteAt (bytes : ByteArray) (position : Nat) : UInt32 := (bytes[position]?.getD 0).toUInt32

/-- The key in the four bytes from a position on. -/
def keyFrom (bytes : ByteArray) (position : Nat) : Key :=
  byteAt bytes position ||| (byteAt bytes (position + 1) <<< 8)
    ||| (byteAt bytes (position + 2) <<< 16) ||| (byteAt bytes (position + 3) <<< 24)

/-- The bytes of a key. -/
def keyBytes (key : Key) : List UInt8 :=
  [key.toUInt8, (key >>> 8).toUInt8, (key >>> 16).toUInt8, (key >>> 24).toUInt8]

/-- The bytes of a file with these keys, each followed by what fills its record. -/
def fileBytes (records : List (Key × List UInt8)) : List UInt8 :=
  records.flatMap fun (key, filling) => keyBytes key ++ filling

/-- The trace in the bytes of a file. -/
def ofBytes (bytes : ByteArray) (recordSize : Nat) : Outcome Trace :=
  ofKeys ((Array.range (bytes.size / recordSize)).map fun i => keyFrom bytes (i * recordSize))

/-- The trace in a file, given the file's path and either what opening it shows or why it cannot be
opened.  A record size with no room for the key is refused before the file is looked at, and a
length that does not fit before the bytes are. -/
def ofFile (path : String) (opened : Except SystemError OpenFile) (recordSize : Nat) :
    Outcome Trace := do
  if recordSize < keyWidth then
    refuse (.config "Dataset"
      s!"record size {recordSize} is smaller than the {keyWidth}-byte key")
  match opened with
  | .error cause => refuse (.unreadable path cause)
  | .ok file =>
    if file.length = 0 then refuse .emptyTrace
    if file.length % recordSize ≠ 0 then refuse (.truncated path file.length recordSize)
    match file with
    | .regular bytes => ofBytes bytes recordSize
    | .directory _ => refuse (.unreadable path SystemError.noSuchDevice)

/-! ## Exact sizes -/

/-- The number of packets. -/
def packets (t : Trace) : Nat := t.keys.size

/-- The number of flows. -/
def flows (t : Trace) : Nat := t.counts.size

/-- The key of a packet. -/
def keyAt (t : Trace) (i : Nat) : Checked Key :=
  match t.keys[i]? with
  | some key => .ok key
  | none => .error (.outOfBounds t.keys.size i)

/-- The number of packets of a flow. -/
def exactCount (t : Trace) (key : Key) : Int := Tally.count t.counts key

/-- Every flow, by rank. -/
def ranking (t : Trace) : List (Record Key) := Tally.ranking t.counts

/-- Flow records regrouped and added up, by rank. -/
def regroup {κ : Type} [Ord κ] (group : Key → κ) (flows : List (Record Key)) :
    Checked (List (Record κ)) :=
  mergeRanked (flows.map fun r => ⟨group r.key, r.count⟩)

/-- Every network, by rank. -/
def networkRanking (t : Trace) : Checked (List (Record Network)) :=
  regroup networkOf (Tally.records t.counts)

/-- Every part of a key under a mask, by rank. -/
def maskedRanking (t : Trace) (mask : Key) : Checked (List (Record Key)) :=
  regroup (· &&& mask) (Tally.records t.counts)

end Trace

end HeavyHitters
