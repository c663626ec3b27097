import Sniffles.Foundations.MachineIntegers
import Sniffles.Foundations.CheckedMemory
import Sniffles.Foundations.RecordLayouts

/-!
# The coded input stream

`CodedInputStream` reads numbers, tags and texts from one array. It is given the
array's declared size, and its pointers are offsets from the start of the array.
There is no stream behind the array, so `Refresh` either finds that a limit has been
reached or follows the missing `input_`. Reads are checked against the bytes of the
array: what lies outside is a fault.

Numbers have a fast path for one byte, an unrolled path when a whole number is sure to
lie in the buffer, and a slow path that looks for the end of the buffer before each
byte. The members that only steer warnings, aliasing and extensions are left out.
-/

namespace Sniffles

open BitSequences Base128 CheckedMemory TaggedRecords RecordLayouts

/-- The members of the stream, in the order of the class. -/
structure CodedInputStream where
  buffer : Int
  bufferEnd : Int
  totalBytesRead : Int
  overflowBytes : Int
  lastTag : BitVec 32
  legitimateMessageEnd : Bool
  currentLimit : Int
  bufferSizeAfterLimit : Int
  totalBytesLimit : Int
  recursionDepth : Int
  recursionLimit : Int
  deriving DecidableEq, Repr

namespace CodedInputStream

def kMaxVarintBytes : Nat := 10
def kMaxVarint32Bytes : Nat := 5
def kDefaultTotalBytesLimit : Int := 67108864
def defaultRecursionLimit : Int := 100

/-- The constructor for an array and its declared size. -/
def construct (size : Int) : CodedInputStream where
  buffer := 0
  bufferEnd := size
  totalBytesRead := size
  overflowBytes := 0
  lastTag := 0
  legitimateMessageEnd := false
  currentLimit := size
  bufferSizeAfterLimit := 0
  totalBytesLimit := kDefaultTotalBytesLimit
  recursionDepth := 0
  recursionLimit := defaultRecursionLimit

def bufferSize (input : CodedInputStream) : Int := input.bufferEnd - input.buffer

def advance (input : CodedInputStream) (amount : Int) : CodedInputStream :=
  { input with buffer := input.buffer + amount }

/-- `Refresh` without a stream behind the array: it returns false at a limit and
    otherwise follows `input_`. -/
def refresh (input : CodedInputStream) : Checked Unit :=
  if input.bufferSizeAfterLimit > 0 ∨ input.overflowBytes > 0 ∨
      input.totalBytesRead = input.currentLimit then .ok ()
  else .error .nullDereference

/-- `buffer_ < buffer_end_ && *buffer_ < 0x80`: the byte, if it is there. -/
def singleByte (window : List Byte) (input : CodedInputStream) : Checked (Option Byte) :=
  if input.buffer < input.bufferEnd then do
    let byte ← readAt window input.buffer
    .ok (if byte < 0x80 then some byte else none)
  else .ok none

/-- Whether a number that starts here is sure to end in the buffer: there is room for the
    longest one, or the last byte ends one. -/
def holdsNumber (window : List Byte) (input : CodedInputStream) : Checked Bool :=
  if input.bufferSize ≥ kMaxVarintBytes then .ok true
  else if input.bufferEnd > input.buffer then do
    let last ← readAt window (input.bufferEnd - 1)
    .ok (!continues last)
  else .ok false

/-- The unrolled lines `b = *(ptr++); part |= (b & 0x7F) << shift; if (!(b & 0x80)) goto
    done;`, one for each shift. The flag says that `done` was reached. -/
def readGroups (window : List Byte) : List Nat → Int → BitVec 32 →
    Checked (Bool × BitVec 32 × Int)
  | [], ptr, part => .ok (false, part, ptr)
  | shift :: shifts, ptr, part => do
    let b ← readAt window ptr
    let part := part ||| (b &&& 0x7F).setWidth 32 <<< shift
    if continues b then readGroups window shifts (ptr + 1) part else .ok (true, part, ptr + 1)

/-- The loop that reads the bytes above 32 bits and drops them. -/
def discardGroups (window : List Byte) : Nat → Int → Checked (Option Int)
  | 0, _ => .ok none
  | left + 1, ptr => do
    let b ← readAt window ptr
    if continues b then discardGroups window left (ptr + 1) else .ok (some (ptr + 1))

/-- The value and the pointer behind it, or null for a number of more than ten bytes. -/
def readVarint32FromArray (window : List Byte) (buffer : Int) :
    Checked (Option (BitVec 32 × Int)) := do
  let (done, result, ptr) ← readGroups window [0, 7, 14, 21] buffer 0
  if done then .ok (some (result, ptr))
  else do
    let b ← readAt window ptr
    let result := result ||| b.setWidth 32 <<< 28
    if continues b then do
      let ended ← discardGroups window (kMaxVarintBytes - kMaxVarint32Bytes) (ptr + 1)
      .ok (ended.map fun ptr => (result, ptr))
    else .ok (some (result, ptr + 1))

/-- The do loop of `ReadVarint64Slow`, with the bytes that are still allowed. -/
def slowGroups (window : List Byte) : Nat → Nat → BitVec 64 → CodedInputStream →
    Checked (Option (BitVec 64) × CodedInputStream)
  | 0, _, _, input => .ok (none, input)
  | left + 1, count, result, input =>
    if input.buffer = input.bufferEnd then do
      input.refresh
      .ok (none, input)
    else do
      let b ← readAt window input.buffer
      let result := result ||| (b &&& 0x7F).setWidth 64 <<< (7 * count)
      let input := input.advance 1
      if continues b then slowGroups window left (count + 1) result input
      else .ok (some result, input)

def readVarint64Slow (window : List Byte) (input : CodedInputStream) :
    Checked (Option (BitVec 64) × CodedInputStream) :=
  slowGroups window kMaxVarintBytes 0 0 input

/-- The unrolled lines of `ReadVarint64Fallback`: three parts of 28, 28 and 14 bits. -/
def readVarint64FromArray (window : List Byte) (buffer : Int) :
    Checked (Option (BitVec 64 × Int)) := do
  let joined (part0 part1 part2 : BitVec 32) : BitVec 64 :=
    part0.setWidth 64 ||| part1.setWidth 64 <<< 28 ||| part2.setWidth 64 <<< 56
  let (done, part0, ptr) ← readGroups window [0, 7, 14, 21] buffer 0
  if done then .ok (some (joined part0 0 0, ptr))
  else do
    let (done, part1, ptr) ← readGroups window [0, 7, 14, 21] ptr 0
    if done then .ok (some (joined part0 part1 0, ptr))
    else do
      let (done, part2, ptr) ← readGroups window [0, 7] ptr 0
      if done then .ok (some (joined part0 part1 part2, ptr)) else .ok none

def readVarint64Fallback (window : List Byte) (input : CodedInputStream) :
    Checked (Option (BitVec 64) × CodedInputStream) := do
  if ← input.holdsNumber window then do
    match ← readVarint64FromArray window input.buffer with
    | none => .ok (none, input)
    | some (value, ptr) => .ok (some value, input.advance (ptr - input.buffer))
  else input.readVarint64Slow window

def readVarint32Slow (window : List Byte) (input : CodedInputStream) :
    Checked (Option (BitVec 32) × CodedInputStream) := do
  let (result, input) ← input.readVarint64Fallback window
  .ok (result.map (BitVec.setWidth 32), input)

def readVarint32Fallback (window : List Byte) (input : CodedInputStream) :
    Checked (Option (BitVec 32) × CodedInputStream) := do
  if ← input.holdsNumber window then do
    match ← readVarint32FromArray window input.buffer with
    | none => .ok (none, input)
    | some (value, ptr) => .ok (some value, { input with buffer := ptr })
  else input.readVarint32Slow window

def readVarint32 (window : List Byte) (input : CodedInputStream) :
    Checked (Option (BitVec 32) × CodedInputStream) := do
  match ← input.singleByte window with
  | some byte => .ok (some (byte.setWidth 32), input.advance 1)
  | none => input.readVarint32Fallback window

def readVarint64 (window : List Byte) (input : CodedInputStream) :
    Checked (Option (BitVec 64) × CodedInputStream) := do
  match ← input.singleByte window with
  | some byte => .ok (some (byte.setWidth 64), input.advance 1)
  | none => input.readVarint64Fallback window

/-- At the end of the buffer the message ends properly, unless the limit on all bytes was
    reached before the end of the array. -/
def readTagSlow (window : List Byte) (input : CodedInputStream) :
    Checked (BitVec 32 × CodedInputStream) :=
  if input.buffer = input.bufferEnd then do
    input.refresh
    let currentPosition := input.totalBytesRead - input.bufferSizeAfterLimit
    if currentPosition ≥ input.totalBytesLimit then
      .ok (0, { input with
        legitimateMessageEnd := decide (input.currentLimit = input.totalBytesLimit) })
    else .ok (0, { input with legitimateMessageEnd := true })
  else do
    let (result, input) ← input.readVarint64 window
    .ok ((result.map (BitVec.setWidth 32)).getD 0, input)

def readTagFallback (window : List Byte) (input : CodedInputStream) :
    Checked (BitVec 32 × CodedInputStream) := do
  if ← input.holdsNumber window then do
    match ← readVarint32FromArray window input.buffer with
    | none => .ok (0, input)
    | some (tag, ptr) => .ok (tag, { input with buffer := ptr })
  else if input.bufferSize = 0 ∧
      (input.bufferSizeAfterLimit > 0 ∨ input.totalBytesRead = input.currentLimit) ∧
        input.totalBytesRead - input.bufferSizeAfterLimit < input.totalBytesLimit then
    .ok (0, { input with legitimateMessageEnd := true })
  else input.readTagSlow window

def readTag (window : List Byte) (input : CodedInputStream) :
    Checked (BitVec 32 × CodedInputStream) := do
  match ← input.singleByte window with
  | some byte => .ok (byte.setWidth 32, { input.advance 1 with lastTag := byte.setWidth 32 })
  | none => do
    let (tag, input) ← input.readTagFallback window
    .ok (tag, { input with lastTag := tag })

def lastTagWas (input : CodedInputStream) (expected : BitVec 32) : Bool := input.lastTag = expected

def consumedEntireMessage (input : CodedInputStream) : Bool := input.legitimateMessageEnd

/-- Step over a tag if its shortest spelling, of one or two bytes, comes next. -/
def expectTag (window : List Byte) (input : CodedInputStream) (expected : BitVec 32) :
    Checked (Bool × CodedInputStream) :=
  if expected < 128 then
    if input.buffer < input.bufferEnd then do
      let first ← readAt window input.buffer
      if first.setWidth 32 = expected then .ok (true, input.advance 1) else .ok (false, input)
    else .ok (false, input)
  else if expected < 16384 then
    if input.bufferSize ≥ 2 then do
      let first ← readAt window input.buffer
      if first = (expected ||| 0x80).setWidth 8 then do
        let second ← readAt window (input.buffer + 1)
        if second = (expected >>> 7).setWidth 8 then .ok (true, input.advance 2)
        else .ok (false, input)
      else .ok (false, input)
    else .ok (false, input)
  else .ok (false, input)

def expectAtEnd (input : CodedInputStream) : Bool × CodedInputStream :=
  if input.buffer = input.bufferEnd ∧
      (input.bufferSizeAfterLimit ≠ 0 ∨ input.totalBytesRead = input.currentLimit) then
    (true, { input with lastTag := 0, legitimateMessageEnd := true })
  else (false, input)

/-- The bytes that `memcpy` and `append` take from the buffer. -/
def copyBytes (window : List Byte) (input : CodedInputStream) (size : Int) :
    Checked (List Byte) :=
  if 0 ≤ input.buffer ∧ 0 ≤ size then readRange window input.buffer.toNat size.toNat
  else .error .outOfBounds

/-- With nothing behind the array, a text that does not fit fails after the bytes that are
    left. -/
def readRaw (window : List Byte) (input : CodedInputStream) (size : Int) :
    Checked (Option (List Byte) × CodedInputStream) :=
  if input.bufferSize < size then do
    let _ ← input.copyBytes window input.bufferSize
    let input := input.advance input.bufferSize
    input.refresh
    .ok (none, input)
  else do
    let cells ← input.copyBytes window size
    .ok (some cells, input.advance size)

def readStringFallback (window : List Byte) (input : CodedInputStream) (size : Int) :
    Checked (Option (List Byte) × CodedInputStream) :=
  if input.bufferSize < size then do
    let _ ← if input.bufferSize = 0 then .ok [] else input.copyBytes window input.bufferSize
    let input := input.advance input.bufferSize
    input.refresh
    .ok (none, input)
  else do
    let text ← input.copyBytes window size
    .ok (some text, input.advance size)

def internalReadStringInline (window : List Byte) (input : CodedInputStream) (size : Int) :
    Checked (Option (List Byte) × CodedInputStream) :=
  if size < 0 then .ok (none, input)
  else if input.bufferSize ≥ size then
    if size > 0 then do
      let text ← input.copyBytes window size
      .ok (some text, input.advance size)
    else .ok (some [], input)
  else input.readStringFallback window size

def readString (window : List Byte) (input : CodedInputStream) (size : Int) :
    Checked (Option (List Byte) × CodedInputStream) :=
  if size < 0 then .ok (none, input) else input.internalReadStringInline window size

/-- The fallback compares the size of the buffer as an unsigned number. -/
def readLittleEndianFallback (width : Nat) (window : List Byte) (input : CodedInputStream) :
    Checked (Option (BitVec (8 * width)) × CodedInputStream) :=
  if input.bufferSize < 0 ∨ input.bufferSize ≥ width then do
    let cells ← input.copyBytes window width
    .ok (some (word (8 * width) cells), input.advance width)
  else do
    let (cells, input) ← input.readRaw window width
    .ok (cells.map (word (8 * width)), input)

/-- A word of the given number of bytes. -/
def readLittleEndian (width : Nat) (window : List Byte) (input : CodedInputStream) :
    Checked (Option (BitVec (8 * width)) × CodedInputStream) :=
  if input.bufferSize ≥ width then do
    let cells ← input.copyBytes window width
    .ok (some (word (8 * width) cells), input.advance width)
  else input.readLittleEndianFallback width window

def readLittleEndian32 (window : List Byte) (input : CodedInputStream) :
    Checked (Option (BitVec 32) × CodedInputStream) := input.readLittleEndian 4 window

def readLittleEndian64 (window : List Byte) (input : CodedInputStream) :
    Checked (Option (BitVec 64) × CodedInputStream) := input.readLittleEndian 8 window

def incrementRecursionDepth (input : CodedInputStream) : Bool × CodedInputStream :=
  let input := { input with recursionDepth := input.recursionDepth + 1 }
  (decide (input.recursionDepth ≤ input.recursionLimit), input)

def decrementRecursionDepth (input : CodedInputStream) : CodedInputStream :=
  if input.recursionDepth > 0 then { input with recursionDepth := input.recursionDepth - 1 }
  else input

end CodedInputStream

end Sniffles
