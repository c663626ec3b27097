import Sniffles.Foundations.MachineIntegers
import Sniffles.Foundations.BitSequences
import Sniffles.Foundations.WhileLoops

/-!
# The word-buffered bit reader

`CBitRead` walks a byte buffer through one pre-shifted 32-bit word, a count of
the bits still available in it and a pointer to the next word. The bytes that
do not fill a whole word stand at the head of the buffer, so that every later
word is complete and the end is reached exactly at a word boundary.

Pointers are byte offsets from `m_pData`, which is why the state records only
whether `m_pData` is null. The memory behind the pointer is passed to every
operation that dereferences it. Counts and positions are mathematical integers
wrapped where the source stores an `int`. A shift or a mask index outside its
defined range occurs in no state with between zero and 32 bits available.
-/

namespace Sniffles

open BitSequences MachineIntegers WhileLoops

/-- The members of the reader, in the order of the class. -/
structure CBitRead where
  inBufWord : BitVec 32
  bitsAvail : Int
  dataIn : Int
  bufferEnd : Int
  data : Bool
  overflow : Bool
  dataBits : Int
  dataBytes : Nat
  deriving DecidableEq, Repr

namespace CBitRead

/-- `s_nMaskTable`: entry `n` has its low `n` bits set, up to entry 32. -/
def maskTable (n : Nat) : BitVec 32 := BitVec.ofNat 32 (2 ^ n - 1)

def setOverflowFlag (r : CBitRead) : CBitRead := { r with overflow := true }

def isOverflowed (r : CBitRead) : Bool := r.overflow

/-- The position derived from the next-word pointer and the bits still in hand.
    The clamp to the bit count hides the fake word installed at the end. -/
def getNumBitsRead (r : CBitRead) : Int :=
  if r.data then
    let nCurOfs := (int32 r.dataIn).tdiv 4 - 1
    let nCurOfs := int32 (nCurOfs * 32)
    let nCurOfs := int32 (nCurOfs + (32 - r.bitsAvail))
    let nAdjust : Int := 8 * (r.dataBytes % 4 : Nat)
    let total := int32 (nCurOfs + nAdjust)
    if total < r.dataBits then total else r.dataBits
  else 0

/-- `>> 3` on an `int` rounds towards minus infinity. -/
def getNumBytesRead (r : CBitRead) : Int := int32 (r.getNumBitsRead + 7) / 8

def tell (r : CBitRead) : Int := r.getNumBitsRead

def getNumBitsLeft (r : CBitRead) : Int := int32 (r.dataBits - r.tell)

/-- Load the next word. Exactly at the end a fake one-bit word is installed and
    the pointer moves past the end; beyond the end only the flag is raised. -/
def grabNextDWord (memory : Int → Byte) (r : CBitRead) (bOverFlowImmediately : Bool) : CBitRead :=
  if r.dataIn = r.bufferEnd then
    { r with
      bitsAvail := 1
      inBufWord := 0
      dataIn := r.dataIn + 4
      overflow := r.overflow || bOverFlowImmediately }
  else if r.dataIn > r.bufferEnd then
    { r with overflow := true, inBufWord := 0 }
  else
    { r with inBufWord := loadWord memory r.dataIn, dataIn := r.dataIn + 4 }

def fetchNext (memory : Int → Byte) (r : CBitRead) : CBitRead :=
  grabNextDWord memory { r with bitsAvail := 32 } false

def readOneBit (memory : Int → Byte) (r : CBitRead) : Int × CBitRead :=
  let nRet : Int := (r.inBufWord &&& 1#32).toNat
  let r := { r with bitsAvail := int32 (r.bitsAvail - 1) }
  if r.bitsAvail = 0 then (nRet, r.fetchNext memory)
  else (nRet, { r with inBufWord := r.inBufWord >>> 1 })

/-- A copy of `readOneBit` with its refill written out. Behind the branch for the
    exact end the test for a pointer beyond it follows, and a word is loaded in
    either case. -/
def readBit (memory : Int → Byte) (r : CBitRead) : Int × CBitRead :=
  let nRet : Int := (r.inBufWord &&& 1#32).toNat
  let v10 : Bool := r.bitsAvail = 1
  let r := { r with bitsAvail := int32 (r.bitsAvail - 1) }
  if v10 then
    let r := { r with bitsAvail := 32 }
    let r :=
      if r.dataIn = r.bufferEnd then { r with bitsAvail := 1, inBufWord := 0, dataIn := r.dataIn + 4 }
      else r
    let r := if r.dataIn > r.bufferEnd then { r with overflow := true, inBufWord := 0 } else r
    (nRet, { r with inBufWord := loadWord memory r.dataIn, dataIn := r.dataIn + 4 })
  else (nRet, { r with inBufWord := r.inBufWord >>> 1 })

/-- Either the word holds all requested bits, or it is merged with the low bits
    of the next one. A merge returns zero whenever the overflow flag is set. -/
def readUBitLong (memory : Int → Byte) (r : CBitRead) (numbits : Nat) : BitVec 32 × CBitRead :=
  if r.bitsAvail ≥ numbits then
    let nRet := r.inBufWord &&& maskTable numbits
    let r := { r with bitsAvail := r.bitsAvail - numbits }
    if r.bitsAvail ≠ 0 then (nRet, { r with inBufWord := r.inBufWord >>> numbits })
    else (nRet, r.fetchNext memory)
  else
    let nRet := r.inBufWord
    let remaining : Int := numbits - r.bitsAvail
    let r := r.grabNextDWord memory true
    if r.overflow then (0, r)
    else
      (nRet ||| ((r.inBufWord &&& maskTable remaining.toNat) <<< r.bitsAvail.toNat),
        { r with
          bitsAvail := 32 - remaining
          inBufWord := r.inBufWord >>> remaining.toNat })

/-- The two opposite shifts extend the sign of the low bits. -/
def readSBitLong (memory : Int → Byte) (r : CBitRead) (numbits : Nat) : Int × CBitRead :=
  let (nRet, r) := r.readUBitLong memory numbits
  (((nRet <<< (32 - numbits)).sshiftRight (32 - numbits)).toInt, r)

/-- Five low bits and a class of two, which says whether 2, 4 or 7 more bits follow. -/
def readVarUBit (memory : Int → Byte) (r : CBitRead) : BitVec 32 × CBitRead :=
  let (ret, r) := r.readUBitLong memory 7
  let extended (numbits : Nat) : BitVec 32 × CBitRead :=
    let (more, r) := r.readUBitLong memory numbits
    (32#32 * more ||| (ret &&& 0xFFFFFF9F#32), r)
  match (ret &&& 0x60#32).toNat with
  | 32 => extended 2
  | 64 => extended 4
  | 96 => extended 7
  | _ => (ret, r)

/-- Four low bits and a class of two, which says whether 4, 8 or 28 more bits
    follow. The flag is the assertion made about the extended value. -/
def readUBitVar (memory : Int → Byte) (r : CBitRead) : BitVec 32 × Bool × CBitRead :=
  let (ret, r) := r.readUBitLong memory 6
  let extended (numbits least : Nat) : BitVec 32 × Bool × CBitRead :=
    let (more, r) := r.readUBitLong memory numbits
    let ret := (ret &&& 15#32) ||| (more <<< 4)
    (ret, decide (least ≤ ret.toNat), r)
  match (ret &&& (16#32 ||| 32#32)).toNat with
  | 16 => extended 4 16
  | 32 => extended 8 256
  | 48 => extended (32 - 4) 4096
  | _ => (ret, true, r)

/-- A `char` read through an `int`. -/
def readChar (memory : Int → Byte) (r : CBitRead) : Int × CBitRead := r.readSBitLong memory 8

/-- What `ReadString` leaves behind: its result, whether its assertions hold, the
    stores into the text in their order, the number of characters if it is asked
    for, and the reader. -/
structure ReadStringOutcome where
  result : Bool
  asserted : Bool
  stores : List (Int × Byte)
  outNumChars : Option Int
  reader : CBitRead
  deriving DecidableEq, Repr

/-- The loop of `ReadString`, for the number of rounds that it may take. -/
def readStringLoop (memory : Int → Byte) (maxLen : Int) (bLine : Bool) :
    Nat → Int → Bool → List (Int × Byte) → CBitRead →
      Option (Int × Bool × List (Int × Byte) × CBitRead)
  | 0, _, _, _, _ => none
  | rounds + 1, iChar, bTooSmall, stores, r =>
    let (char, r) := r.readChar memory
    let val := BitVec.ofInt 8 char
    if val = 0#8 then some (iChar, bTooSmall, stores, r)
    else if bLine ∧ val = 0x0A#8 then some (iChar, bTooSmall, stores, r)
    else if iChar < maxLen - 1 then
      readStringLoop memory maxLen bLine rounds (iChar + 1) bTooSmall (stores ++ [(iChar, val)]) r
    else readStringLoop memory maxLen bLine rounds iChar true stores r

/-- The text ends at a NUL, or at a newline if a line is asked for. Characters
    that do not fit are read and dropped. -/
def readString (memory : Int → Byte) (rounds : Nat) (r : CBitRead) (maxLen : Int) (bLine : Bool)
    (pOutNumChars : Bool) : Option ReadStringOutcome :=
  (readStringLoop memory maxLen bLine rounds 0 false [] r).map
    fun (iChar, bTooSmall, stores, r) =>
      { result := !r.isOverflowed && !bTooSmall
        asserted := decide (maxLen ≠ 0) && decide (iChar < maxLen)
        stores := stores ++ [(iChar, 0#8)]
        outNumChars := if pOutNumChars then some iChar else none
        reader := r }

/-- `ReadBits` under way: the address stored to next, the bits left to read, the
    stores in their order and the reader. -/
structure BulkRead where
  pOut : Int
  nBitsLeft : Int
  stores : List (Int × Byte)
  reader : CBitRead

/-- Read eight bits and store a byte. -/
def BulkRead.readByte (memory : Int → Byte) (s : BulkRead) : BulkRead :=
  let (word, r) := s.reader.readUBitLong memory 8
  ⟨s.pOut + 1, s.nBitsLeft - 8, s.stores ++ [(s.pOut, word.setWidth 8)], r⟩

/-- Read 32 bits and store a word of four bytes. -/
def BulkRead.readDword (memory : Int → Byte) (s : BulkRead) : BulkRead :=
  let (word, r) := s.reader.readUBitLong memory 32
  ⟨s.pOut + 4, s.nBitsLeft - 32, s.stores ++ storedFrom s.pOut (wordBytes word), r⟩

/-- Align output to a word boundary. -/
def alignLoop (memory : Int → Byte) : Loop BulkRead where
  test s := decide (s.pOut % 4 ≠ 0 ∧ s.nBitsLeft ≥ 8)
  body := BulkRead.readByte memory
  measure s := s.nBitsLeft.toNat
  lowers s passed := by
    have eight : s.nBitsLeft ≥ 8 := (of_decide_eq_true passed).2
    simp only [BulkRead.readByte]
    omega

/-- Read words. -/
def dwordLoop (memory : Int → Byte) : Loop BulkRead where
  test s := decide (s.nBitsLeft ≥ 32)
  body := BulkRead.readDword memory
  measure s := s.nBitsLeft.toNat
  lowers s passed := by
    have word : s.nBitsLeft ≥ 32 := of_decide_eq_true passed
    simp only [BulkRead.readDword]
    omega

/-- Read remaining bytes. -/
def byteLoop (memory : Int → Byte) : Loop BulkRead where
  test s := decide (s.nBitsLeft ≥ 8)
  body := BulkRead.readByte memory
  measure s := s.nBitsLeft.toNat
  lowers s passed := by
    have eight : s.nBitsLeft ≥ 8 := of_decide_eq_true passed
    simp only [BulkRead.readByte]
    omega

/-- Read remaining bits. A negative number of them has passed all three loops and
    now asks for an entry before the mask table, which has no defined result. -/
def BulkRead.readRest (memory : Int → Byte) (s : BulkRead) :
    Option (List (Int × Byte) × CBitRead) :=
  if s.nBitsLeft = 0 then some (s.stores, s.reader)
  else if s.nBitsLeft < 0 then none
  else
    let (word, r) := s.reader.readUBitLong memory s.nBitsLeft.toNat
    some (s.stores ++ [(s.pOut, word.setWidth 8)], r)

/-- The stores of a bulk read and the reader behind it. -/
def readBits (memory : Int → Byte) (r : CBitRead) (pOut nBits : Int) :
    Option (List (Int × Byte) × CBitRead) :=
  ((byteLoop memory).run ((dwordLoop memory).run
    ((alignLoop memory).run ⟨pOut, nBits, [], r⟩))).readRest memory

/-- `nBytes << 3` is taken modulo 2^32 as an `int`. -/
def readBytes (memory : Int → Byte) (r : CBitRead) (pOut nBytes : Int) :
    Option (Bool × List (Int × Byte) × CBitRead) :=
  (r.readBits memory pOut (int32 (8 * nBytes))).map
    fun (stores, r) => (!r.isOverflowed, stores, r)

/-- Two signed numbers of the same small magnitude become small unsigned ones. -/
def zigZagEncode32 (n : BitVec 32) : BitVec 32 := (n <<< 1) ^^^ n.sshiftRight 31

def zigZagDecode32 (n : BitVec 32) : BitVec 32 := (n >>> 1) ^^^ -(n &&& 1)

def zigZagEncode64 (n : BitVec 64) : BitVec 64 := (n <<< 1) ^^^ n.sshiftRight 63

def zigZagDecode64 (n : BitVec 64) : BitVec 64 := (n >>> 1) ^^^ -(n &&& 1)

def kMaxVarintBytes : Nat := 10

def kMaxVarint32Bytes : Nat := 5

/-- The loop of `ReadVarInt32`, for the number of bytes that are still allowed. -/
def readVarInt32Loop (memory : Int → Byte) :
    Nat → Nat → BitVec 32 → CBitRead → BitVec 32 × CBitRead
  | 0, _, result, r => (result, r)
  | left + 1, count, result, r =>
    let (b, r) := r.readUBitLong memory 8
    let result := result ||| ((b &&& 0x7F#32) <<< (7 * count))
    if b &&& 0x80#32 ≠ 0 then readVarInt32Loop memory left (count + 1) result r else (result, r)

def readVarInt32 (memory : Int → Byte) (r : CBitRead) : BitVec 32 × CBitRead :=
  readVarInt32Loop memory kMaxVarint32Bytes 0 0 r

def readSignedVarInt32 (memory : Int → Byte) (r : CBitRead) : BitVec 32 × CBitRead :=
  let (n, r) := r.readVarInt32 memory
  (zigZagDecode32 n, r)

/-- The loop of `ReadVarInt64` at any width, for the number of bytes that are
    still allowed. A byte is widened before its group is shifted to its place. -/
def readVarIntLoop (memory : Int → Byte) (width : Nat) :
    Nat → Nat → BitVec width → CBitRead → BitVec width × CBitRead
  | 0, _, result, r => (result, r)
  | left + 1, count, result, r =>
    let (b, r) := r.readUBitLong memory 8
    let b := b.setWidth width
    let result := result ||| ((b &&& BitVec.ofNat width 0x7F) <<< (7 * count))
    if b &&& BitVec.ofNat width 0x80 ≠ 0 then readVarIntLoop memory width left (count + 1) result r
    else (result, r)

def readVarInt64 (memory : Int → Byte) (r : CBitRead) : BitVec 64 × CBitRead :=
  readVarIntLoop memory 64 kMaxVarintBytes 0 0 r

def readSignedVarInt64 (memory : Int → Byte) (r : CBitRead) : BitVec 64 × CBitRead :=
  let (n, r) := r.readVarInt64 memory
  (zigZagDecode64 n, r)

/-- The partial word that stands before the first complete one. -/
def headWord (memory : Int → Byte) (nHead : Nat) : BitVec 32 :=
  let word := (memory 0).setWidth 32
  let word := if nHead > 1 then word ||| (memory 1).setWidth 32 <<< 8 else word
  if nHead > 2 then word ||| (memory 2).setWidth 32 <<< 16 else word

/-- Number of bytes that building the partial word steps over. -/
def headBytes (nHead : Nat) : Int :=
  1 + (if nHead > 1 then 1 else 0) + (if nHead > 2 then 1 else 0)

/-- Rebuild the word buffer for an absolute bit position. A position outside the
    declared bits raises the flag, moves to the last one and reports failure. -/
def seek (memory : Int → Byte) (r : CBitRead) (nPosition : Int) : Bool × CBitRead :=
  let bSucc : Bool := !(nPosition < 0 || nPosition > r.dataBits)
  let r := if bSucc then r else r.setOverflowFlag
  let nPosition := if bSucc then nPosition else r.dataBits
  let nHead := r.dataBytes % 4
  let nByteOfs := nPosition.tdiv 8
  if r.dataBytes < 4 ∨ (nHead ≠ 0 ∧ nByteOfs < nHead) then
    let word := if r.data then headWord memory nHead else r.inBufWord
    (bSucc,
      { r with
        dataIn := if r.data then headBytes nHead else 0
        inBufWord := word >>> (nPosition % 32).toNat
        bitsAvail := 8 * (nHead : Int) - nPosition % 32 })
  else
    let nAdjPosition := nPosition - 8 * (nHead : Int)
    let r := { r with dataIn := 4 * nAdjPosition.tdiv 32 + nHead }
    let r :=
      if r.data then grabNextDWord memory { r with bitsAvail := 32 } false
      else { r with inBufWord := 0, bitsAvail := 1 }
    (bSucc,
      { r with
        inBufWord := r.inBufWord >>> (nAdjPosition % 32).toNat
        bitsAvail := min r.bitsAvail (32 - nAdjPosition % 32) })

def seekRelative (memory : Int → Byte) (r : CBitRead) (nOffset : Int) : Bool × CBitRead :=
  r.seek memory (int32 (r.getNumBitsRead + nOffset))

/-- Point the reader at a buffer of `nBytes` bytes. The bit count `-1` asks for
    all of them. The members a null buffer leaves unset keep their old values. -/
def startReading (memory : Int → Byte) (r : CBitRead) (pData : Bool) (nBytes : Nat)
    (iStartBit nBits : Int) : CBitRead :=
  let r := { r with
    data := pData
    dataIn := 0
    dataBytes := nBytes
    dataBits := if nBits = -1 then int32 (8 * nBytes) else nBits
    overflow := false
    bufferEnd := nBytes }
  if pData then (r.seek memory iStartBit).2 else r

/-- `CBitRead(pData, nBytes)` with the default bit count, constructed over
    storage whose word, count and pointers are indeterminate. -/
def construct (memory : Int → Byte) (storage : CBitRead) (nBytes : Nat) : CBitRead :=
  startReading memory { storage with overflow := false, dataBits := -1, dataBytes := 0 }
    true nBytes 0 (-1)

end CBitRead

end Sniffles
