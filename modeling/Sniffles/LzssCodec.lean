import Sniffles.Foundations.BitSequences
import Sniffles.Foundations.CheckedMemory

/-!
# The LZSS codec

`CLZSS` compresses a buffer into groups of up to eight tokens behind a command
byte, whose bits tell literal bytes from back-references. Candidates for a
back-reference come from 256 doubly linked chains, one for each byte value,
whose nodes lie in a circular array that is indexed by the low bits of the
input address.

Addresses of input bytes are natural numbers, with zero for null; nodes are
named by their index in the circular array, and output pointers are offsets.
Every access to the input, the output and the nodes is checked. The array has as
many nodes as the block that is asked for, whose size wraps as a 32-bit `size_t`;
`malloc` is taken to return a block of that size. A walk along a chain follows at
most as many nodes as there are, and the token loop takes at most one turn for
each input byte; a run that needs more is unfinished.
-/

namespace Sniffles.CLZSS

open BitSequences CheckedMemory

/-- `LZSS_ID`, which reads `LZSS` in memory. -/
def lzssId : BitVec 32 := 0x53535A4C

/-- `sizeof(lzss_header_t)`. -/
def headerSize : Nat := 8

def lzssLookShift : Nat := 4

def lzssLookAhead : Nat := 1 <<< lzssLookShift

/-- `lzss_node_t`. -/
structure Node where
  pData : Nat
  pPrev : Option Nat
  pNext : Option Nat
  deriving DecidableEq, Repr

/-- `lzss_list_t`. -/
structure NodeList where
  pStart : Option Nat
  pEnd : Option Nat
  deriving DecidableEq, Repr

/-- `sizeof(lzss_node_t)`. -/
def nodeSize : Nat := 16

/-- `m_nWindowSize * sizeof(lzss_node_t)`. -/
def targetBytes (windowSize : Nat) : Nat := windowSize * nodeSize % 4294967296

/-- `m_pHashTable` and `m_pHashTarget`, with the number of nodes in the block of the
    latter. -/
structure Hash where
  table : Byte → NodeList
  target : Nat → Node
  nodes : Nat

/-- Both arrays after `malloc` and `memset`. -/
def Hash.cleared (windowSize : Nat) : Hash where
  table _ := ⟨none, none⟩
  target _ := ⟨0, none, none⟩
  nodes := targetBytes windowSize / nodeSize

/-- The node behind a pointer into `m_pHashTarget`. -/
def Hash.node (hash : Hash) (index : Nat) : Checked Node :=
  if index < hash.nodes then .ok (hash.target index) else .error .outOfBounds

def Hash.setList (hash : Hash) (symbol : Byte) (list : NodeList) : Hash :=
  { hash with table := fun other => if other = symbol then list else hash.table other }

def Hash.setNode (hash : Hash) (index : Nat) (node : Node) : Hash :=
  { hash with target := fun other => if other = index then node else hash.target other }

/-- The codec's window size, the input bytes and the address of the first one. -/
structure Source where
  windowSize : Nat
  base : Nat
  bytes : List Byte

/-- The byte at an address. -/
def Source.load (source : Source) (address : Nat) : Checked Byte :=
  readAt source.bytes ((address : Int) - source.base)

/-- `(unsigned int)pData & (m_nWindowSize - 1)`. -/
def Source.targetIndex (source : Source) (pData : Nat) : Nat :=
  (pData % 4294967296) &&& (source.windowSize - 1)

/-- Take a node from the end of the list of a byte. -/
def Hash.removeLast (hash : Hash) (symbol : Byte) (pTarget : Node) : Checked Hash :=
  match pTarget.pPrev with
  | some pPrev => do
    let previous ← hash.node pPrev
    .ok ((hash.setList symbol { hash.table symbol with pEnd := some pPrev }).setNode pPrev
      { previous with pNext := none })
  | none => .ok (hash.setList symbol ⟨none, none⟩)

/-- Put the node at an index at the start of the list of a byte. -/
def Hash.insertFirst (hash : Hash) (symbol : Byte) (index pData : Nat) : Checked Hash :=
  let pStart := (hash.table symbol).pStart
  let stored := hash.setNode index ⟨pData, none, pStart⟩
  match pStart with
  | some start => do
    let first ← stored.node start
    .ok ((stored.setNode start { first with pPrev := some index }).setList symbol
      { hash.table symbol with pStart := some index })
  | none => .ok (stored.setList symbol ⟨some index, some index⟩)

/-- `BuildHash`. -/
def buildHash (source : Source) (hash : Hash) (pData : Nat) : Checked Hash := do
  let targetindex := source.targetIndex pData
  let pTarget ← hash.node targetindex
  let hash ← if pTarget.pData = 0 then .ok hash else do
    let symbol ← source.load pTarget.pData
    hash.removeLast symbol pTarget
  let symbol ← source.load pData
  hash.insertFirst symbol targetindex pData

/-- `for (i < encodedLength) BuildHash(pLookAhead++)`. -/
def buildHashes (source : Source) : Nat → Hash → Nat → Checked Hash
  | 0, hash, _ => .ok hash
  | count + 1, hash, pLookAhead => do
    let hash ← buildHash source hash pLookAhead
    buildHashes source count hash (pLookAhead + 1)

/-- `while (length-- && pHash->pData[matchLength] == pLookAhead[matchLength])`. -/
def matchFrom (source : Source) (pData pLookAhead : Nat) : Nat → Nat → Checked Nat
  | 0, matchLength => .ok matchLength
  | length + 1, matchLength => do
    let candidate ← source.load (pData + matchLength)
    let ahead ← source.load (pLookAhead + matchLength)
    if candidate = ahead then matchFrom source pData pLookAhead length (matchLength + 1)
    else .ok matchLength

/-- The best candidate so far. -/
structure Match where
  encodedLength : Nat
  pEncodedPosition : Nat
  deriving DecidableEq, Repr

/-- `if (matchLength > encodedLength)`. -/
def Match.improve (best : Match) (matchLength pData : Nat) : Match :=
  if matchLength > best.encodedLength then ⟨matchLength, pData⟩ else best

/-- `while (pHash)`, following at most the given number of nodes. -/
def search (source : Source) (hash : Hash) (pLookAhead lookAheadLength : Nat) :
    Nat → Option Nat → Match → Checked Match
  | _, none, best => .ok best
  | 0, some _, _ => .error .unfinished
  | nodes + 1, some pHash, best => do
    let node ← hash.node pHash
    let matchLength ← matchFrom source node.pData pLookAhead lookAheadLength 0
    let best := best.improve matchLength node.pData
    if matchLength = lookAheadLength then .ok best
    else search source hash pLookAhead lookAheadLength nodes node.pNext best

/-- The variables of `CompressNoAlloc`. -/
structure Encoder where
  hash : Hash
  output : List Byte
  pOutput : Nat
  pLookAhead : Nat
  inputLength : Int
  pEncodedPosition : Nat
  pCmdByte : Option Nat
  putCmdByte : Nat

/-- `*pOutput++ = byte`. -/
def Encoder.put (encoder : Encoder) (byte : Byte) : Checked Encoder := do
  let output ← writeCell encoder.output encoder.pOutput byte
  .ok { encoder with output := output, pOutput := encoder.pOutput + 1 }

/-- Replace the byte at `pCmdByte`. -/
def Encoder.updateCommand (encoder : Encoder) (update : Byte → Byte) : Checked Encoder := do
  let pCmdByte ← dereference encoder.pCmdByte
  let command ← readCell encoder.output pCmdByte
  let output ← writeCell encoder.output pCmdByte (update command)
  .ok { encoder with output := output }

/-- `pCmdByte = pOutput++; *pCmdByte = command`. -/
def Encoder.openCommand (encoder : Encoder) (command : Byte) : Checked Encoder := do
  let opened ← encoder.put command
  .ok { opened with pCmdByte := some encoder.pOutput }

/-- `((pLookAhead - pEncodedPosition - 1) >> LZSS_LOOKSHIFT)` and
    `((pLookAhead - pEncodedPosition - 1) << LZSS_LOOKSHIFT) | (encodedLength - 1)`. -/
def referenceBytes (pLookAhead pEncodedPosition encodedLength : Nat) : Byte × Byte :=
  let back := BitVec.ofInt 32 ((pLookAhead : Int) - pEncodedPosition - 1)
  ((back.sshiftRight lzssLookShift).setWidth 8,
    (back <<< lzssLookShift ||| BitVec.ofNat 32 (encodedLength - 1)).setWidth 8)

/-- Write the token of a match and return the number of input bytes it stands for. -/
def Encoder.putToken (source : Source) (encoder : Encoder) (best : Match) :
    Checked (Encoder × Nat) := do
  if best.encodedLength ≥ 3 then
    let encoder ← encoder.updateCommand fun command => command >>> 1 ||| 0x80
    let reference := referenceBytes encoder.pLookAhead best.pEncodedPosition best.encodedLength
    let encoder ← encoder.put reference.1
    let encoder ← encoder.put reference.2
    .ok (encoder, best.encodedLength)
  else
    let encoder ← encoder.updateCommand fun command => command >>> 1
    let byte ← source.load encoder.pLookAhead
    let encoder ← encoder.put byte
    .ok (encoder, 1)

/-- Make room for a command byte if one is due, and count the token. -/
def Encoder.beginToken (encoder : Encoder) : Checked Encoder := do
  let encoder ← if encoder.putCmdByte = 0 then encoder.openCommand 0 else .ok encoder
  .ok { encoder with putCmdByte := (encoder.putCmdByte + 1) &&& 0x07 }

/-- One turn of `while (inputLength > 0)` up to the test of `pEnd`. -/
def Encoder.turn (source : Source) (encoder : Encoder) : Checked Encoder := do
  let encoder ← encoder.beginToken
  let lookAheadLength := (min encoder.inputLength (lzssLookAhead : Int)).toNat
  let symbol ← source.load encoder.pLookAhead
  let best ← search source encoder.hash encoder.pLookAhead lookAheadLength source.windowSize
    (encoder.hash.table symbol).pStart ⟨0, encoder.pEncodedPosition⟩
  let (encoder, encodedLength) ← encoder.putToken source best
  let hash ← buildHashes source encodedLength encoder.hash encoder.pLookAhead
  .ok { encoder with
    hash := hash
    pLookAhead := encoder.pLookAhead + encodedLength
    inputLength := encoder.inputLength - encodedLength
    pEncodedPosition := best.pEncodedPosition }

/-- The token loop, for at most the given number of turns. It is abandoned when
    the output reaches `pEnd`. -/
def encodeLoop (source : Source) (pEnd : Nat) : Nat → Encoder → Checked (Option Encoder)
  | turns, encoder =>
    if encoder.inputLength > 0 then
      match turns with
      | 0 => .error .unfinished
      | turns + 1 => do
        let encoder ← encoder.turn source
        if encoder.pOutput ≥ pEnd then .ok none else encodeLoop source pEnd turns encoder
    else .ok (some encoder)

/-- Complete the last command byte and write the terminator. -/
def Encoder.finish (encoder : Encoder) : Checked Encoder := do
  let encoder ← if encoder.putCmdByte = 0 then encoder.openCommand 0x01
    else encoder.updateCommand fun command => (command >>> 1 ||| 0x80) >>> (7 - encoder.putCmdByte)
  let encoder ← encoder.put 0
  encoder.put 0

/-- The variables before the token loop, with the header written. -/
def Encoder.entered (source : Source) (output : List Byte) : Encoder where
  hash := Hash.cleared source.windowSize
  output := output
  pOutput := headerSize
  pLookAhead := source.base
  inputLength := source.bytes.length
  pEncodedPosition := 0
  pCmdByte := none
  putCmdByte := 0

/-- `CompressNoAlloc`. What is returned are the contents of the output buffer and
    `*pOutputSize`; `LittleLong` is the identity here. -/
def compressNoAlloc (source : Source) (pOutputBuf : List Byte) :
    Checked (Option (List Byte × Nat)) := do
  let inputLength := source.bytes.length
  if inputLength ≤ headerSize + 8 then .ok none
  else
    let pEnd := inputLength - headerSize - 8
    let output ← writeRange pOutputBuf 0 (wordBytes lzssId)
    let output ← writeRange output 4 (wordBytes (BitVec.ofNat 32 inputLength))
    let reached ← encodeLoop source pEnd inputLength (Encoder.entered source output)
    match reached with
    | none => .ok none
    | some encoder =>
      if encoder.inputLength ≠ 0 then .ok none
      else do
        let encoder ← encoder.finish
        .ok (some (encoder.output, encoder.pOutput))

/-- `Compress`, whose output buffer is as long as the input. -/
def compress (source : Source) (fresh : Nat → Byte) : Checked (Option (List Byte × Nat)) :=
  compressNoAlloc source (allocate fresh source.bytes.length)

/-- `IsCompressed`. -/
def isCompressed : Option (List Byte) → Checked Bool
  | none => .ok false
  | some pInput => do
    let id ← readVector 4 pInput 0
    .ok (joinBytes id = lzssId)

/-- `GetActualSize`. -/
def getActualSize : Option (List Byte) → Checked (BitVec 32)
  | none => .ok 0
  | some pInput => do
    let id ← readVector 4 pInput 0
    if joinBytes id = lzssId then
      let actualSize ← readVector 4 pInput 4
      .ok (joinBytes actualSize)
    else .ok 0

/-- The variables of `Uncompress`. -/
structure Decoder where
  pInput : Nat
  output : List Byte
  pOutput : Nat
  totalBytes : BitVec 32
  cmdByte : Nat
  getCmdByte : Nat
  deriving DecidableEq, Repr

/-- `for (i < count) *pOutput++ = *pSource++`. -/
def copyBytes : Nat → List Byte → Nat → Int → Checked (List Byte)
  | 0, output, _, _ => .ok output
  | count + 1, output, pOutput, pSource => do
    let byte ← readAt output pSource
    let output ← writeCell output pOutput byte
    copyBytes count output (pOutput + 1) (pSource + 1)

/-- Read the next command byte if the last one is used up, and count the token. -/
def Decoder.fetchCommand (input : List Byte) (decoder : Decoder) : Checked Decoder := do
  let decoder ← if decoder.getCmdByte = 0 then do
      let command ← readCell input decoder.pInput
      .ok { decoder with cmdByte := command.toNat, pInput := decoder.pInput + 1 }
    else .ok decoder
  .ok { decoder with getCmdByte := (decoder.getCmdByte + 1) &&& 0x07 }

/-- Decode one token; the flag is false at the terminator. -/
def Decoder.takeToken (input : List Byte) (decoder : Decoder) : Checked (Decoder × Bool) := do
  if decoder.cmdByte &&& 0x01 ≠ 0 then
    let high ← readCell input decoder.pInput
    let low ← readCell input (decoder.pInput + 1)
    let decoder := { decoder with pInput := decoder.pInput + 2 }
    let position := high.toNat <<< lzssLookShift ||| low.toNat >>> lzssLookShift
    let count := (low.toNat &&& 0x0F) + 1
    if count = 1 then .ok (decoder, false)
    else
      let output ← copyBytes count decoder.output decoder.pOutput
        ((decoder.pOutput : Int) - position - 1)
      .ok ({ decoder with
        output := output
        pOutput := decoder.pOutput + count
        totalBytes := decoder.totalBytes + BitVec.ofNat 32 count
        cmdByte := decoder.cmdByte >>> 1 }, true)
  else
    let byte ← readCell input decoder.pInput
    let output ← writeCell decoder.output decoder.pOutput byte
    .ok ({ decoder with
      pInput := decoder.pInput + 1
      output := output
      pOutput := decoder.pOutput + 1
      totalBytes := decoder.totalBytes + 1
      cmdByte := decoder.cmdByte >>> 1 }, true)

/-- `for (;;)`, for at most the given number of turns. -/
def decodeLoop (input : List Byte) : Nat → Decoder → Checked Decoder
  | 0, _ => .error .unfinished
  | turns + 1, decoder => do
    let decoder ← decoder.fetchCommand input
    let (decoder, more) ← decoder.takeToken input
    if more then decodeLoop input turns decoder else .ok decoder

/-- What a call of `Uncompress` leaves behind: the returned size, the output buffer
    and the number of input bytes it has consumed. -/
structure Uncompressed where
  returned : BitVec 32
  output : List Byte
  consumed : Nat
  deriving DecidableEq, Repr

/-- `Uncompress`. Each turn of its loop consumes input, so it cannot take more turns
    than there are input bytes. -/
def uncompress (pInput : Option (List Byte)) (pOutput : List Byte) : Checked Uncompressed := do
  let actualSize ← getActualSize pInput
  if actualSize = 0 then .ok ⟨0, pOutput, 0⟩
  else
    let input ← dereference pInput
    let decoder ← decodeLoop input input.length ⟨headerSize, pOutput, 0, 0, 0, 0⟩
    if decoder.totalBytes ≠ actualSize then .ok ⟨0, decoder.output, decoder.pInput⟩
    else .ok ⟨decoder.totalBytes, decoder.output, decoder.pInput⟩

end Sniffles.CLZSS
