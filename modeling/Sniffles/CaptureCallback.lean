import Sniffles.Foundations.CheckedMemory
import Sniffles.Foundations.MachineIntegers
import Sniffles.IceCipher

/-!
# The capture callback

`packet_loop_handler` receives one captured PDU, decrypts the payload of a game
server datagram and hands the wrapped packet to `ReadPacket`. The layers of the
PDU are those `find_pdu` reports, each of which may be absent. Every pointer the
callback follows and every buffer index it uses goes through checked memory.

Allocations succeed and return memory with arbitrary contents. Lengths are
`size_t` values of a 32-bit process, so a payload has fewer than `2^32` bytes.
Calling `ReadPacket` is recorded with its two arguments; nothing is said here about
whether the call comes back.
-/

namespace Sniffles

open BitSequences MachineIntegers CheckedMemory

/-- The fields of the IP layer that the callback prints. -/
structure IP where
  id : BitVec 16
  version : BitVec 4
  srcAddr : Vector Byte 4
  dstAddr : Vector Byte 4
  deriving DecidableEq

/-- The ports of the UDP layer. -/
structure UDP where
  sport : Nat
  dport : Nat
  deriving DecidableEq

/-- The payload layer. Its size is a 32-bit `size_t`. -/
structure RawPDU where
  payload : List Byte
  addressable : payload.length < 4294967296

/-- The layers of a captured PDU. -/
structure PDU where
  ip : Option IP
  udp : Option UDP
  raw : Option RawPDU

/-- Contents of fresh memory: the key schedule, the decrypted copy and the
    unwrapped packet. -/
structure FreshMemory where
  keysched : Nat → IceSubkey
  pDataOut : Nat → Byte
  packetData : Nat → Byte

/-- What one call of the callback leaves behind: the console output, the call of
    `ReadPacket` if there is one, and the returned flag. -/
structure Handled where
  console : List String
  readPacket : Option (List Byte × Int)
  returned : Bool
  deriving DecidableEq

namespace CaptureCallback

def gIceKey : List Byte :=
  [0x43, 0x53, 0x47, 0x4F, 0xCC, 0x34, 0x00, 0x00, 0x33, 0x0D, 0x00, 0x00, 0x4C, 0x03, 0x00, 0x00]

/-- Sixteen times the level of the game key fits. -/
theorem gameLevel_fits : (2 : Int) < 134217728 := by decide

/-- `IceKey ice(2); ice.set(g_iceKey)`. -/
def gameKey (keysched : Nat → IceSubkey) : IceKey :=
  (IceKey.create 2 gameLevel_fits keysched).set fun index => gIceKey.getD index 0

/-- `IPv4Address::to_string`. -/
def dottedQuad (address : Vector Byte 4) : String :=
  ".".intercalate (address.toList.map fun byte => toString byte.toNat)

/-- The lines printed before the payload is looked up. Both address lines show
    the destination port. -/
def banner (ip : IP) (udp : UDP) : List String :=
  ["\npacket " ++ toString ip.id.toNat ++ ":\n",
    "  ver: " ++ toString ip.version.toNat ++ "\n",
    "  src addr: " ++ dottedQuad ip.srcAddr ++ ":" ++ toString udp.dport ++ "\n",
    "  dst addr: " ++ dottedQuad ip.dstAddr ++ ":" ++ toString udp.dport ++ "\n"]

/-- `while (bytesLeft >= blockSize)`. The pointers are offsets into the payload
    and into the decrypted copy. -/
def decryptBlocks (ice : IceKey) (pData : List Byte) (p1 p2 : Nat) (bytesLeft : Int)
    (pDataOut : List Byte) : Checked (Nat × Nat × Int × List Byte) :=
  if _another : bytesLeft ≥ IceKey.blockSize then do
    let ctext ← readVector 8 pData p1
    let pDataOut ← writeRange pDataOut p2 (ice.decrypt IceKey.iceSboxesInit ctext).toList
    decryptBlocks ice pData (p1 + IceKey.blockSize.toNat) (p2 + IceKey.blockSize.toNat)
      (int32 (bytesLeft - IceKey.blockSize)) pDataOut
  else .ok (p1, p2, bytesLeft, pDataOut)
termination_by bytesLeft.toNat
decreasing_by
  unfold IceKey.blockSize int32 at *
  omega

/-- `memcpy(p2, p1, bytesLeft)`, whose count converts to `size_t`. -/
def copyRest (pData : List Byte) : Nat × Nat × Int × List Byte → Checked (List Byte)
  | (p1, p2, bytesLeft, pDataOut) => do
    let rest ← readRange pData p1 (uint32 bytesLeft)
    writeRange pDataOut p2 rest

/-- The decrypted copy of a payload. -/
def decryptPayload (ice : IceKey) (pData pDataOut : List Byte) : Checked (List Byte) := do
  let reached ← decryptBlocks ice pData 0 0 (int32 pData.length) pDataOut
  copyRest pData reached

/-- `*(uint32*)` of four bytes in memory order. -/
def loadUlong (stored : Vector Byte 4) : BitVec 32 :=
  IceKey.packHalf stored[3] stored[2] stored[1] stored[0]

/-- `_byteswap_ulong`. -/
def byteswapUlong (word : BitVec 32) : BitVec 32 :=
  IceKey.packHalf (word.setWidth 8) ((word >>> 8).setWidth 8) ((word >>> 16).setWidth 8)
    ((word >>> 24).setWidth 8)

def payloadSizeLine (size : Nat) : String := "  payload size: " ++ toString (int32 size) ++ "\n"

def deltaOffsetLine (deltaOffset : Byte) : String :=
  "  deltaOffset: " ++ toString deltaOffset.toNat ++ "\n"

def dataFinalSizeLine (dataFinalSize : BitVec 32) : String :=
  "  dataFinalSize: " ++ toString dataFinalSize.toInt ++ "\n"

/-- From `deltaOffset` to the call of `ReadPacket`. -/
def unwrapPacket (packetMemory : Nat → Byte) (pDataOut : List Byte) (size : Nat) :
    Checked (List String × Option (List Byte × Int)) := do
  let deltaOffset ← readCell pDataOut 0
  if deltaOffset.toNat > 0 ∧ uint32 (deltaOffset.toNat + 5) < size then
    let stored ← readVector 4 pDataOut (deltaOffset.toNat + 1)
    let dataFinalSize := byteswapUlong (loadUlong stored)
    let lines := [deltaOffsetLine deltaOffset, dataFinalSizeLine dataFinalSize]
    if uint32 (dataFinalSize.toNat + deltaOffset.toNat + 5) = size then
      let packetData := allocate packetMemory dataFinalSize.toNat
      let copied ← readRange pDataOut (deltaOffset.toNat + 5) dataFinalSize.toNat
      let packetData ← writeRange packetData 0 copied
      .ok (lines, some (packetData, int32 dataFinalSize.toNat))
    else .ok (lines, none)
  else .ok ([deltaOffsetLine deltaOffset], none)

/-- The body of the branch for source port 27015. -/
def handleGamePacket (fresh : FreshMemory) (ice : IceKey) (ip : IP) (udp : UDP)
    (found : Option RawPDU) : Checked Handled := do
  let raw ← dereference found
  let payload := raw.payload
  let size := payload.length
  let pDataOut ← decryptPayload ice payload (allocate fresh.pDataOut size)
  let (lines, call) ← unwrapPacket fresh.packetData pDataOut size
  .ok ⟨banner ip udp ++ [payloadSizeLine size] ++ lines, call, true⟩

def packetLoopHandler (fresh : FreshMemory) (eth : PDU) : Checked Handled :=
  match eth.ip with
  | none => .ok ⟨[], none, true⟩
  | some ip =>
    match eth.udp with
    | none => .ok ⟨[], none, true⟩
    | some udp =>
      if udp.sport = 27015 then
        handleGamePacket fresh (gameKey fresh.keysched) ip udp eth.raw
      else .ok ⟨[], none, true⟩

end CaptureCallback

end Sniffles
