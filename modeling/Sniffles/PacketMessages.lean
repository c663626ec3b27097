import Sniffles.BitRead

/-!
# The message loop

`ReadPacket` copies a packet to the start of an uninitialised work buffer, reads
the packet header and then, for the accepted flags, one message after another
until the reader has passed the packet size. The reader is opened over the whole
work buffer, so the bytes behind the packet are visible to it.

A turn of the loop presents a command, a declared size and the address of the
message body to the switch. The four message types of the switch are parsed by
generated code, which is given the body's address and size; what it prints is
not modelled. The loop itself may fail to end, so runs of it are bounded by a
number of turns.
-/

namespace Sniffles.ReadPacket

open BitSequences MachineIntegers

def netMaxPayload : Nat := 262144 - 4

/-- The messages that the switch parses. -/
inductive MessageType where
  | CNETMsg_Tick
  | CNETMsg_SignonState
  | CSVCMsg_ServerInfo
  | CSVCMsg_PacketEntities
  deriving DecidableEq, Repr

/-- `switch (Cmd)`, by the values of `net_Tick`, `net_SignonState`,
    `svc_ServerInfo` and `svc_PacketEntities`. -/
def dispatch (cmd : BitVec 32) : Option MessageType :=
  if cmd = 4 then some .CNETMsg_Tick
  else if cmd = 7 then some .CNETMsg_SignonState
  else if cmd = 8 then some .CSVCMsg_ServerInfo
  else if cmd = 26 then some .CSVCMsg_PacketEntities
  else none

/-- The fields before the messages. -/
structure Header where
  nSeqNrIn : Int
  nSeqNrOut : Int
  nFlags : BitVec 32
  unk0 : Int
  unk1 : BitVec 32
  deriving DecidableEq, Repr

/-- What one turn of the loop presents to the switch. The parse address is an
    offset from the base pointer; the size is the `int` that was read. -/
structure Presented where
  cmd : BitVec 32
  size : BitVec 32
  parseBuffer : Int
  deriving DecidableEq, Repr

/-- The bytes of a presented message, as its address and `size_t` size give them. -/
def Presented.body (memory : Int → Byte) (message : Presented) : List Byte :=
  (List.range message.size.toNat).map fun index : Nat => memory (message.parseBuffer + index)

/-- The work buffer after the packet is copied to its start. -/
def workBuffer (packetData : List Byte) (data : Int → Byte) (address : Int) : Byte :=
  if 0 ≤ address ∧ address < packetData.length then packetData.getD address.toNat 0
  else data address

/-- The reader over the work buffer: constructed before the copy, rewound after. -/
def openPacket (packetData : List Byte) (data : Int → Byte) (storage : CBitRead) : CBitRead :=
  let buf := CBitRead.construct data storage netMaxPayload
  (buf.seek (workBuffer packetData data) 0).2

def readHeader (memory : Int → Byte) (buf : CBitRead) : Header × CBitRead :=
  let (nSeqNrIn, buf) := buf.readSBitLong memory 32
  let (nSeqNrOut, buf) := buf.readSBitLong memory 32
  let (nFlags, buf) := buf.readVarInt32 memory
  let (unk0, buf) := buf.readSBitLong memory 16
  let (unk1, buf) := buf.readSignedVarInt32 memory
  (⟨nSeqNrIn, nSeqNrOut, nFlags, unk0, unk1⟩, buf)

/-- `!nFlags || ((unsigned char)nFlags) >= 0xE1u`. -/
def admitted (nFlags : BitVec 32) : Bool := nFlags = 0 || nFlags.setWidth 8 ≥ 0xE1#8

/-- The body of the message loop. -/
def readMessage (memory : Int → Byte) (buf : CBitRead) : Presented × CBitRead :=
  let (cmd, buf) := buf.readVarInt32 memory
  let (size, buf) := buf.readVarInt32 memory
  let parseBuffer := buf.getNumBytesRead
  let buf := (buf.seekRelative memory (int32 (size.toInt * 8))).2
  (⟨cmd, size, parseBuffer⟩, buf)

/-- `while (buf.GetNumBytesRead() < size)`, if it ends before the given number of
    tests of its condition. -/
def messageLoop (memory : Int → Byte) (size : Int) : Nat → CBitRead →
    Option (List Presented × CBitRead)
  | 0, _ => none
  | tests + 1, buf =>
    if buf.getNumBytesRead < size then
      let (message, buf) := readMessage memory buf
      (messageLoop memory size tests buf).map fun (messages, buf) => (message :: messages, buf)
    else some ([], buf)

/-- What a call of `ReadPacket` that returns leaves behind: the presented
    messages, the reader and the returned size. -/
structure Finished where
  messages : List Presented
  buf : CBitRead
  returned : Int
  deriving DecidableEq, Repr

/-- `ReadPacket`, if its loop ends before the given number of tests. A packet
    below eight bytes is returned before a reader is made. -/
def readPacket (packetData : List Byte) (data : Int → Byte) (storage : CBitRead) (tests : Nat) :
    Option Finished :=
  if packetData.length < 8 then some ⟨[], storage, packetData.length⟩
  else
    let memory := workBuffer packetData data
    let (header, buf) := readHeader memory (openPacket packetData data storage)
    if admitted header.nFlags then
      (messageLoop memory packetData.length tests buf).map fun (messages, buf) =>
        ⟨messages, buf, packetData.length⟩
    else some ⟨[], buf, packetData.length⟩

/-- The readers at which a turn of the loop can begin or the loop can end. -/
inductive Reached (packetData : List Byte) (data : Int → Byte) (storage : CBitRead) :
    CBitRead → Prop where
  | entered
      (flags : admitted (readHeader (workBuffer packetData data)
        (openPacket packetData data storage)).1.nFlags = true) :
      Reached packetData data storage
        (readHeader (workBuffer packetData data) (openPacket packetData data storage)).2
  | turned (buf : CBitRead) (before : Reached packetData data storage buf)
      (more : buf.getNumBytesRead < packetData.length) :
      Reached packetData data storage (readMessage (workBuffer packetData data) buf).2

end Sniffles.ReadPacket
