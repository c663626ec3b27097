import Sniffles.PacketMessages
import Sniffles.ByteCursor

/-!
# Framing over the bytes of the work buffer

The message loop is described here without a reader: a frame is the command and
the size read at a byte position together with the position of the body, and the
following frame starts where the relative seek lands. Each turn of the loop is
shown to present the frame at the reader's position and to leave the reader at
the following frame, so every run of the loop is a walk over frame starts.
-/

namespace Sniffles.ReadPacket

open BitSequences MachineIntegers CBitRead

/-- A command, a declared size and the byte position of the body. -/
structure Frame where
  cmd : BitVec 32
  size : BitVec 32
  body : Nat
  deriving DecidableEq, Repr

/-- The frame that starts at a byte position of the work buffer. -/
def frameAt (memory : Int → Byte) (start : Nat) : Frame :=
  let (cmd, next) := varint memory netMaxPayload start
  let (size, body) := varint memory netMaxPayload next
  ⟨cmd, size, body⟩

/-- The offset of the relative seek, in bits: eight times the signed size, wrapped. -/
def Frame.offset (frame : Frame) : Int := int32 (frame.size.toInt * 8)

/-- The start of the frame after a frame. -/
def Frame.following (frame : Frame) : Nat :=
  landing netMaxPayload (int32 (8 * frame.body + frame.offset))

/-- The message that a frame presents to the switch. -/
def Frame.presented (frame : Frame) : Presented := ⟨frame.cmd, frame.size, frame.body⟩

/-- The flags of a packet and the position after its header. -/
def flagsAt (memory : Int → Byte) : BitVec 32 := (varint memory netMaxPayload 8).1

def headerEnd (memory : Int → Byte) : Nat :=
  (varint memory netMaxPayload ((varint memory netMaxPayload 8).2 + 2)).2

theorem words : netMaxPayload % 4 = 0 := by decide

theorem large : 4 ≤ netMaxPayload := by decide

theorem room : 8 * netMaxPayload + 31 < 2147483648 := by decide

/-- A body starts within the work buffer. -/
theorem frameAt_body (memory : Int → Byte) (start : Nat) :
    (frameAt memory start).body ≤ netMaxPayload :=
  Nat.min_le_right _ _

/-- A declared size that ends within the work buffer leads right behind the body. -/
theorem Frame.following_forward (frame : Frame) (size : Nat) (declared : frame.size.toInt = size)
    (bounded : frame.body + size ≤ netMaxPayload) : frame.following = frame.body + size := by
  have capacity : netMaxPayload = 262140 := by decide
  have offset : frame.offset = size * 8 := by
    rw [Frame.offset, declared, int32_of_fits (by omega) (by omega)]
  rw [Frame.following, offset, int32_of_fits (by omega) (by omega), landing, if_pos (by omega)]
  omega

/-- A number of the frame runs past the end of the work buffer. -/
def truncated (memory : Int → Byte) (start : Nat) : Bool :=
  decide (netMaxPayload < varintStop memory netMaxPayload start) ||
    decide (netMaxPayload < varintStop memory netMaxPayload (varint memory netMaxPayload start).2)

/-- Reading the two numbers of a frame leaves the reader at its body, with the flag
    raised if one of them was cut off. -/
theorem readNumbers_frame (memory : Int → Byte) (raised : Bool) (buf : CBitRead) (start : Nat)
    (standing : AtByte memory netMaxPayload raised buf start) :
    (buf.readVarInt32 memory).1 = (frameAt memory start).cmd ∧
      ((buf.readVarInt32 memory).2.readVarInt32 memory).1 = (frameAt memory start).size ∧
      AtByte memory netMaxPayload (raised || truncated memory start)
        ((buf.readVarInt32 memory).2.readVarInt32 memory).2 (frameAt memory start).body := by
  obtain ⟨command, afterCommand⟩ := readVarInt32_byte memory _ raised buf start words large standing
  obtain ⟨declared, afterSize⟩ := readVarInt32_byte memory _ _ _ _ words large afterCommand
  rw [Bool.or_assoc] at afterSize
  exact ⟨command, declared, afterSize⟩

/-- One turn of the loop presents the frame at the reader's position and leaves
    the reader at the following frame. Before the end of the work buffer the flag
    is only raised by the numbers of the frame. -/
theorem readMessage_frame (memory : Int → Byte) (raised : Bool) (buf : CBitRead) (start : Nat)
    (standing : AtByte memory netMaxPayload raised buf start) :
    (readMessage memory buf).1 = (frameAt memory start).presented ∧
      ∃ flag, AtByte memory netMaxPayload flag (readMessage memory buf).2
          (frameAt memory start).following ∧
        ((frameAt memory start).following < netMaxPayload →
          flag = (raised || truncated memory start)) := by
  obtain ⟨command, declared, afterSize⟩ := readNumbers_frame memory raised buf start standing
  have address := (getNumBytesRead_byte memory _ _ _ _ afterSize room).2
  have whole : (frameAt memory start).offset % 8 = 0 := by
    unfold Frame.offset int32
    omega
  have landed := seekRelative_byte memory _ _ _ _ (frameAt memory start).offset afterSize
    (by decide) room whole
  have presented : (readMessage memory buf).1 = (frameAt memory start).presented := by
    simp only [readMessage, Frame.presented, command, declared, address]
  have moved : (readMessage memory buf).2 =
      (((buf.readVarInt32 memory).2.readVarInt32 memory).2.seekRelative memory
        (frameAt memory start).offset).2 := by
    simp only [readMessage, Frame.offset, declared]
  rw [moved]
  exact ⟨presented, landed⟩

/-- The opened reader stands at the first byte of the packet. -/
theorem openPacket_start (packetData : List Byte) (data : Int → Byte) (storage : CBitRead) :
    At (workBuffer packetData data) netMaxPayload false (openPacket packetData data storage) 0 := by
  have constructed := construct_at data storage netMaxPayload (by decide) (by decide)
  exact (seek_at (workBuffer packetData data) netMaxPayload false _ 0 constructed.opened
    constructed.flag (by decide) (Nat.zero_le _)).2

/-- Reading the header yields the flags stored after the two sequence numbers and
    leaves the reader after the header, with its flag clear. -/
theorem readHeader_end (memory : Int → Byte) (buf : CBitRead)
    (standing : At memory netMaxPayload false buf 0) :
    (readHeader memory buf).1.nFlags = flagsAt memory ∧
      AtByte memory netMaxPayload false (readHeader memory buf).2 (headerEnd memory) := by
  have capacity : 8 * netMaxPayload = 2097120 := by decide
  have length : netMaxPayload = 262140 := by decide
  obtain ⟨-, first⟩ := readSBitLong_at memory netMaxPayload buf 0 32 standing
    (by decide) (by decide) (by omega)
  obtain ⟨-, second⟩ := readSBitLong_at memory netMaxPayload _ _ 32 first
    (by decide) (by decide) (by omega)
  have sequenced : AtByte memory netMaxPayload false
      ((buf.readSBitLong memory 32).2.readSBitLong memory 32).2 8 := ⟨by omega, second⟩
  obtain ⟨flags, afterFlags⟩ := readVarInt32_byte memory _ _ _ _ words large sequenced
  have stop := varintStop_bounds memory netMaxPayload 8
  have within : (false || decide (netMaxPayload < varintStop memory netMaxPayload 8)) = false := by
    simp only [Bool.false_or, decide_eq_false_iff_not]
    omega
  have reached : (varint memory netMaxPayload 8).2 = varintStop memory netMaxPayload 8 := by
    simp only [varint]
    omega
  rw [within, reached] at afterFlags
  obtain ⟨-, third⟩ := readSBitLong_at memory netMaxPayload _ _ 16 afterFlags.standing
    (by decide) (by decide) (by omega)
  have sum : 8 * varintStop memory netMaxPayload 8 + 16 =
      8 * (varintStop memory netMaxPayload 8 + 2) := by omega
  rw [sum] at third
  obtain ⟨-, afterHeader⟩ := readVarInt32_byte memory _ _ _ _ words large ⟨by omega, third⟩
  have last := varintStop_bounds memory netMaxPayload (varintStop memory netMaxPayload 8 + 2)
  have clear : (false || decide (netMaxPayload < varintStop memory netMaxPayload
      (varintStop memory netMaxPayload 8 + 2))) = false := by
    simp only [Bool.false_or, decide_eq_false_iff_not]
    omega
  rw [clear, ← reached] at afterHeader
  exact ⟨flags, afterHeader⟩

/-- A packet of at least eight bytes enters the loop behind its header if its flags
    are accepted, and presents nothing otherwise. -/
theorem readPacket_flags (packetData : List Byte) (data : Int → Byte) (storage : CBitRead)
    (tests : Nat) (long : 8 ≤ packetData.length) :
    readPacket packetData data storage tests =
      let buf := (readHeader (workBuffer packetData data) (openPacket packetData data storage)).2
      if admitted (flagsAt (workBuffer packetData data)) then
        (messageLoop (workBuffer packetData data) packetData.length tests buf).map
          fun (messages, buf) => ⟨messages, buf, packetData.length⟩
      else some ⟨[], buf, packetData.length⟩ := by
  have read := (readHeader_end (workBuffer packetData data) (openPacket packetData data storage)
    (openPacket_start packetData data storage)).1
  rw [readPacket, if_neg (by omega)]
  simp only [read]

/-- The frame starts that the loop visits: the end of a header with accepted flags,
    and the following frame of every start before the packet size. -/
inductive Start (memory : Int → Byte) (size : Nat) : Nat → Prop where
  | header (flags : admitted (flagsAt memory) = true) : Start memory size (headerEnd memory)
  | following (start : Nat) (before : Start memory size start) (more : start < size) :
      Start memory size (frameAt memory start).following

/-- Every reader of the loop stands at a visited frame start.

Induct over the turns: the header is the first start and each turn moves to the
following frame. -/
theorem Reached.start {packetData : List Byte} {data : Int → Byte} {storage buf : CBitRead}
    (reached : Reached packetData data storage buf) :
    ∃ start raised, Start (workBuffer packetData data) packetData.length start ∧
      AtByte (workBuffer packetData data) netMaxPayload raised buf start := by
  induction reached with
  | entered flags =>
    obtain ⟨read, after⟩ := readHeader_end (workBuffer packetData data)
      (openPacket packetData data storage) (openPacket_start packetData data storage)
    rw [read] at flags
    exact ⟨_, _, .header flags, after⟩
  | turned buf before more inductionHypothesis =>
    obtain ⟨start, raised, visited, standing⟩ := inductionHypothesis
    rw [(getNumBytesRead_byte _ _ _ _ _ standing room).2] at more
    obtain ⟨-, flag, moved, -⟩ := readMessage_frame _ raised buf start standing
    exact ⟨_, flag, .following start visited (by omega), moved⟩

/-- Conversely, a reader of the loop stands at every visited frame start. -/
theorem Start.reached {packetData : List Byte} {data : Int → Byte} {start : Nat}
    (visited : Start (workBuffer packetData data) packetData.length start) (storage : CBitRead) :
    ∃ buf raised, Reached packetData data storage buf ∧
      AtByte (workBuffer packetData data) netMaxPayload raised buf start := by
  induction visited with
  | header flags =>
    obtain ⟨read, after⟩ := readHeader_end (workBuffer packetData data)
      (openPacket packetData data storage) (openPacket_start packetData data storage)
    exact ⟨_, _, .entered (by rw [read]; exact flags), after⟩
  | following start before more inductionHypothesis =>
    obtain ⟨buf, raised, reached, standing⟩ := inductionHypothesis
    have position := (getNumBytesRead_byte _ _ _ _ _ standing room).2
    obtain ⟨-, flag, moved, -⟩ := readMessage_frame _ raised buf start standing
    exact ⟨_, flag, .turned buf reached (by omega), moved⟩

end Sniffles.ReadPacket
