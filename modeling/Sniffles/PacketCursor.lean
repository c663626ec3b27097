import Sniffles.Foundations.BitSequences
import Sniffles.Foundations.CheckedMemory
import Sniffles.Foundations.MachineIntegers

/-!
# The cursor of a packet

`CPacket` reads fields of fixed sizes and blocks whose length the packet itself
holds. No reader compares the cursor with the end of the buffer, so a call reads
behind it when the buffer ends early, and a skipped block may carry the cursor
anywhere. A run of calls keeps the cursor inside, moving forward, exactly when
each call finds its fields whole and a block that fits.

Reads are checked here. The cursor is a `size_t` and wraps. Assertions are
compiled out, as in the release configuration.
-/

namespace Sniffles

open BitSequences CheckedMemory MachineIntegers

/-- `CPacket`: the buffer, whose size is a `size_t`, and the cursor. -/
structure CPacket where
  packetBuffer : List Byte
  packetBufferPos : Nat
  sized : packetBuffer.length < 4294967296

namespace CPacket

/-- `dem_stop`. -/
def demStop : Byte := 7

/-- `sizeof(packetcmdinfo_t)`: flags and eighteen coordinates for each of two clients. -/
def sizeofPacketcmdinfo : Nat := 2 * (4 + 18 * 4)

/-- `Open`, for a pointer that may be null. -/
def openPacket (data : Option (List Byte)) : Option CPacket :=
  data.bind fun bytes =>
    if 0 < bytes.length then
      if sized : bytes.length < 4294967296 then some ⟨bytes, 0, sized⟩ else none
    else none

/-- `m_packetBufferPos += bytes`. -/
def moved (self : CPacket) (bytes : Int) : CPacket :=
  { self with packetBufferPos := uint32 (self.packetBufferPos + bytes) }

/-- `*(int32 *)(&m_packetBuffer[m_packetBufferPos])`. -/
def readInt32 (self : CPacket) : Checked (BitVec 32) := do
  let stored ← readVector 4 self.packetBuffer self.packetBufferPos
  .ok (joinBytes stored)

/-- `ReadSequenceInfo`: both numbers, unless the buffer is empty. -/
def readSequenceInfo (self : CPacket) : Checked (Option (BitVec 32 × BitVec 32) × CPacket) :=
  if self.packetBuffer.length = 0 then .ok (none, self)
  else do
    let nSeqNrIn ← self.readInt32
    let self := self.moved 4
    let nSeqNrOut ← self.readInt32
    .ok (some (nSeqNrIn, nSeqNrOut), self.moved 4)

/-- `ReadCmdInfo`: the bytes of the structure. -/
def readCmdInfo (self : CPacket) : Checked (Option (List Byte) × CPacket) :=
  if self.packetBuffer.length = 0 then .ok (none, self)
  else do
    let info ← readRange self.packetBuffer self.packetBufferPos sizeofPacketcmdinfo
    .ok (some info, self.moved sizeofPacketcmdinfo)

/-- `ReadCmdHeader`: the command, and the tick and the player slot unless the end tag is
    missing. -/
def readCmdHeader (self : CPacket) :
    Checked (Option (Byte × Option (BitVec 32 × Byte)) × CPacket) :=
  if self.packetBuffer.length = 0 then .ok (none, self)
  else do
    let cmd ← readCell self.packetBuffer self.packetBufferPos
    let self := self.moved 1
    if cmd ≤ 0 then .ok (some (demStop, none), self)
    else do
      let tick ← self.readInt32
      let self := self.moved 4
      let playerSlot ← readCell self.packetBuffer self.packetBufferPos
      .ok (some (cmd, some (tick, playerSlot)), self.moved 1)

/-- A call of `ReadRawData`: the cursor before it, what it returns, the bytes it stores in
    the caller's buffer and the packet after it. -/
structure RawData where
  before : Nat
  returned : Int
  stored : List Byte
  after : CPacket

/-- `ReadRawData`. The caller's buffer may be null; the count of `memcpy` is a `size_t`. -/
def readRawData (self : CPacket) (buffer : Bool) (length : Int) : Checked RawData :=
  if self.packetBuffer.length = 0 then .ok ⟨self.packetBufferPos, 0, [], self⟩
  else do
    let size ← self.readInt32
    let next := self.moved 4
    if buffer ∧ length < size.toInt then .ok ⟨self.packetBufferPos, -1, [], next⟩
    else if buffer then do
      let stored ← readRange next.packetBuffer next.packetBufferPos size.toNat
      .ok ⟨self.packetBufferPos, size.toInt, stored, next.moved size.toInt⟩
    else .ok ⟨self.packetBufferPos, size.toInt, [], next.moved size.toInt⟩

/-- `ReadUserCmd`: the sequence number and the block behind it, whose return value
    overwrites the size. -/
def readUserCmd (self : CPacket) (buffer : Bool) (size : Int) :
    Checked (BitVec 32 × Option RawData × CPacket) :=
  if self.packetBuffer.length = 0 then .ok (0, none, self)
  else do
    let outgoingSequence ← self.readInt32
    let raw ← (self.moved 4).readRawData buffer size
    .ok (outgoingSequence, some raw, raw.after)

/-- The calls of a user of the class, with any arguments. -/
inductive Call where
  | readSequenceInfo
  | readCmdInfo
  | readCmdHeader
  | readUserCmd (buffer : Bool) (size : Int)
  | readRawData (buffer : Bool) (length : Int)

/-- What a call leaves: the packet, and the call of `ReadRawData` that it is or makes. -/
structure Outcome where
  after : CPacket
  raw : Option RawData

/-- Make a call. -/
def Call.perform (self : CPacket) : Call → Checked Outcome
  | .readSequenceInfo => do
    let (_, after) ← self.readSequenceInfo
    .ok ⟨after, none⟩
  | .readCmdInfo => do
    let (_, after) ← self.readCmdInfo
    .ok ⟨after, none⟩
  | .readCmdHeader => do
    let (_, after) ← self.readCmdHeader
    .ok ⟨after, none⟩
  | .readUserCmd buffer size => do
    let (_, raw, after) ← self.readUserCmd buffer size
    .ok ⟨after, raw⟩
  | .readRawData buffer length => do
    let raw ← self.readRawData buffer length
    .ok ⟨raw.after, some raw⟩

/-- A call has kept the buffer and moved the cursor forward inside it, and a
    `ReadRawData` that returned -1 has not moved it. -/
structure Kept (packet : CPacket) (outcome : Outcome) : Prop where
  buffer : outcome.after.packetBuffer = packet.packetBuffer
  forward : packet.packetBufferPos ≤ outcome.after.packetBufferPos
  inside : outcome.after.packetBufferPos ≤ packet.packetBuffer.length
  raw : ∀ raw ∈ outcome.raw, packet.packetBufferPos ≤ raw.before ∧
    raw.before ≤ raw.after.packetBufferPos ∧
    (raw.returned = -1 → raw.after.packetBufferPos = raw.before)

/-- Every call of a run reads inside the buffer and keeps the cursor. -/
def Stays (self : CPacket) : List Call → Prop
  | [] => self.packetBufferPos ≤ self.packetBuffer.length
  | call :: rest => ∃ outcome, call.perform self = .ok outcome ∧ Kept self outcome ∧
      Stays outcome.after rest

/-- The block at the cursor fits: its length field is whole, and the block ends inside the
    buffer. For a caller's buffer it is not longer than that; a skipped block may also
    have one of the lengths -4, -3 and -2, which takes back part of the length field. -/
def RawFits (self : CPacket) (buffer : Bool) (length : Int) : Prop :=
  ∃ size : BitVec 32, self.readInt32 = .ok size ∧
    if buffer then size.toInt ≤ length ∧
      self.packetBufferPos + 4 + size.toNat ≤ self.packetBuffer.length
    else size.toInt ≠ -1 ∧
      (self.packetBufferPos + 4 + size.toNat ≤ self.packetBuffer.length ∨
        -4 ≤ size.toInt ∧ size.toInt < 0)

/-- The fields that a call reads end inside the buffer. -/
def Call.Fits (self : CPacket) : Call → Prop
  | .readSequenceInfo => self.packetBufferPos + 8 ≤ self.packetBuffer.length
  | .readCmdInfo => self.packetBufferPos + sizeofPacketcmdinfo ≤ self.packetBuffer.length
  | .readCmdHeader => ∃ cmd, self.packetBuffer[self.packetBufferPos]? = some cmd ∧
      (cmd ≠ 0 → self.packetBufferPos + 6 ≤ self.packetBuffer.length)
  | .readUserCmd buffer size => self.packetBufferPos + 4 ≤ self.packetBuffer.length ∧
      (self.moved 4).RawFits buffer size
  | .readRawData buffer length => self.RawFits buffer length

/-- Every call of a run finds what it reads, in the state in which it is made. -/
def Meets (self : CPacket) : List Call → Prop
  | [] => True
  | call :: rest => call.Fits self ∧
      ∀ outcome, call.perform self = .ok outcome → Meets outcome.after rest

@[simp] theorem moved_buffer (self : CPacket) (bytes : Int) :
    (self.moved bytes).packetBuffer = self.packetBuffer := rfl

/-- A move that stays inside the buffer does not wrap. -/
theorem moved_inside (self : CPacket) (bytes : Nat)
    (room : self.packetBufferPos + bytes ≤ self.packetBuffer.length) :
    (self.moved bytes).packetBufferPos = self.packetBufferPos + bytes := by
  have sized := self.sized
  change uint32 (self.packetBufferPos + bytes) = _
  unfold uint32
  omega

/-- A number is read exactly when its four bytes are inside the buffer. -/
theorem readInt32_inside (self : CPacket) :
    (∃ word, self.readInt32 = .ok word) ↔
      self.packetBufferPos + 4 ≤ self.packetBuffer.length := by
  rw [← readVector_safe 4 self.packetBuffer self.packetBufferPos]
  constructor
  · rintro ⟨word, read⟩
    obtain ⟨stored, inside, _⟩ := bind_returned read
    exact ⟨stored, inside⟩
  · rintro ⟨stored, inside⟩
    exact ⟨joinBytes stored, by rw [readInt32, inside, ok_bind]⟩

/-- A number that has been read was inside the buffer, and the cursor moves behind it. -/
theorem readInt32_next {self : CPacket} {word : BitVec 32} (read : self.readInt32 = .ok word) :
    self.packetBufferPos + 4 ≤ self.packetBuffer.length ∧
      (self.moved 4).packetBufferPos = self.packetBufferPos + 4 := by
  have room := (readInt32_inside self).mp ⟨word, read⟩
  exact ⟨room, moved_inside self 4 room⟩

/-- A call that only moves the cursor forward inside the buffer keeps it. -/
theorem kept_forward (self after : CPacket) (bytes : Nat)
    (same : after.packetBuffer = self.packetBuffer)
    (place : after.packetBufferPos = self.packetBufferPos + bytes)
    (room : self.packetBufferPos + bytes ≤ self.packetBuffer.length) :
    Kept self ⟨after, none⟩ where
  buffer := same
  forward := by
    rw [place]
    exact Nat.le_add_right _ _
  inside := by rwa [place]
  raw := by
    rintro raw member
    cases member

/-- `ReadSequenceInfo` keeps the cursor exactly when eight bytes are left. -/
theorem readSequenceInfo_keeps (self : CPacket) (nonempty : self.packetBuffer.length ≠ 0) :
    (∃ outcome, Call.perform self .readSequenceInfo = .ok outcome ∧ Kept self outcome) ↔
      Call.Fits self .readSequenceInfo := by
  rw [Call.perform, readSequenceInfo, if_neg nonempty]
  constructor
  · rintro ⟨outcome, performed, _⟩
    obtain ⟨_, read, _⟩ := bind_returned performed
    obtain ⟨_, readIn, read⟩ := bind_returned read
    obtain ⟨_, readOut, _⟩ := bind_returned read
    have second := (readInt32_next readOut).1
    rw [(readInt32_next readIn).2, moved_buffer] at second
    rw [Call.Fits]
    omega
  · intro room
    rw [Call.Fits] at room
    obtain ⟨_, readIn⟩ := (readInt32_inside self).mpr (by omega)
    have moved := (readInt32_next readIn).2
    obtain ⟨_, readOut⟩ := (readInt32_inside (self.moved 4)).mpr (by
      rw [moved, moved_buffer]
      omega)
    have behind : ((self.moved 4).moved 4).packetBufferPos = self.packetBufferPos + 8 := by
      rw [(readInt32_next readOut).2, moved]
    rw [readIn, ok_bind]
    dsimp only
    rw [readOut]
    exact ⟨_, rfl, kept_forward self _ 8 rfl behind room⟩

/-- `ReadCmdInfo` keeps the cursor exactly when the whole structure is left. -/
theorem readCmdInfo_keeps (self : CPacket) (nonempty : self.packetBuffer.length ≠ 0) :
    (∃ outcome, Call.perform self .readCmdInfo = .ok outcome ∧ Kept self outcome) ↔
      Call.Fits self .readCmdInfo := by
  rw [Call.perform, readCmdInfo, if_neg nonempty, readRange, Call.Fits]
  split
  case isTrue room =>
    refine ⟨fun _ => room, fun _ => ⟨_, rfl, ?_⟩⟩
    exact kept_forward self _ sizeofPacketcmdinfo rfl (moved_inside self _ room) room
  case isFalse outside =>
    refine ⟨?_, fun room => absurd room outside⟩
    rintro ⟨outcome, performed, _⟩
    cases performed

/-- `ReadCmdHeader` keeps the cursor exactly when a command is left and, unless it is the
    missing end tag, the tick and the player slot are left behind it. -/
theorem readCmdHeader_keeps (self : CPacket) (nonempty : self.packetBuffer.length ≠ 0) :
    (∃ outcome, Call.perform self .readCmdHeader = .ok outcome ∧ Kept self outcome) ↔
      Call.Fits self .readCmdHeader := by
  rw [Call.perform, readCmdHeader, if_neg nonempty, Call.Fits]
  by_cases first : self.packetBufferPos < self.packetBuffer.length
  case neg =>
    constructor
    · rintro ⟨outcome, performed, _⟩
      obtain ⟨_, read, _⟩ := bind_returned performed
      obtain ⟨cmd, readCmd, _⟩ := bind_returned read
      have stored := (readCell_stored _ _ cmd).mp readCmd
      exact absurd (List.getElem?_eq_some_iff.mp stored).1 first
    · rintro ⟨cmd, stored, _⟩
      exact absurd (List.getElem?_eq_some_iff.mp stored).1 first
  case pos =>
    obtain ⟨cmd, command⟩ : ∃ cmd, self.packetBuffer[self.packetBufferPos]? = some cmd :=
      ⟨_, List.getElem?_eq_getElem first⟩
    have moved : (self.moved 1).packetBufferPos = self.packetBufferPos + 1 :=
      moved_inside self 1 first
    rw [(readCell_stored _ _ cmd).mpr command, ok_bind, command]
    dsimp only
    by_cases missing : cmd ≤ 0
    · have zero : cmd = 0 := BitVec.le_zero_iff.mp missing
      rw [if_pos missing]
      refine ⟨fun _ => ⟨cmd, rfl, fun other => absurd zero other⟩, fun _ => ⟨_, rfl, ?_⟩⟩
      exact kept_forward self _ 1 rfl moved first
    · have other : cmd ≠ 0 := fun zero => missing (BitVec.le_zero_iff.mpr zero)
      rw [if_neg missing]
      constructor
      · rintro ⟨outcome, performed, _⟩
        obtain ⟨_, read, _⟩ := bind_returned performed
        obtain ⟨_, readTick, read⟩ := bind_returned read
        obtain ⟨slot, readSlot, _⟩ := bind_returned read
        have place := (readInt32_next readTick).2
        have stored := (readCell_stored _ _ slot).mp readSlot
        have inside := (List.getElem?_eq_some_iff.mp stored).1
        rw [place, moved, moved_buffer, moved_buffer] at inside
        exact ⟨cmd, rfl, fun _ => inside⟩
      · rintro ⟨_, same, whole⟩
        cases same
        have room := whole other
        obtain ⟨_, readTick⟩ := (readInt32_inside (self.moved 1)).mpr (by
          rw [moved, moved_buffer]
          omega)
        have place := (readInt32_next readTick).2
        have slot : ((self.moved 1).moved 4).packetBufferPos <
            ((self.moved 1).moved 4).packetBuffer.length := by
          rw [place, moved, moved_buffer, moved_buffer]
          exact room
        have behind : (((self.moved 1).moved 4).moved 1).packetBufferPos =
            self.packetBufferPos + 6 := by
          have last := moved_inside ((self.moved 1).moved 4) 1 slot
          rw [place, moved] at last
          exact last
        rw [readTick, ok_bind, readCell, dif_pos slot]
        exact ⟨_, rfl, kept_forward self _ 6 rfl behind room⟩

/-- Where the cursor stands behind a block whose length may be negative. -/
theorem moved_block {self : CPacket} {size : BitVec 32} (read : self.readInt32 = .ok size) :
    ((self.moved 4).moved size.toInt).packetBufferPos =
      uint32 (self.packetBufferPos + 4 + size.toInt) := by
  have place := (readInt32_next read).2
  change uint32 (((self.moved 4).packetBufferPos : Int) + size.toInt) = _
  rw [place]
  rfl

/-- A signed length and the count that it is converted to. -/
theorem block_count (size : BitVec 32) :
    0 ≤ size.toInt ∧ (size.toNat : Int) = size.toInt ∧ size.toNat < 2147483648 ∨
      size.toInt < 0 ∧ (size.toNat : Int) = size.toInt + 4294967296 ∧ 2147483648 ≤ size.toNat := by
  have small := size.isLt
  rw [BitVec.toInt_eq_toNat_cond]
  split <;> omega

/-- A call of `ReadRawData` that returned -1 and has moved the cursor does not keep it. -/
theorem refused_moves (self : CPacket) (raw : RawData) (before : raw.before = self.packetBufferPos)
    (moves : raw.after.packetBufferPos ≠ self.packetBufferPos) (returned : raw.returned = -1) :
    ¬ Kept self ⟨raw.after, some raw⟩ := by
  intro kept
  exact moves (((kept.raw raw rfl).2.2 returned).trans before)

/-- A block behind the cursor that was not reported like a refusal keeps it. -/
theorem kept_block (self : CPacket) (raw : RawData) (before : raw.before = self.packetBufferPos)
    (same : raw.after.packetBuffer = self.packetBuffer)
    (forward : self.packetBufferPos ≤ raw.after.packetBufferPos)
    (inside : raw.after.packetBufferPos ≤ self.packetBuffer.length) (returned : raw.returned ≠ -1) :
    Kept self ⟨raw.after, some raw⟩ where
  buffer := same
  forward := forward
  inside := inside
  raw := by
    rintro other member
    cases member
    rw [before]
    exact ⟨Nat.le_refl _, forward, fun refused => absurd refused returned⟩

/-- A block for the caller's buffer is kept exactly when it is not longer than that and ends
    inside the packet. A longer one is refused behind its length field. -/
theorem readRawData_copied (self : CPacket) (nonempty : self.packetBuffer.length ≠ 0) (length : Int)
    (size : BitVec 32) (read : self.readInt32 = .ok size) :
    (∃ raw, self.readRawData true length = .ok raw ∧ Kept self ⟨raw.after, some raw⟩) ↔
      size.toInt ≤ length ∧ self.packetBufferPos + 4 + size.toNat ≤ self.packetBuffer.length := by
  have sized := self.sized
  obtain ⟨_, place⟩ := readInt32_next read
  have count := block_count size
  rw [readRawData, if_neg nonempty, read, ok_bind]
  dsimp only
  by_cases long : length < size.toInt
  case pos =>
    rw [if_pos ⟨rfl, long⟩]
    refine ⟨?_, fun block => absurd long (Int.not_lt.mpr block.1)⟩
    rintro ⟨raw, performed, kept⟩
    cases performed
    refine absurd kept (refused_moves self _ rfl ?_ rfl)
    rw [place]
    omega
  case neg =>
    rw [if_neg (fun both => long both.2), if_pos rfl, place, moved_buffer]
    constructor
    · rintro ⟨raw, performed, _⟩
      obtain ⟨stored, copied, _⟩ := bind_returned performed
      exact ⟨Int.not_lt.mp long, (readRange_safe _ _ _).mp ⟨stored, copied⟩⟩
    · rintro ⟨_, whole⟩
      obtain ⟨stored, copied⟩ := (readRange_safe _ _ _).mpr whole
      have behind : ((self.moved 4).moved size.toInt).packetBufferPos =
          self.packetBufferPos + 4 + size.toNat := by
        rw [moved_block read]
        unfold uint32
        omega
      rw [copied, ok_bind]
      refine ⟨_, rfl, kept_block self _ rfl rfl ?_ ?_ ?_⟩
      · rw [behind]
        omega
      · rw [behind]
        exact whole
      · intro minus
        have negative : size.toInt = -1 := minus
        omega

/-- A skipped block is kept exactly when it ends inside the packet or takes back part of its
    length field, and is not reported like a refusal. -/
theorem readRawData_skipped (self : CPacket) (nonempty : self.packetBuffer.length ≠ 0)
    (length : Int) (size : BitVec 32) (read : self.readInt32 = .ok size) :
    (∃ raw, self.readRawData false length = .ok raw ∧ Kept self ⟨raw.after, some raw⟩) ↔
      size.toInt ≠ -1 ∧
        (self.packetBufferPos + 4 + size.toNat ≤ self.packetBuffer.length ∨
          -4 ≤ size.toInt ∧ size.toInt < 0) := by
  have sized := self.sized
  have room := (readInt32_next read).1
  have stop := moved_block read
  have count := block_count size
  have place : ((self.moved 4).moved size.toInt).packetBufferPos =
      ((self.packetBufferPos + 4 + size.toInt) % 4294967296).toNat := stop
  rw [readRawData, if_neg nonempty, read, ok_bind]
  dsimp only
  rw [if_neg (fun both => Bool.false_ne_true both.1), if_neg Bool.false_ne_true]
  constructor
  · rintro ⟨raw, performed, kept⟩
    cases performed
    have forward : self.packetBufferPos ≤ ((self.moved 4).moved size.toInt).packetBufferPos :=
      kept.forward
    have inside : ((self.moved 4).moved size.toInt).packetBufferPos ≤
        self.packetBuffer.length := kept.inside
    have unmoved : size.toInt = -1 →
        ((self.moved 4).moved size.toInt).packetBufferPos = self.packetBufferPos :=
      (kept.raw _ rfl).2.2
    rw [place] at forward inside unmoved
    omega
  · rintro ⟨other, block⟩
    refine ⟨_, rfl, kept_block self _ rfl rfl ?_ ?_ other⟩
    · rw [place]
      omega
    · rw [place]
      omega

/-- `ReadRawData` keeps the cursor exactly when its block fits. -/
theorem readRawData_keeps (self : CPacket) (nonempty : self.packetBuffer.length ≠ 0)
    (buffer : Bool) (length : Int) :
    (∃ raw, self.readRawData buffer length = .ok raw ∧ Kept self ⟨raw.after, some raw⟩) ↔
      self.RawFits buffer length := by
  have copied := readRawData_copied self nonempty length
  have skipped := readRawData_skipped self nonempty length
  rw [RawFits]
  constructor
  · rintro ⟨raw, performed, kept⟩
    have entered := performed
    rw [readRawData, if_neg nonempty] at entered
    obtain ⟨size, read, _⟩ := bind_returned entered
    refine ⟨size, read, ?_⟩
    cases buffer with
    | true => exact (copied size read).mp ⟨raw, performed, kept⟩
    | false => exact (skipped size read).mp ⟨raw, performed, kept⟩
  · rintro ⟨size, read, block⟩
    cases buffer with
    | true => exact (copied size read).mpr block
    | false => exact (skipped size read).mpr block

/-- `ReadRawData` records where it is entered. -/
theorem readRawData_before {self : CPacket} {buffer : Bool} {length : Int} {raw : RawData}
    (performed : self.readRawData buffer length = .ok raw) :
    raw.before = self.packetBufferPos := by
  rw [readRawData] at performed
  split at performed
  case isTrue =>
    cases performed
    rfl
  case isFalse =>
    obtain ⟨size, _, performed⟩ := bind_returned performed
    dsimp only at performed
    split at performed
    case isTrue =>
      cases performed
      rfl
    case isFalse =>
      split at performed
      case isTrue =>
        obtain ⟨_, _, performed⟩ := bind_returned performed
        cases performed
        rfl
      case isFalse =>
        cases performed
        rfl

/-- A block that is entered behind the cursor keeps it from there on. -/
theorem kept_entered (self entered : CPacket) (raw : RawData)
    (same : entered.packetBuffer = self.packetBuffer)
    (later : self.packetBufferPos ≤ entered.packetBufferPos)
    (before : raw.before = entered.packetBufferPos) :
    Kept self ⟨raw.after, some raw⟩ ↔ Kept entered ⟨raw.after, some raw⟩ := by
  constructor
  · intro kept
    obtain ⟨_, forward, unmoved⟩ := kept.raw raw rfl
    refine ⟨kept.buffer.trans same.symm, before ▸ forward, same ▸ kept.inside, ?_⟩
    rintro other member
    cases member
    exact ⟨Nat.le_of_eq before.symm, forward, unmoved⟩
  · intro kept
    obtain ⟨_, forward, unmoved⟩ := kept.raw raw rfl
    refine ⟨kept.buffer.trans same, Nat.le_trans later kept.forward, same ▸ kept.inside, ?_⟩
    rintro other member
    cases member
    exact ⟨before ▸ later, forward, unmoved⟩

/-- `ReadUserCmd` keeps the cursor exactly when the number is left and the block behind it
    fits. -/
theorem readUserCmd_keeps (self : CPacket) (nonempty : self.packetBuffer.length ≠ 0)
    (buffer : Bool) (size : Int) :
    (∃ outcome, Call.perform self (.readUserCmd buffer size) = .ok outcome ∧ Kept self outcome) ↔
      Call.Fits self (.readUserCmd buffer size) := by
  have block := readRawData_keeps (self.moved 4) nonempty buffer size
  have entered (raw : RawData) (place : (self.moved 4).packetBufferPos = self.packetBufferPos + 4)
      (readRaw : (self.moved 4).readRawData buffer size = .ok raw) :=
    kept_entered self (self.moved 4) raw rfl (by omega) (readRawData_before readRaw)
  rw [Call.perform, readUserCmd, if_neg nonempty, Call.Fits, ← block]
  constructor
  · rintro ⟨outcome, performed, kept⟩
    obtain ⟨_, read, performed⟩ := bind_returned performed
    obtain ⟨_, readIn, read⟩ := bind_returned read
    obtain ⟨raw, readRaw, read⟩ := bind_returned read
    cases read
    cases performed
    obtain ⟨room, place⟩ := readInt32_next readIn
    exact ⟨room, raw, readRaw, (entered raw place readRaw).mp kept⟩
  · rintro ⟨room, raw, readRaw, kept⟩
    obtain ⟨_, readIn⟩ := (readInt32_inside self).mpr room
    have place := (readInt32_next readIn).2
    rw [readIn, ok_bind, readRaw]
    exact ⟨_, rfl, (entered raw place readRaw).mpr kept⟩

/-- Each call keeps the cursor exactly when it finds what it reads. -/
theorem call_keeps (self : CPacket) (nonempty : self.packetBuffer.length ≠ 0) (call : Call) :
    (∃ outcome, call.perform self = .ok outcome ∧ Kept self outcome) ↔ call.Fits self := by
  cases call with
  | readSequenceInfo => exact readSequenceInfo_keeps self nonempty
  | readCmdInfo => exact readCmdInfo_keeps self nonempty
  | readCmdHeader => exact readCmdHeader_keeps self nonempty
  | readUserCmd buffer size => exact readUserCmd_keeps self nonempty buffer size
  | readRawData buffer length =>
    have block := readRawData_keeps self nonempty buffer length
    rw [Call.Fits, ← block, Call.perform]
    constructor
    · rintro ⟨outcome, performed, kept⟩
      obtain ⟨raw, readRaw, performed⟩ := bind_returned performed
      cases performed
      exact ⟨raw, readRaw, kept⟩
    · rintro ⟨raw, readRaw, kept⟩
      rw [readRaw]
      exact ⟨_, rfl, kept⟩

/-- A run keeps the cursor exactly when each of its calls finds what it reads.

Induct over the calls: a call that keeps the cursor leaves the same buffer to the rest. -/
theorem stays_iff (self : CPacket) (nonempty : self.packetBuffer.length ≠ 0)
    (inside : self.packetBufferPos ≤ self.packetBuffer.length) (calls : List Call) :
    Stays self calls ↔ Meets self calls := by
  induction calls generalizing self with
  | nil => exact ⟨fun _ => trivial, fun _ => inside⟩
  | cons call rest inductionHypothesis =>
    have keeps := call_keeps self nonempty call
    have following (outcome : Outcome) (kept : Kept self outcome) :=
      inductionHypothesis outcome.after (by rwa [kept.buffer]) (by
        rw [kept.buffer]
        exact kept.inside)
    rw [Stays, Meets]
    constructor
    · rintro ⟨outcome, performed, kept, stays⟩
      refine ⟨keeps.mp ⟨outcome, performed, kept⟩, ?_⟩
      intro other again
      obtain rfl : outcome = other := Except.ok.inj (performed.symm.trans again)
      exact (following outcome kept).mp stays
    · rintro ⟨fits, meets⟩
      obtain ⟨outcome, performed, kept⟩ := keeps.mpr fits
      exact ⟨outcome, performed, kept, (following outcome kept).mpr (meets outcome performed)⟩

/-- After any accepted `Open`, a run of calls reads inside the packet, keeps the cursor
    inside, never moves it back and leaves it where a refused block begins, exactly when
    each call finds what it reads inside the packet. -/
theorem cursor_stays_iff (data : Option (List Byte)) (opened : CPacket)
    (accepted : openPacket data = some opened) (calls : List Call) :
    Stays opened calls ↔ Meets opened calls := by
  obtain ⟨bytes, _, accepted⟩ := Option.bind_eq_some_iff.mp accepted
  split at accepted
  case isTrue nonempty =>
    split at accepted
    case isTrue sized =>
      cases accepted
      exact stays_iff _ (Nat.ne_of_gt nonempty) (Nat.zero_le _) calls
    case isFalse => cases accepted
  case isFalse => cases accepted

theorem nineSized : ([1, 0, 0, 0, 2, 0, 0, 0, 0] : List Byte).length < 4294967296 := by decide

/-- Two sequence numbers and an end tag. -/
def nine : CPacket := ⟨[1, 0, 0, 0, 2, 0, 0, 0, 0], 0, nineSized⟩

/-- Both sequence numbers and the end tag are read inside the packet. -/
theorem cursor_stays_nine : Stays nine [.readSequenceInfo, .readCmdHeader] := by
  refine (cursor_stays_iff (some [1, 0, 0, 0, 2, 0, 0, 0, 0]) nine rfl _).mpr ?_
  refine ⟨Nat.le_succ 8, ?_⟩
  intro outcome performed
  cases performed
  exact ⟨⟨0, rfl, fun other => absurd rfl other⟩, fun _ _ => trivial⟩

/-- A refused block leaves the cursor behind its length field. -/
theorem refused_block_moves : ¬ ∀ (data : Option (List Byte)) (opened : CPacket),
    openPacket data = some opened → ∀ calls, Stays opened calls := by
  intro holds
  obtain ⟨outcome, performed, kept, _⟩ := holds (some [1, 0, 0, 0, 2, 0, 0, 0, 0]) nine rfl
    [.readRawData true 0]
  cases performed
  have unmoved := (kept.raw _ rfl).2.2 rfl
  cases unmoved

end CPacket

end Sniffles
