import Sniffles.ReaderRuns
import Sniffles.VarintReads
import Sniffles.UBitVarReads
import Sniffles.CoordinateReads
import Sniffles.Foundations.BitFormats

/-!
# The formats that the reader implements

Every routine of `CBitRead` is a sequence of unsigned reads, with later ones chosen by
the values of earlier ones. A ready reader implements the format of a single unsigned
read: it returns the number that the next bits denote, or it gets beyond the end where
there are too few of them. The routines implement the formats put together in the same
way, so each of them is exact at every bit position and at the end of the buffer.
-/

namespace Sniffles.CBitRead

open BitSequences BitFormats Base128 MachineIntegers

/-- The reader has these bits before it. -/
def Before (memory : Int → Byte) (bytes : Nat) (r : CBitRead) (bits : List Bool) : Prop :=
  ∃ position, Ready memory bytes r position ∧ bits = (bitList memory bytes).drop position

/-- The reader implements a format. -/
abbrev Reads (memory : Int → Byte) (bytes : Nat) {α : Type} (machine : StateM CBitRead α)
    (format : BitFormat α) : Prop :=
  Implements (Before memory bytes) (Beyond bytes) machine format

/-- A word of which the next bits are the low ones. -/
def wordFormat (numbits : Nat) : BitFormat (BitVec 32) := BitVec.ofNat 32 <$> takeNumber numbits

/-- A single bit as an `int`. -/
def bitFormat : BitFormat Int := (fun number : Nat => (number : Int)) <$> takeNumber 1

/-- A request is the format of its width. -/
theorem serve_reads (memory : Int → Byte) (bytes : Nat) (request : Request) :
    Reads memory bytes (fun r => r.serve memory request)
      ((fun number : Nat => (number : Int)) <$> takeNumber request.numbits) where
  found {r bits rest a} before taken := by
    obtain ⟨position, ready, rfl⟩ := before
    obtain ⟨room, rfl, rfl⟩ := number_found taken
    have bound := ready.standing.bound
    rw [List.length_drop, bitList_length] at room
    obtain ⟨result, next⟩ := serve_within memory bytes r position request ready (by omega)
    exact ⟨result, _, next, List.drop_drop⟩
  missing {r bits} before none := by
    obtain ⟨position, ready, rfl⟩ := before
    have short := number_missing none
    rw [List.length_drop, bitList_length] at short
    exact (serve_crossing memory bytes r position request ready (by omega)).2
  lost beyond := (serve_beyond memory bytes _ request beyond).2

/-- A single bit is read as such. -/
theorem oneBit_reads (memory : Int → Byte) (bytes : Nat) :
    Reads memory bytes (oneBit memory) bitFormat :=
  serve_reads memory bytes .readOneBit

/-- An unsigned read is the word of the next bits. -/
theorem uBitLong_reads (memory : Int → Byte) (bytes : Nat) {numbits : Nat} (positive : 1 ≤ numbits)
    (width : numbits ≤ 32) : Reads memory bytes (uBitLong memory numbits) (wordFormat numbits) := by
  have served := (serve_reads memory bytes (.readUBitLong numbits positive width)).map
    (fun number : Int => BitVec.ofNat 32 number.toNat)
  have machine : (fun number : Int => BitVec.ofNat 32 number.toNat) <$>
      (show StateM CBitRead Int from
        fun r => r.serve memory (.readUBitLong numbits positive width)) = uBitLong memory numbits := by
    funext r
    apply Prod.ext
    · show BitVec.ofNat 32 ((r.readUBitLong memory numbits).1.toNat : Int).toNat =
        (r.readUBitLong memory numbits).1
      rw [Int.toNat_natCast, BitVec.ofNat_toNat, BitVec.setWidth_eq]
    · rfl
  have format : (fun number : Int => BitVec.ofNat 32 number.toNat) <$>
      ((fun number : Nat => (number : Int)) <$> takeNumber numbits) = wordFormat numbits := by
    rw [← comp_map]
    rfl
  rw [machine] at served
  exact format ▸ served

/-- A machine goes on with its value and its state. -/
theorem bind_apply {State α β : Type} (machine : StateM State α) (next : α → StateM State β)
    (state : State) : (machine >>= next) state = next (machine state).1 (machine state).2 := rfl

theorem map_apply {State α β : Type} (function : α → β) (machine : StateM State α) (state : State) :
    (function <$> machine) state = (function (machine state).1, (machine state).2) := rfl

/-- The two opposite shifts. -/
def signExtended (numbits : Nat) (word : BitVec 32) : Int :=
  ((word <<< (32 - numbits)).sshiftRight (32 - numbits)).toInt

def signedFormat (numbits : Nat) : BitFormat Int := signExtended numbits <$> wordFormat numbits

theorem sBitLong_reads (memory : Int → Byte) (bytes : Nat) {numbits : Nat} (positive : 1 ≤ numbits)
    (width : numbits ≤ 32) : Reads memory bytes (sBitLong memory numbits) (signedFormat numbits) :=
  (uBitLong_reads memory bytes positive width).map (signExtended numbits)

/-- A word as an `int` that is not negative. -/
def unsignedFormat (numbits : Nat) : BitFormat Int :=
  (fun word : BitVec 32 => (word.toNat : Int)) <$> wordFormat numbits

theorem unsigned_reads (memory : Int → Byte) (bytes : Nat) {numbits : Nat} (positive : 1 ≤ numbits)
    (width : numbits ≤ 32) :
    Reads memory bytes ((fun word => (word.toNat : Int)) <$> uBitLong memory numbits)
      (unsignedFormat numbits) :=
  (uBitLong_reads memory bytes positive width).map _

def byteFormat : BitFormat Byte := BitVec.setWidth 8 <$> wordFormat 8

/-- At most `left` groups of seven bits, joined behind `count` others. -/
def varintFormat (width : Nat) : Nat → Nat → BitVec width → BitFormat (BitVec width)
  | 0, _, result => pure result
  | left + 1, count, result => do
    let byte ← byteFormat
    if continues byte then varintFormat width left (count + 1) (result ||| group width byte count)
    else pure (result ||| group width byte count)

/-- The group of a word is that of its low byte. -/
theorem group_word (width count : Nat) (word : BitVec 32) :
    (word.setWidth width &&& BitVec.ofNat width 0x7F) <<< (7 * count) =
      group width (word.setWidth 8) count := by
  rw [group]
  congr 1
  apply BitVec.eq_of_getLsbD_eq
  intro index inside
  have mask : (0x7F : Nat) = 2 ^ 7 - 1 := rfl
  rw [BitVec.getLsbD_and, BitVec.getLsbD_and, BitVec.getLsbD_ofNat, mask, Nat.testBit_two_pow_sub_one]
  simp only [BitVec.getLsbD_setWidth]
  by_cases low : index < 7
  · have eight : index < 8 := by omega
    simp [eight]
  · simp [low]

/-- A following group is announced by the high bit of the low byte. -/
theorem continues_word (width : Nat) (wide : 8 ≤ width) (word : BitVec 32) :
    word.setWidth width &&& BitVec.ofNat width 0x80 ≠ 0 ↔ continues (word.setWidth 8) = true := by
  have same : word.setWidth width &&& BitVec.ofNat width 0x80 =
      (word.setWidth 8).setWidth width &&& BitVec.ofNat width 0x80 := by
    apply BitVec.eq_of_getLsbD_eq
    intro index inside
    have high : (0x80 : Nat) = 2 ^ 7 := rfl
    rw [BitVec.getLsbD_and, BitVec.getLsbD_and, BitVec.getLsbD_ofNat, high, Nat.testBit_two_pow]
    simp only [BitVec.getLsbD_setWidth]
    by_cases seventh : 7 = index
    · simp [← seventh]
    · simp [seventh]
  rw [same]
  exact continuation_at width wide (word.setWidth 8)

/-- The loop reads the groups. Induct over the groups still allowed. -/
theorem readVarIntLoop_reads (memory : Int → Byte) (bytes width : Nat) (wide : 8 ≤ width)
    (left count : Nat) (result : BitVec width) :
    Reads memory bytes (readVarIntLoop memory width left count result)
      (varintFormat width left count result) := by
  induction left generalizing count result with
  | zero => exact Implements.pure result
  | succ left inductionHypothesis =>
    have turn : readVarIntLoop memory width (left + 1) count result =
        (BitVec.setWidth 8 <$> uBitLong memory 8 >>= fun byte =>
          if continues byte = true then
            readVarIntLoop memory width left (count + 1) (result ||| group width byte count)
          else (pure (result ||| group width byte count) : StateM CBitRead (BitVec width))) := by
      funext r
      rw [readVarIntLoop, bind_apply, map_apply]
      dsimp only
      rw [group_word]
      by_cases more : continues ((r.readUBitLong memory 8).1.setWidth 8) = true
      · have again := (continues_word width wide _).mpr more
        have same : continues ((uBitLong memory 8 r).1.setWidth 8) = true := more
        rw [if_pos again, if_pos same]
        rfl
      · have done := mt (continues_word width wide _).mp more
        have same : ¬continues ((uBitLong memory 8 r).1.setWidth 8) = true := more
        rw [if_neg done, if_neg same]
        rfl
    rw [turn]
    exact ((uBitLong_reads memory bytes (by decide) (by decide)).map _).bind fun byte =>
      .branch (fun _ => inductionHypothesis _ _) fun _ => .pure _

/-- `ReadVarInt32` as an action on the reader. -/
def varInt32 (memory : Int → Byte) : StateM CBitRead (BitVec 32) := fun r => r.readVarInt32 memory

def varInt64 (memory : Int → Byte) : StateM CBitRead (BitVec 64) := fun r => r.readVarInt64 memory

def signedVarInt32 (memory : Int → Byte) : StateM CBitRead (BitVec 32) :=
  fun r => r.readSignedVarInt32 memory

def signedVarInt64 (memory : Int → Byte) : StateM CBitRead (BitVec 64) :=
  fun r => r.readSignedVarInt64 memory

theorem varInt32_reads (memory : Int → Byte) (bytes : Nat) :
    Reads memory bytes (varInt32 memory) (varintFormat 32 kMaxVarint32Bytes 0 0) := by
  have general : varInt32 memory = readVarIntLoop memory 32 kMaxVarint32Bytes 0 0 :=
    funext fun r => readVarInt32Loop_eq memory kMaxVarint32Bytes 0 0 r
  rw [general]
  exact readVarIntLoop_reads memory bytes 32 (by decide) _ _ _

theorem varInt64_reads (memory : Int → Byte) (bytes : Nat) :
    Reads memory bytes (varInt64 memory) (varintFormat 64 kMaxVarintBytes 0 0) :=
  readVarIntLoop_reads memory bytes 64 (by decide) _ _ _

theorem signedVarInt32_reads (memory : Int → Byte) (bytes : Nat) :
    Reads memory bytes (signedVarInt32 memory)
      (zigZagDecode32 <$> varintFormat 32 kMaxVarint32Bytes 0 0) :=
  (varInt32_reads memory bytes).map zigZagDecode32

theorem signedVarInt64_reads (memory : Int → Byte) (bytes : Nat) :
    Reads memory bytes (signedVarInt64 memory)
      (zigZagDecode64 <$> varintFormat 64 kMaxVarintBytes 0 0) :=
  (varInt64_reads memory bytes).map zigZagDecode64

/-- The value of `ReadUBitVar`, without its assertion. -/
def uBitVar (memory : Int → Byte) : StateM CBitRead (BitVec 32) := fun r =>
  ((r.readUBitVar memory).1, (r.readUBitVar memory).2.2)

/-- `ReadVarUBit` as an action on the reader. -/
def varUBit (memory : Int → Byte) : StateM CBitRead (BitVec 32) := fun r => r.readVarUBit memory

/-- More bits above the low ones of a word. -/
def uBitVarExtension (ret : BitVec 32) (numbits : Nat) : BitFormat (BitVec 32) :=
  (fun more : BitVec 32 => (ret &&& 15#32) ||| (more <<< 4)) <$> wordFormat numbits

def uBitVarFormat : BitFormat (BitVec 32) := do
  let ret ← wordFormat 6
  if (ret &&& (16#32 ||| 32#32)).toNat = 16 then uBitVarExtension ret 4
  else if (ret &&& (16#32 ||| 32#32)).toNat = 32 then uBitVarExtension ret 8
  else if (ret &&& (16#32 ||| 32#32)).toNat = 48 then uBitVarExtension ret 28
  else pure ret

def varUBitExtension (ret : BitVec 32) (numbits : Nat) : BitFormat (BitVec 32) :=
  (fun more : BitVec 32 => 32#32 * more ||| (ret &&& 0xFFFFFF9F#32)) <$> wordFormat numbits

def varUBitFormat : BitFormat (BitVec 32) := do
  let ret ← wordFormat 7
  if (ret &&& 0x60#32).toNat = 32 then varUBitExtension ret 2
  else if (ret &&& 0x60#32).toNat = 64 then varUBitExtension ret 4
  else if (ret &&& 0x60#32).toNat = 96 then varUBitExtension ret 7
  else pure ret

theorem uBitVar_reads (memory : Int → Byte) (bytes : Nat) :
    Reads memory bytes (uBitVar memory) uBitVarFormat := by
  have branches : uBitVar memory = (uBitLong memory 6 >>= fun ret =>
      if (ret &&& (16#32 ||| 32#32)).toNat = 16 then
        (fun more : BitVec 32 => (ret &&& 15#32) ||| (more <<< 4)) <$> uBitLong memory 4
      else if (ret &&& (16#32 ||| 32#32)).toNat = 32 then
        (fun more : BitVec 32 => (ret &&& 15#32) ||| (more <<< 4)) <$> uBitLong memory 8
      else if (ret &&& (16#32 ||| 32#32)).toNat = 48 then
        (fun more : BitVec 32 => (ret &&& 15#32) ||| (more <<< 4)) <$> uBitLong memory 28
      else pure ret) := by
    funext r
    rw [bind_apply, uBitVar, uBitLong, readUBitVar]
    dsimp only
    split
    case h_1 sixteen => rw [if_pos sixteen]; rfl
    case h_2 thirtyTwo =>
      rw [if_neg (by rw [thirtyTwo]; decide), if_pos thirtyTwo]
      rfl
    case h_3 fortyEight =>
      rw [if_neg (by rw [fortyEight]; decide), if_neg (by rw [fortyEight]; decide),
        if_pos fortyEight]
      rfl
    case h_4 one two three =>
      rw [if_neg one, if_neg two, if_neg three]
      rfl
  rw [branches]
  have extended (ret : BitVec 32) {numbits : Nat} (positive : 1 ≤ numbits) (width : numbits ≤ 32) :=
    (uBitLong_reads memory bytes positive width).map
      fun more : BitVec 32 => (ret &&& 15#32) ||| (more <<< 4)
  exact (uBitLong_reads memory bytes (by decide) (by decide)).bind fun ret =>
    .branch (fun _ => extended ret (by decide) (by decide)) fun _ =>
      .branch (fun _ => extended ret (by decide) (by decide)) fun _ =>
        .branch (fun _ => extended ret (by decide) (by decide)) fun _ => .pure ret

theorem varUBit_reads (memory : Int → Byte) (bytes : Nat) :
    Reads memory bytes (varUBit memory) varUBitFormat := by
  have branches : varUBit memory = (uBitLong memory 7 >>= fun ret =>
      if (ret &&& 0x60#32).toNat = 32 then
        (fun more : BitVec 32 => 32#32 * more ||| (ret &&& 0xFFFFFF9F#32)) <$> uBitLong memory 2
      else if (ret &&& 0x60#32).toNat = 64 then
        (fun more : BitVec 32 => 32#32 * more ||| (ret &&& 0xFFFFFF9F#32)) <$> uBitLong memory 4
      else if (ret &&& 0x60#32).toNat = 96 then
        (fun more : BitVec 32 => 32#32 * more ||| (ret &&& 0xFFFFFF9F#32)) <$> uBitLong memory 7
      else pure ret) := by
    funext r
    rw [bind_apply, varUBit, uBitLong, readVarUBit]
    dsimp only
    split
    case h_1 thirtyTwo => rw [if_pos thirtyTwo]; rfl
    case h_2 sixtyFour =>
      rw [if_neg (by rw [sixtyFour]; decide), if_pos sixtyFour]
      rfl
    case h_3 ninetySix =>
      rw [if_neg (by rw [ninetySix]; decide), if_neg (by rw [ninetySix]; decide),
        if_pos ninetySix]
      rfl
    case h_4 one two three =>
      rw [if_neg one, if_neg two, if_neg three]
      rfl
  rw [branches]
  have extended (ret : BitVec 32) {numbits : Nat} (positive : 1 ≤ numbits) (width : numbits ≤ 32) :=
    (uBitLong_reads memory bytes positive width).map
      fun more : BitVec 32 => 32#32 * more ||| (ret &&& 0xFFFFFF9F#32)
  exact (uBitLong_reads memory bytes (by decide) (by decide)).bind fun ret =>
    .branch (fun _ => extended ret (by decide) (by decide)) fun _ =>
      .branch (fun _ => extended ret (by decide) (by decide)) fun _ =>
        .branch (fun _ => extended ret (by decide) (by decide)) fun _ => .pure ret

/-- An angle in steps of 360 / 2^n degrees. -/
def angleFormat (numbits : Nat) : BitFormat ℚ :=
  (fun word : BitVec 32 => (word.toNat : ℚ) * (360 / 2 ^ numbits)) <$> wordFormat numbits

theorem readBitAngle_reads (memory : Int → Byte) (bytes : Nat) {numbits : Nat}
    (positive : 1 ≤ numbits) (width : numbits ≤ 32) :
    Reads memory bytes (readBitAngle memory numbits) (angleFormat numbits) :=
  (uBitLong_reads memory bytes positive width).map
    fun word : BitVec 32 => (word.toNat : ℚ) * (360 / 2 ^ numbits)

def integerFormat (numbits : Nat) : BitFormat Nat :=
  (fun word : BitVec 32 => word.toNat + 1) <$> wordFormat numbits

def fractionFormat (numbits : Nat) : BitFormat Nat :=
  (fun word : BitVec 32 => word.toNat) <$> wordFormat numbits

/-- Nothing stands for a part whose flag is clear. -/
def flaggedFormat (flag : Int) (format : BitFormat Nat) : BitFormat Nat :=
  if flag ≠ 0 then format else pure 0

/-- Two flags, and unless both are clear a sign and the flagged parts. -/
def coordFormat : BitFormat Coordinate := do
  let integer ← bitFormat
  let fraction ← bitFormat
  if integer ≠ 0 ∨ fraction ≠ 0 then do
    let sign ← bitFormat
    let whole ← flaggedFormat integer (integerFormat coordIntegerBits)
    let part ← flaggedFormat fraction (fractionFormat coordFractionalBits)
    pure ⟨decide (sign ≠ 0), 32 * whole + part⟩
  else pure ⟨false, 0⟩

/-- A flag for small integers, a flag for an integer, and then an optional signed integer or a
    sign, an optional integer and a fraction. -/
def coordMPFormat (coordType : EBitCoordType) : BitFormat Coordinate := do
  let inBounds ← bitFormat
  if coordType = .kCW_Integral then do
    let integer ← bitFormat
    if integer ≠ 0 then do
      let sign ← bitFormat
      let whole ← integerFormat (integerBits inBounds)
      pure ⟨decide (sign ≠ 0), 32 * whole⟩
    else pure ⟨false, 0⟩
  else do
    let integer ← bitFormat
    let sign ← bitFormat
    let whole ← flaggedFormat integer (integerFormat (integerBits inBounds))
    let part ← fractionFormat (fractionalBits (decide (coordType = .kCW_LowPrecision)))
    pure ⟨decide (sign ≠ 0),
      32 * whole + resolution (decide (coordType = .kCW_LowPrecision)) * part⟩

def cellCoordFormat (bits : Nat) (coordType : EBitCoordType) : BitFormat Coordinate := do
  let whole ← fractionFormat bits
  if coordType = .kCW_Integral then pure ⟨false, 32 * whole⟩
  else do
    let part ← fractionFormat (fractionalBits (decide (coordType = .kCW_LowPrecision)))
    pure ⟨false, 32 * whole + resolution (decide (coordType = .kCW_LowPrecision)) * part⟩

def componentFormat (flag : Int) : BitFormat Coordinate :=
  if flag ≠ 0 then coordFormat else pure ⟨false, 0⟩

def vec3CoordFormat : BitFormat CoordVector := do
  let xflag ← bitFormat
  let yflag ← bitFormat
  let zflag ← bitFormat
  let x ← componentFormat xflag
  let y ← componentFormat yflag
  let z ← componentFormat zflag
  pure ⟨x, y, z⟩

def anglesFormat : BitFormat QAngle :=
  (fun vector : CoordVector => ⟨vector.x, vector.y, vector.z⟩) <$> vec3CoordFormat

section Coordinates

variable (memory : Int → Byte) (bytes : Nat)

theorem readInteger_reads {numbits : Nat} (positive : 1 ≤ numbits) (width : numbits ≤ 32) :
    Reads memory bytes (readInteger memory numbits) (integerFormat numbits) :=
  (uBitLong_reads memory bytes positive width).map _

theorem readFraction_reads {numbits : Nat} (positive : 1 ≤ numbits) (width : numbits ≤ 32) :
    Reads memory bytes (readFraction memory numbits) (fractionFormat numbits) :=
  (uBitLong_reads memory bytes positive width).map _

theorem readFlagged_reads (flag : Int) {machine : StateM CBitRead Nat} {format : BitFormat Nat}
    (reads : Reads memory bytes machine format) :
    Reads memory bytes (readFlagged flag machine) (flaggedFormat flag format) :=
  .branch (fun _ => reads) fun _ => .pure 0

/-- The widths of the parts are widths of unsigned reads. -/
theorem integerBits_bounds (bInBounds : Int) :
    1 ≤ integerBits bInBounds ∧ integerBits bInBounds ≤ 32 := by
  unfold integerBits
  split <;> exact ⟨by decide, by decide⟩

theorem fractionalBits_bounds (bLowPrecision : Bool) :
    1 ≤ fractionalBits bLowPrecision ∧ fractionalBits bLowPrecision ≤ 32 := by
  cases bLowPrecision <;> exact ⟨by decide, by decide⟩

theorem readBitCoord_reads : Reads memory bytes (readBitCoord memory) coordFormat :=
  (oneBit_reads memory bytes).bind fun intval => (oneBit_reads memory bytes).bind fun fractval =>
    .branch
      (fun _ => (oneBit_reads memory bytes).bind fun _ =>
        (readFlagged_reads memory bytes intval
          (readInteger_reads memory bytes (by decide) (by decide))).bind fun _ =>
            (readFlagged_reads memory bytes fractval
              (readFraction_reads memory bytes (by decide) (by decide))).bind fun _ => .pure _)
      fun _ => .pure _

theorem readBitCoordMP_reads (coordType : EBitCoordType) :
    Reads memory bytes (readBitCoordMP memory coordType) (coordMPFormat coordType) :=
  (oneBit_reads memory bytes).bind fun bInBounds =>
    .branch
      (fun _ => (oneBit_reads memory bytes).bind fun _ =>
        .branch
          (fun _ => (oneBit_reads memory bytes).bind fun _ =>
            (readInteger_reads memory bytes (integerBits_bounds bInBounds).1
              (integerBits_bounds bInBounds).2).bind fun _ => .pure _)
          fun _ => .pure _)
      fun _ => (oneBit_reads memory bytes).bind fun intval =>
        (oneBit_reads memory bytes).bind fun _ =>
          (readFlagged_reads memory bytes intval
            (readInteger_reads memory bytes (integerBits_bounds bInBounds).1
              (integerBits_bounds bInBounds).2)).bind fun _ =>
                (readFraction_reads memory bytes (fractionalBits_bounds _).1
                  (fractionalBits_bounds _).2).bind fun _ => .pure _

theorem readBitCellCoord_reads (coordType : EBitCoordType) {bits : Nat} (positive : 1 ≤ bits)
    (width : bits ≤ 32) :
    Reads memory bytes (readBitCellCoord memory bits coordType) (cellCoordFormat bits coordType) :=
  (readFraction_reads memory bytes positive width).bind fun _ =>
    .branch (fun _ => .pure _) fun _ =>
      (readFraction_reads memory bytes (fractionalBits_bounds _).1
        (fractionalBits_bounds _).2).bind fun _ => .pure _

theorem readComponent_reads (flag : Int) :
    Reads memory bytes (readComponent memory flag) (componentFormat flag) :=
  .branch (fun _ => readBitCoord_reads memory bytes) fun _ => .pure _

theorem readBitVec3Coord_reads : Reads memory bytes (readBitVec3Coord memory) vec3CoordFormat :=
  (oneBit_reads memory bytes).bind fun xflag => (oneBit_reads memory bytes).bind fun yflag =>
    (oneBit_reads memory bytes).bind fun zflag => (readComponent_reads memory bytes xflag).bind
      fun _ => (readComponent_reads memory bytes yflag).bind fun _ =>
        (readComponent_reads memory bytes zflag).bind fun _ => .pure _

theorem readBitAngles_reads : Reads memory bytes (readBitAngles memory) anglesFormat :=
  (readBitVec3Coord_reads memory bytes).map
    fun vector : CoordVector => (⟨vector.x, vector.y, vector.z⟩ : QAngle)

end Coordinates

end Sniffles.CBitRead
