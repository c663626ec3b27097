import Sniffles.FieldFormats

/-!
# Streams of fields

A sender writes fields one behind the other, each in the code of its kind. The kinds are
all the routines of `CBitRead` that return one value. A reader at any bit position reads
back every list of fields that have codes, whatever follows them. On any bits at all it
returns what the formats of the kinds take from them, and its flag is raised exactly where
bits are missing.
-/

namespace Sniffles.CBitRead

open BitSequences BitFormats Base128

/-- A routine with its arguments. Cells and angles are as wide as a float is exact. -/
inductive FieldKind where
  | oneBit
  | uBitLong (numbits : Nat) (positive : 1 ≤ numbits) (width : numbits ≤ 32)
  | sBitLong (numbits : Nat) (positive : 1 ≤ numbits) (width : numbits ≤ 32)
  | char
  | byte
  | short
  | word
  | bitFloat
  | bitAngle (numbits : Nat) (positive : 1 ≤ numbits) (width : numbits ≤ 18)
  | varInt32
  | varInt64
  | signedVarInt32
  | signedVarInt64
  | uBitVar
  | varUBit
  | bitCoord
  | bitCoordMP (coordType : EBitCoordType)
  | bitCellCoord (bits : Nat) (coordType : EBitCoordType) (positive : 1 ≤ bits) (width : bits ≤ 19)
  | bitVec3Coord
  | bitAngles

namespace FieldKind

/-- What the routine returns. -/
def Value : FieldKind → Type
  | oneBit | sBitLong .. | char | byte | short | word => Int
  | uBitLong .. | bitFloat | varInt32 | signedVarInt32 | uBitVar | varUBit => BitVec 32
  | varInt64 | signedVarInt64 => BitVec 64
  | bitAngle .. => ℚ
  | bitCoord | bitCoordMP _ | bitCellCoord .. => Coordinate
  | bitVec3Coord => CoordVector
  | bitAngles => QAngle

/-- The call of the routine. -/
def read (memory : Int → Byte) : (kind : FieldKind) → StateM CBitRead kind.Value
  | oneBit => CBitRead.oneBit memory
  | uBitLong numbits _ _ => CBitRead.uBitLong memory numbits
  | sBitLong numbits _ _ => CBitRead.sBitLong memory numbits
  | char => fun r => r.readChar memory
  | byte => readByte memory
  | short => readShort memory
  | word => readWord memory
  | bitFloat => readBitFloat memory
  | bitAngle numbits _ _ => readBitAngle memory numbits
  | varInt32 => CBitRead.varInt32 memory
  | varInt64 => CBitRead.varInt64 memory
  | signedVarInt32 => CBitRead.signedVarInt32 memory
  | signedVarInt64 => CBitRead.signedVarInt64 memory
  | uBitVar => CBitRead.uBitVar memory
  | varUBit => CBitRead.varUBit memory
  | bitCoord => readBitCoord memory
  | bitCoordMP coordType => readBitCoordMP memory coordType
  | bitCellCoord bits coordType _ _ => readBitCellCoord memory bits coordType
  | bitVec3Coord => readBitVec3Coord memory
  | bitAngles => readBitAngles memory

def format : (kind : FieldKind) → BitFormat kind.Value
  | oneBit => bitFormat
  | uBitLong numbits _ _ => wordFormat numbits
  | sBitLong numbits _ _ => signedFormat numbits
  | char => signedFormat 8
  | byte => unsignedFormat 8
  | short => signedFormat 16
  | word => unsignedFormat 16
  | bitFloat => wordFormat 32
  | bitAngle numbits _ _ => angleFormat numbits
  | varInt32 => varintFormat 32 kMaxVarint32Bytes 0 0
  | varInt64 => varintFormat 64 kMaxVarintBytes 0 0
  | signedVarInt32 => (zigZagDecode32 <$> varintFormat 32 kMaxVarint32Bytes 0 0 : BitFormat (BitVec 32))
  | signedVarInt64 => (zigZagDecode64 <$> varintFormat 64 kMaxVarintBytes 0 0 : BitFormat (BitVec 64))
  | uBitVar => uBitVarFormat
  | varUBit => varUBitFormat
  | bitCoord => coordFormat
  | bitCoordMP coordType => coordMPFormat coordType
  | bitCellCoord bits coordType _ _ => cellCoordFormat bits coordType
  | bitVec3Coord => vec3CoordFormat
  | bitAngles => anglesFormat

/-- Every routine implements the format of its kind. -/
theorem implements (memory : Int → Byte) (bytes : Nat) (kind : FieldKind) :
    Reads memory bytes (kind.read memory) kind.format := by
  cases kind with
  | oneBit => exact oneBit_reads memory bytes
  | uBitLong numbits positive width => exact uBitLong_reads memory bytes positive width
  | sBitLong numbits positive width => exact sBitLong_reads memory bytes positive width
  | char => exact sBitLong_reads memory bytes (by decide) (by decide)
  | byte => exact unsigned_reads memory bytes (by decide) (by decide)
  | short => exact sBitLong_reads memory bytes (by decide) (by decide)
  | word => exact unsigned_reads memory bytes (by decide) (by decide)
  | bitFloat => exact uBitLong_reads memory bytes (by decide) (by decide)
  | bitAngle numbits positive width =>
    exact readBitAngle_reads memory bytes positive (Nat.le_trans width (by decide))
  | varInt32 => exact varInt32_reads memory bytes
  | varInt64 => exact varInt64_reads memory bytes
  | signedVarInt32 => exact signedVarInt32_reads memory bytes
  | signedVarInt64 => exact signedVarInt64_reads memory bytes
  | uBitVar => exact uBitVar_reads memory bytes
  | varUBit => exact varUBit_reads memory bytes
  | bitCoord => exact readBitCoord_reads memory bytes
  | bitCoordMP coordType => exact readBitCoordMP_reads memory bytes coordType
  | bitCellCoord bits coordType positive width =>
    exact readBitCellCoord_reads memory bytes coordType positive (Nat.le_trans width (by decide))
  | bitVec3Coord => exact readBitVec3Coord_reads memory bytes
  | bitAngles => exact readBitAngles_reads memory bytes

end FieldKind

/-- The routines called one after the other, with the values that they return. -/
def readFieldKinds (memory : Int → Byte) (kinds : List FieldKind) :
    StateM CBitRead (List (Sigma FieldKind.Value)) :=
  readFields (FieldKind.read memory) kinds

/-- Where the formats find all fields, the routines return them and the reader goes on to
    the rest. -/
theorem fields_found (memory : Int → Byte) (bytes position : Nat) (r : CBitRead)
    (kinds : List FieldKind) (ready : Ready memory bytes r position)
    {fields : List (Sigma FieldKind.Value)} {rest : List Bool}
    (taken : (readFields FieldKind.format kinds).run ((bitList memory bytes).drop position) =
      some (fields, rest)) :
    ((readFieldKinds memory kinds).run r).1 = fields ∧
      Ready memory bytes ((readFieldKinds memory kinds).run r).2 (8 * bytes - rest.length) := by
  have reads := Implements.fields (FieldKind.implements memory bytes) kinds
  obtain ⟨same, further, behind, rfl⟩ := reads.found ⟨position, ready, rfl⟩ taken
  refine ⟨same, ?_⟩
  have bound := behind.standing.bound
  have place : 8 * bytes - ((bitList memory bytes).drop further).length = further := by
    rw [List.length_drop, bitList_length]
    omega
  rw [place]
  exact behind

/-- Whatever routines are called: the values are those that the formats take from the bits
    before the reader, which then stands behind them, and the flag is raised exactly if
    bits are missing. -/
theorem fields_read_exactly (memory : Int → Byte) (bytes position : Nat) (r : CBitRead)
    (kinds : List FieldKind) (ready : Ready memory bytes r position) :
    (∀ fields rest, (readFields FieldKind.format kinds).run ((bitList memory bytes).drop position) =
        some (fields, rest) →
      ((readFieldKinds memory kinds).run r).1 = fields ∧
        Ready memory bytes ((readFieldKinds memory kinds).run r).2 (8 * bytes - rest.length)) ∧
    (((readFieldKinds memory kinds).run r).2.overflow = true ↔
      (readFields FieldKind.format kinds).run ((bitList memory bytes).drop position) = none) := by
  refine ⟨fun fields rest => fields_found memory bytes position r kinds ready, fun raised => ?_,
    fun missing => ?_⟩
  · cases taken : (readFields FieldKind.format kinds).run ((bitList memory bytes).drop position) with
    | none => rfl
    | some pair =>
      have clear := (fields_found memory bytes position r kinds ready taken).2.standing.flag
      rw [raised] at clear
      cases clear
  · have reads := Implements.fields (FieldKind.implements memory bytes) kinds
    exact (reads.missing ⟨position, ready, rfl⟩ missing).flag

/-- A coordinate and a number that would end behind a buffer of two bytes. -/
theorem number_runs_out :
    ((readFieldKinds (fun _ => 0xFF#8) [.bitCoord, .uBitLong 9 (by decide) (by decide)]).run
      (construct (fun _ => 0xFF#8) ⟨0, 0, 0, 0, false, false, 0, 0⟩ 2)).2.overflow = true :=
  (fields_read_exactly (fun _ => 0xFF#8) 2 0 _ _
    (construct_ready _ ⟨0, 0, 0, 0, false, false, 0, 0⟩ 2 (by decide) (by decide))).2.mpr rfl

/-- The code of a coordinate: two flags, and unless it is zero a sign and the parts that
    are not zero. -/
def coordCode (coordinate : Coordinate) : List Bool :=
  [decide (coordinate.magnitude / 32 ≠ 0)] ++ ([decide (coordinate.magnitude % 32 ≠ 0)] ++
    if coordinate.magnitude = 0 then [] else [coordinate.negative] ++
      ((if coordinate.magnitude / 32 ≠ 0 then
          numberBits coordIntegerBits (coordinate.magnitude / 32 - 1) else []) ++
        if coordinate.magnitude % 32 ≠ 0 then
          numberBits coordFractionalBits (coordinate.magnitude % 32) else []))

/-- Only zero has no sign. -/
def CoordEncodable (coordinate : Coordinate) : Prop :=
  coordinate.magnitude / 32 ≤ 16384 ∧ (coordinate.negative = true → coordinate.magnitude ≠ 0)

/-- A type admits the magnitudes of its resolution. -/
def Resolved (coordType : EBitCoordType) (magnitude : Nat) : Prop :=
  match coordType with
  | .kCW_None => True
  | .kCW_LowPrecision => magnitude % 4 = 0
  | .kCW_Integral => magnitude % 32 = 0

/-- The code of a coordinate with few bits for a small integer. -/
def coordMPCode (coordType : EBitCoordType) (coordinate : Coordinate) : List Bool :=
  let small := decide (coordinate.magnitude / 32 ≤ 2048)
  let whole := if coordinate.magnitude / 32 ≠ 0 then
    numberBits (integerBits small.toNat) (coordinate.magnitude / 32 - 1) else []
  let low := decide (coordType = .kCW_LowPrecision)
  [small] ++ if coordType = .kCW_Integral then
      [decide (coordinate.magnitude / 32 ≠ 0)] ++
        if coordinate.magnitude / 32 ≠ 0 then [coordinate.negative] ++ whole else []
    else [decide (coordinate.magnitude / 32 ≠ 0)] ++ ([coordinate.negative] ++ (whole ++
      numberBits (fractionalBits low) (coordinate.magnitude % 32 / resolution low)))

def CoordMPEncodable (coordType : EBitCoordType) (coordinate : Coordinate) : Prop :=
  coordinate.magnitude / 32 ≤ 16384 ∧ Resolved coordType coordinate.magnitude ∧
    (coordType = .kCW_Integral → coordinate.negative = true → coordinate.magnitude ≠ 0)

def cellCoordCode (bits : Nat) (coordType : EBitCoordType) (coordinate : Coordinate) : List Bool :=
  let low := decide (coordType = .kCW_LowPrecision)
  numberBits bits (coordinate.magnitude / 32) ++ if coordType = .kCW_Integral then []
    else numberBits (fractionalBits low) (coordinate.magnitude % 32 / resolution low)

def CellCoordEncodable (bits : Nat) (coordType : EBitCoordType) (coordinate : Coordinate) : Prop :=
  coordinate.negative = false ∧ coordinate.magnitude / 32 < 2 ^ bits ∧
    Resolved coordType coordinate.magnitude

/-- Nothing stands for a component that is zero. -/
def componentCode (coordinate : Coordinate) : List Bool :=
  if coordinate.magnitude = 0 then [] else coordCode coordinate

def vec3CoordCode (vector : CoordVector) : List Bool :=
  [decide (vector.x.magnitude ≠ 0)] ++ ([decide (vector.y.magnitude ≠ 0)] ++
    ([decide (vector.z.magnitude ≠ 0)] ++
      (componentCode vector.x ++ (componentCode vector.y ++ componentCode vector.z))))

/-- A single bit denotes itself. -/
theorem bit_denotes (bit : Bool) : Denotes bitFormat [bit] (bit.toNat : Int) := by
  have number := (Denotes.number 1 bit.toNat (by cases bit <;> decide)).map
    (fun number : Nat => (number : Int))
  have code : numberBits 1 bit.toNat = [bit] := by cases bit <;> rfl
  rw [code] at number
  exact number

theorem bit_set (bit : Bool) : (bit.toNat : Int) ≠ 0 ↔ bit = true := by cases bit <;> decide

theorem flag_set (number : Nat) : ((decide (number ≠ 0)).toNat : Int) ≠ 0 ↔ number ≠ 0 := by
  rw [bit_set, decide_eq_true_iff]

theorem decide_bit (bit : Bool) : decide ((bit.toNat : Int) ≠ 0) = bit := by cases bit <;> rfl

theorem word_denotes {numbits : Nat} (word : BitVec 32)
    (small : word.toNat < 2 ^ numbits) :
    Denotes (wordFormat numbits) (numberBits numbits word.toNat) word := by
  have number := (Denotes.number numbits word.toNat small).map (BitVec.ofNat 32)
  rw [BitVec.ofNat_toNat, BitVec.setWidth_eq] at number
  exact number

/-- A number below a power of two is a word. -/
theorem natural_denotes {numbits : Nat} (width : numbits ≤ 32) {number : Nat}
    (small : number < 2 ^ numbits) :
    Denotes (wordFormat numbits) (numberBits numbits number) (BitVec.ofNat 32 number) ∧
      (BitVec.ofNat 32 number).toNat = number := by
  have fits : number < 2 ^ 32 :=
    Nat.lt_of_lt_of_le small (Nat.pow_le_pow_right (by decide) width)
  have same : (BitVec.ofNat 32 number).toNat = number := by
    rw [BitVec.toNat_ofNat, Nat.mod_eq_of_lt fits]
  have denotes := word_denotes (BitVec.ofNat 32 number) (by rw [same]; exact small)
  rw [same] at denotes
  exact ⟨denotes, same⟩

theorem fraction_denotes {numbits : Nat} (width : numbits ≤ 32) {number : Nat}
    (small : number < 2 ^ numbits) :
    Denotes (fractionFormat numbits) (numberBits numbits number) number := by
  obtain ⟨denotes, same⟩ := natural_denotes width small
  have mapped := denotes.map (fun word : BitVec 32 => word.toNat)
  rw [same] at mapped
  exact mapped

theorem integer_denotes {numbits : Nat} (width : numbits ≤ 32) {number : Nat} (positive : number ≠ 0)
    (small : number ≤ 2 ^ numbits) :
    Denotes (integerFormat numbits) (numberBits numbits (number - 1)) number := by
  obtain ⟨denotes, same⟩ := natural_denotes width (show number - 1 < 2 ^ numbits by omega)
  have mapped := denotes.map (fun word : BitVec 32 => word.toNat + 1)
  rw [same, Nat.sub_add_cancel (Nat.one_le_iff_ne_zero.mpr positive)] at mapped
  exact mapped

/-- A flagged part is denoted by its code, and zero by nothing. -/
theorem flagged_denotes {format : BitFormat Nat} {code : List Bool} (number : Nat)
    (denotes : number ≠ 0 → Denotes format code number) :
    Denotes (flaggedFormat ((decide (number ≠ 0)).toNat : Int) format)
      (if number ≠ 0 then code else []) number := by
  rw [flaggedFormat]
  by_cases zero : number = 0
  · rw [if_neg (mt (flag_set number).mp (not_not.mpr zero)), if_neg (not_not.mpr zero), zero]
    exact Denotes.pure 0
  · rw [if_pos ((flag_set number).mpr zero), if_pos zero]
    exact denotes zero

theorem coord_denotes (coordinate : Coordinate) (encodable : CoordEncodable coordinate) :
    Denotes coordFormat (coordCode coordinate) coordinate := by
  obtain ⟨bound, signed⟩ := encodable
  refine (bit_denotes _).bind ((bit_denotes _).bind ?_)
  have flags := or_congr (flag_set (coordinate.magnitude / 32)) (flag_set (coordinate.magnitude % 32))
  by_cases zero : coordinate.magnitude = 0
  · have positive : coordinate.negative = false :=
      Bool.eq_false_iff.mpr fun negative => signed negative zero
    have same : (⟨false, 0⟩ : Coordinate) = coordinate := by
      rw [← positive, ← zero]
    rw [if_pos zero, if_neg (mt flags.mp (by omega)), ← same]
    exact Denotes.pure _
  · have parts : 32 * (coordinate.magnitude / 32) + coordinate.magnitude % 32 =
        coordinate.magnitude := Nat.div_add_mod _ _
    rw [if_neg zero, if_pos (flags.mpr (by omega))]
    refine (bit_denotes _).bind ((flagged_denotes _ fun positive => integer_denotes (by decide)
      positive bound).bind ?_)
    have part : Denotes (fractionFormat coordFractionalBits)
        (numberBits coordFractionalBits (coordinate.magnitude % 32)) (coordinate.magnitude % 32) :=
      fraction_denotes (by decide) (Nat.mod_lt coordinate.magnitude (by decide))
    exact (flagged_denotes _ fun _ => part).done (by rw [decide_bit, parts])

/-- The fraction of a magnitude in the resolution of its type. -/
theorem fraction_resolved (coordType : EBitCoordType) (magnitude : Nat)
    (fractional : coordType ≠ .kCW_Integral) (resolved : Resolved coordType magnitude) :
    Denotes (fractionFormat (fractionalBits (decide (coordType = .kCW_LowPrecision))))
      (numberBits (fractionalBits (decide (coordType = .kCW_LowPrecision)))
        (magnitude % 32 / resolution (decide (coordType = .kCW_LowPrecision))))
      (magnitude % 32 / resolution (decide (coordType = .kCW_LowPrecision))) ∧
    32 * (magnitude / 32) + resolution (decide (coordType = .kCW_LowPrecision)) *
      (magnitude % 32 / resolution (decide (coordType = .kCW_LowPrecision))) = magnitude := by
  cases coordType with
  | kCW_None =>
    refine ⟨fraction_denotes (by decide) ?_, ?_⟩
    · show magnitude % 32 / 1 < 32
      omega
    · show 32 * (magnitude / 32) + 1 * (magnitude % 32 / 1) = magnitude
      omega
  | kCW_LowPrecision =>
    have quarter : magnitude % 4 = 0 := resolved
    refine ⟨fraction_denotes (by decide) ?_, ?_⟩
    · show magnitude % 32 / 4 < 8
      omega
    · show 32 * (magnitude / 32) + 4 * (magnitude % 32 / 4) = magnitude
      omega
  | kCW_Integral => exact absurd rfl fractional

/-- A small integer has few bits. -/
theorem integer_bounded (whole : Nat) (bound : whole ≤ 16384) :
    whole ≤ 2 ^ integerBits ((decide (whole ≤ 2048)).toNat : Int) := by
  by_cases small : whole ≤ 2048
  · rw [decide_eq_true small]
    exact small
  · rw [decide_eq_false small]
    exact bound

theorem coordMP_denotes (coordType : EBitCoordType) (coordinate : Coordinate)
    (encodable : CoordMPEncodable coordType coordinate) :
    Denotes (coordMPFormat coordType) (coordMPCode coordType coordinate) coordinate := by
  obtain ⟨bound, resolved, signed⟩ := encodable
  have integer (positive : coordinate.magnitude / 32 ≠ 0) :=
    integer_denotes (integerBits_bounds ((decide (coordinate.magnitude / 32 ≤ 2048)).toNat : Int)).2
      positive (integer_bounded _ bound)
  refine (bit_denotes _).bind ?_
  by_cases integral : coordType = .kCW_Integral
  · subst integral
    have exact_ : coordinate.magnitude % 32 = 0 := resolved
    rw [if_pos rfl, if_pos rfl]
    refine (bit_denotes _).bind ?_
    by_cases zero : coordinate.magnitude / 32 = 0
    · have none : coordinate.magnitude = 0 := by omega
      have positive : coordinate.negative = false :=
        Bool.eq_false_iff.mpr fun negative => signed rfl negative none
      have same : (⟨false, 0⟩ : Coordinate) = coordinate := by
        rw [← positive, ← none]
      rw [if_neg (mt (flag_set _).mp (not_not.mpr zero)), if_neg (not_not.mpr zero)]
      exact same ▸ Denotes.pure _
    · rw [if_pos ((flag_set _).mpr zero), if_pos zero, if_pos zero]
      refine (bit_denotes _).bind ((integer zero).done ?_)
      rw [decide_bit, show 32 * (coordinate.magnitude / 32) = coordinate.magnitude by omega]
  · obtain ⟨fraction, parts⟩ := fraction_resolved coordType coordinate.magnitude integral resolved
    rw [if_neg integral, if_neg integral]
    refine (bit_denotes _).bind ((bit_denotes _).bind ((flagged_denotes _ integer).bind
      (fraction.done ?_)))
    rw [decide_bit, parts]

theorem cellCoord_denotes {bits : Nat} (coordType : EBitCoordType) (coordinate : Coordinate)
    (width : bits ≤ 32) (encodable : CellCoordEncodable bits coordType coordinate) :
    Denotes (cellCoordFormat bits coordType) (cellCoordCode bits coordType coordinate)
      coordinate := by
  obtain ⟨positive, bound, resolved⟩ := encodable
  refine (fraction_denotes width bound).bind ?_
  by_cases integral : coordType = .kCW_Integral
  · subst integral
    have exact_ : coordinate.magnitude % 32 = 0 := resolved
    have same : (⟨false, 32 * (coordinate.magnitude / 32)⟩ : Coordinate) = coordinate := by
      rw [← positive, show 32 * (coordinate.magnitude / 32) = coordinate.magnitude by omega]
    rw [if_pos rfl, if_pos rfl, same]
    exact Denotes.pure coordinate
  · obtain ⟨fraction, parts⟩ := fraction_resolved coordType coordinate.magnitude integral resolved
    rw [if_neg integral, if_neg integral]
    exact fraction.done (by rw [parts, ← positive])

theorem component_denotes (coordinate : Coordinate) (encodable : CoordEncodable coordinate) :
    Denotes (componentFormat ((decide (coordinate.magnitude ≠ 0)).toNat : Int))
      (componentCode coordinate) coordinate := by
  rw [componentFormat, componentCode]
  by_cases zero : coordinate.magnitude = 0
  · have positive : coordinate.negative = false :=
      Bool.eq_false_iff.mpr fun negative => encodable.2 negative zero
    have same : (⟨false, 0⟩ : Coordinate) = coordinate := by
      rw [← positive, ← zero]
    rw [if_neg (mt (flag_set _).mp (not_not.mpr zero)), if_pos zero, same]
    exact Denotes.pure coordinate
  · rw [if_pos ((flag_set _).mpr zero), if_neg zero]
    exact coord_denotes coordinate encodable

theorem vec3Coord_denotes (vector : CoordVector) (x : CoordEncodable vector.x)
    (y : CoordEncodable vector.y) (z : CoordEncodable vector.z) :
    Denotes vec3CoordFormat (vec3CoordCode vector) vector :=
  (bit_denotes _).bind ((bit_denotes _).bind ((bit_denotes _).bind
    ((component_denotes _ x).bind ((component_denotes _ y).bind
      ((component_denotes _ z).done rfl)))))

theorem byte_denotes (byte : Byte) : Denotes byteFormat (byteBits byte) byte := by
  have small : (byte.setWidth 32).toNat < 2 ^ 8 := by
    rw [BitVec.toNat_setWidth]
    exact Nat.lt_of_le_of_lt (Nat.mod_le _ _) byte.isLt
  have mapped := (word_denotes (byte.setWidth 32) small).map (BitVec.setWidth 8)
  have same : (byte.setWidth 32).setWidth 8 = byte := by
    rw [widened, BitVec.setWidth_eq]
  have value : (byte.setWidth 32).toNat = byte.toNat := by
    rw [BitVec.toNat_setWidth, Nat.mod_eq_of_lt (Nat.lt_trans byte.isLt (by decide))]
  rw [same, value] at mapped
  exact mapped

/-- The groups of a number are joined behind those that came before. Induct over the groups
    still allowed. -/
theorem varint_denotes (width left count number : Nat) (result : BitVec width)
    (fits : (encode number).length ≤ left) :
    Denotes (varintFormat width left count result) (textBits (encode number))
      (result ||| BitVec.ofNat width number <<< (7 * count)) := by
  induction left generalizing count number result with
  | zero => exact absurd fits (Nat.not_le_of_lt (encode_nonempty number))
  | succ left inductionHypothesis =>
    by_cases small : number < 128
    · rw [encode_last number small]
      show Denotes _ (byteBits (BitVec.ofNat 8 number) ++ textBits []) _
      refine (byte_denotes _).bind ?_
      rw [continues_last number small, if_neg Bool.false_ne_true, group_last width count number small]
      exact Denotes.pure _
    · have more := encode_more number (Nat.le_of_not_lt small)
      rw [more, List.length_cons] at fits
      rw [more]
      show Denotes _ (byteBits _ ++ textBits (encode (number / 128))) _
      refine (byte_denotes _).bind ?_
      rw [continues_more, if_pos rfl, ← group_more, ← BitVec.or_assoc]
      exact inductionHypothesis (count + 1) (number / 128) _ (Nat.le_of_succ_le_succ fits)

theorem varInt32_denotes (number : BitVec 32) :
    Denotes (varintFormat 32 kMaxVarint32Bytes 0 0) (textBits (encode number.toNat)) number := by
  have groups := varint_denotes 32 kMaxVarint32Bytes 0 number.toNat 0
    (encode_length 4 number.toNat (Nat.lt_of_lt_of_le number.isLt (by decide)))
  have none : (0 : BitVec 32) ||| number = number := BitVec.zero_or
  rw [BitVec.ofNat_toNat, BitVec.setWidth_eq, Nat.mul_zero, BitVec.shiftLeft_zero, none] at groups
  exact groups

theorem varInt64_denotes (number : BitVec 64) :
    Denotes (varintFormat 64 kMaxVarintBytes 0 0) (textBits (encode number.toNat)) number := by
  have groups := varint_denotes 64 kMaxVarintBytes 0 number.toNat 0
    (encode_length 9 number.toNat (Nat.lt_of_lt_of_le number.isLt (by decide)))
  have none : (0 : BitVec 64) ||| number = number := BitVec.zero_or
  rw [BitVec.ofNat_toNat, BitVec.setWidth_eq, Nat.mul_zero, BitVec.shiftLeft_zero, none] at groups
  exact groups

theorem signedVarInt32_denotes (number : BitVec 32) :
    Denotes (zigZagDecode32 <$> varintFormat 32 kMaxVarint32Bytes 0 0)
      (textBits (encode (zigZagEncode32 number).toNat)) number := by
  have mapped := (varInt32_denotes (zigZagEncode32 number)).map zigZagDecode32
  rw [zigZagDecode32_encode] at mapped
  exact mapped

theorem signedVarInt64_denotes (number : BitVec 64) :
    Denotes (zigZagDecode64 <$> varintFormat 64 kMaxVarintBytes 0 0)
      (textBits (encode (zigZagEncode64 number).toNat)) number := by
  have mapped := (varInt64_denotes (zigZagEncode64 number)).map zigZagDecode64
  rw [zigZagDecode64_encode] at mapped
  exact mapped

/-- A signed number is denoted by its low bits. -/
theorem signed_denotes {numbits : Nat} (positive : 1 ≤ numbits) (width : numbits ≤ 32) (number : Int)
    (lower : -2 ^ (numbits - 1) ≤ number) (upper : number < 2 ^ (numbits - 1)) :
    Denotes (signedFormat numbits) (numberBits numbits (number % 2 ^ numbits).toNat) number := by
  obtain ⟨fewer, rfl⟩ : ∃ fewer, numbits = fewer + 1 := ⟨numbits - 1, by omega⟩
  rw [Nat.add_sub_cancel] at lower upper
  have power : (2 : Int) ^ (fewer + 1) = 2 * 2 ^ fewer := by rw [pow_succ, mul_comm]
  have half : (0 : Int) < 2 ^ fewer := Int.pow_pos (by decide)
  have residue : (((number % 2 ^ (fewer + 1)).toNat : Nat) : Int) = number % 2 ^ (fewer + 1) :=
    Int.toNat_of_nonneg (Int.emod_nonneg _ (by omega))
  have below : number % 2 ^ (fewer + 1) < 2 ^ (fewer + 1) := Int.emod_lt_of_pos _ (by omega)
  have small : (number % 2 ^ (fewer + 1)).toNat < 2 ^ (fewer + 1) := by
    apply Int.ofNat_lt.mp
    rw [residue]
    exact_mod_cast below
  obtain ⟨denotes, same⟩ := natural_denotes width small
  have extended := denotes.map (signExtended (fewer + 1))
  have value : signExtended (fewer + 1) (BitVec.ofNat 32 (number % 2 ^ (fewer + 1)).toNat) =
      number := by
    rw [signExtended, sign_extension _ _ width (by rw [same]; exact small), same, twosComplement]
    have twice : 2 * (number % 2 ^ (fewer + 1)).toNat < 2 ^ (fewer + 1) ↔
        2 * (number % 2 ^ (fewer + 1)) < 2 ^ (fewer + 1) := by
      rw [← residue]
      norm_cast
    by_cases negative : number < 0
    · have shifted : number % 2 ^ (fewer + 1) = number + 2 ^ (fewer + 1) := by
        rw [← Int.add_emod_right]
        exact Int.emod_eq_of_lt (by omega) (by omega)
      rw [if_neg (by rw [twice]; omega), residue, shifted]
      omega
    · have same : number % 2 ^ (fewer + 1) = number := Int.emod_eq_of_lt (by omega) (by omega)
      rw [if_pos (by rw [twice]; omega), residue, same]
  rw [value] at extended
  exact extended

/-- Two numbers one behind the other are one number. -/
theorem joined_numbers (a b low high : Nat) :
    numberBits a low ++ numberBits b high =
      numberBits (a + b) (low % 2 ^ a + 2 ^ a * (high % 2 ^ b)) := by
  have below : low % 2 ^ a < 2 ^ a := Nat.mod_lt _ (Nat.two_pow_pos a)
  have above : high % 2 ^ b + 1 ≤ 2 ^ b := Nat.mod_lt _ (Nat.two_pow_pos b)
  have whole : low % 2 ^ a + 2 ^ a * (high % 2 ^ b) < 2 ^ (a + b) :=
    calc low % 2 ^ a + 2 ^ a * (high % 2 ^ b) < 2 ^ a * (high % 2 ^ b + 1) := by
          rw [Nat.mul_succ]
          omega
      _ ≤ 2 ^ a * 2 ^ b := Nat.mul_le_mul_left _ above
      _ = 2 ^ (a + b) := (Nat.pow_add 2 a b).symm
  apply value_injective
  · rw [List.length_append, numberBits_length, numberBits_length, numberBits_length]
  · rw [value_append, value_numberBits, value_numberBits, value_numberBits, numberBits_length,
      Nat.mod_eq_of_lt whole]

/-- The bits that a class announces. -/
theorem uBitVarExtension_denotes (ret number : BitVec 32) {numbits : Nat} (width : numbits ≤ 28)
    (low : (ret &&& 15#32).toNat = number.toNat % 16) (above : number.toNat / 16 < 2 ^ numbits) :
    Denotes (uBitVarExtension ret numbits) (numberBits numbits (number.toNat / 16)) number := by
  obtain ⟨denotes, same⟩ := natural_denotes (Nat.le_trans width (by decide)) above
  have mapped := denotes.map fun more : BitVec 32 => (ret &&& 15#32) ||| (more <<< 4)
  have joined : (ret &&& 15#32) ||| (BitVec.ofNat 32 (number.toNat / 16) <<< 4) = number := by
    apply BitVec.eq_of_toNat_eq
    rw [joined_value _ _ 4 numbits (by rw [low]; exact Nat.mod_lt _ (by decide))
      (by rw [same]; exact above) (by omega), low, same]
    exact Nat.mod_add_div _ _
  rw [joined] at mapped
  exact mapped

/-- The shortest encoding of `ReadUBitVar` denotes its value. -/
theorem uBitVar_denotes (number : BitVec 32) :
    Denotes uBitVarFormat (ubitVarBits number.toNat) number := by
  have held := (classOf_holds number.toNat number.isLt).1
  have ranged := classOf_lt number.toNat
  rw [ubitVarBits]
  generalize classOf number.toNat = cls at held ranged
  have tagged : cls % 2 ^ 2 = cls := Nat.mod_eq_of_lt ranged
  rw [← List.append_assoc, joined_numbers, tagged]
  obtain ⟨denotes, same⟩ := natural_denotes (show 4 + 2 ≤ 32 by decide)
    (show number.toNat % 2 ^ 4 + 2 ^ 4 * cls < 2 ^ (4 + 2) by omega)
  refine denotes.bind ?_
  generalize BitVec.ofNat 32 (number.toNat % 2 ^ 4 + 2 ^ 4 * cls) = ret at same ⊢
  obtain ⟨low, tag⟩ := ubitVar_fields ret (by omega)
  have masked : (ret &&& 15#32).toNat = number.toNat % 16 := by omega
  have chosen : (ret &&& (16#32 ||| 32#32)).toNat = 16 * cls := by omega
  rw [chosen]
  have classes : cls = 0 ∨ cls = 1 ∨ cls = 2 ∨ cls = 3 := by omega
  rcases classes with rfl | rfl | rfl | rfl
  · have small : number.toNat < 16 := held
    have equal : ret = number := BitVec.eq_of_toNat_eq (by omega)
    rw [equal]
    exact Denotes.pure number
  · have small : number.toNat < 256 := held
    exact uBitVarExtension_denotes ret number (by decide) masked (by omega)
  · have small : number.toNat < 4096 := held
    exact uBitVarExtension_denotes ret number (by decide) masked (by omega)
  · have small := number.isLt
    exact uBitVarExtension_denotes ret number (by decide) masked (by omega)

theorem varUBitExtension_denotes (ret number : BitVec 32) {numbits : Nat} (width : numbits ≤ 7)
    (low : (ret &&& 0xFFFFFF9F#32).toNat = number.toNat % 32)
    (above : number.toNat / 32 < 2 ^ numbits) :
    Denotes (varUBitExtension ret numbits) (numberBits numbits (number.toNat / 32)) number := by
  obtain ⟨denotes, same⟩ := natural_denotes (Nat.le_trans width (by decide)) above
  have mapped := denotes.map fun more : BitVec 32 => 32#32 * more ||| (ret &&& 0xFFFFFF9F#32)
  have joined : 32#32 * BitVec.ofNat 32 (number.toNat / 32) ||| (ret &&& 0xFFFFFF9F#32) =
      number := by
    apply BitVec.eq_of_toNat_eq
    rw [shifted_five, BitVec.or_comm, joined_value _ _ 5 numbits
      (by rw [low]; exact Nat.mod_lt _ (by decide)) (by rw [same]; exact above) (by omega), low, same]
    exact Nat.mod_add_div _ _
  rw [joined] at mapped
  exact mapped

/-- Every encoding of `ReadVarUBit` denotes its value. -/
theorem varUBit_denotes (number : BitVec 32) (cls : Nat) (ranged : cls < 4)
    (held : number.toNat < 2 ^ (5 + extensionVarU cls)) :
    Denotes varUBitFormat (varUBits cls number.toNat) number := by
  have tagged : cls % 2 ^ 2 = cls := Nat.mod_eq_of_lt ranged
  rw [varUBits, ← List.append_assoc, joined_numbers, tagged]
  obtain ⟨denotes, same⟩ := natural_denotes (show 5 + 2 ≤ 32 by decide)
    (show number.toNat % 2 ^ 5 + 2 ^ 5 * cls < 2 ^ (5 + 2) by omega)
  refine denotes.bind ?_
  generalize BitVec.ofNat 32 (number.toNat % 2 ^ 5 + 2 ^ 5 * cls) = ret at same ⊢
  obtain ⟨low, tag⟩ := varUBit_fields ret (by omega)
  have masked : (ret &&& 0xFFFFFF9F#32).toNat = number.toNat % 32 := by omega
  have chosen : (ret &&& 0x60#32).toNat = 32 * cls := by omega
  rw [chosen]
  have classes : cls = 0 ∨ cls = 1 ∨ cls = 2 ∨ cls = 3 := by omega
  rcases classes with rfl | rfl | rfl | rfl
  · have small : number.toNat < 32 := held
    have equal : ret = number := BitVec.eq_of_toNat_eq (by omega)
    rw [equal]
    exact Denotes.pure number
  · have small : number.toNat < 128 := held
    exact varUBitExtension_denotes ret number (by decide) masked (by omega)
  · have small : number.toNat < 512 := held
    exact varUBitExtension_denotes ret number (by decide) masked (by omega)
  · have small : number.toNat < 4096 := held
    exact varUBitExtension_denotes ret number (by decide) masked (by omega)

/-- The class of a value of at most twelve bits. -/
def varUClass (number : Nat) : Nat :=
  if number < 32 then 0 else if number < 128 then 1 else if number < 512 then 2 else 3

theorem varUClass_holds (number : Nat) (fits : number < 4096) :
    varUClass number < 4 ∧ number < 2 ^ (5 + extensionVarU (varUClass number)) := by
  unfold varUClass
  split_ifs
  · exact ⟨by decide, by assumption⟩
  · exact ⟨by decide, by assumption⟩
  · exact ⟨by decide, by assumption⟩
  · exact ⟨by decide, fits⟩

/-- A whole number of steps denotes its angle. -/
theorem angle_denotes {numbits : Nat} (width : numbits ≤ 18) (steps : Nat)
    (small : steps < 2 ^ numbits) :
    Denotes (angleFormat numbits) (numberBits numbits steps)
      ((steps : ℚ) * (360 / 2 ^ numbits)) := by
  obtain ⟨denotes, same⟩ := natural_denotes (Nat.le_trans width (by decide)) small
  have mapped := denotes.map fun word : BitVec 32 => (word.toNat : ℚ) * (360 / 2 ^ numbits)
  rw [same] at mapped
  exact mapped

theorem unsigned_denotes {numbits : Nat} (width : numbits ≤ 32) (number : Int) (lower : 0 ≤ number)
    (upper : number < 2 ^ numbits) :
    Denotes (unsignedFormat numbits) (numberBits numbits number.toNat) number := by
  obtain ⟨natural, rfl⟩ := Int.eq_ofNat_of_zero_le lower
  have small : natural < 2 ^ numbits := by exact_mod_cast upper
  obtain ⟨denotes, same⟩ := natural_denotes width small
  have mapped := denotes.map fun word : BitVec 32 => (word.toNat : Int)
  rw [same] at mapped
  exact mapped

/-- A number that an unsigned field of a width holds. -/
def UnsignedEncodable (numbits : Nat) (number : Int) : Prop := 0 ≤ number ∧ number < 2 ^ numbits

/-- A number that a signed field of a width holds. -/
def SignedEncodable (numbits : Nat) (number : Int) : Prop :=
  -2 ^ (numbits - 1) ≤ number ∧ number < 2 ^ (numbits - 1)

def unsignedCode (numbits : Nat) (number : Int) : List Bool := numberBits numbits number.toNat

def signedCode (numbits : Nat) (number : Int) : List Bool :=
  numberBits numbits (number % 2 ^ numbits).toNat

/-- A whole number of steps. -/
def AngleEncodable (numbits : Nat) (angle : ℚ) : Prop :=
  ∃ steps : Nat, steps < 2 ^ numbits ∧ angle = (steps : ℚ) * (360 / 2 ^ numbits)

def angleCode (numbits : Nat) (angle : ℚ) : List Bool :=
  numberBits numbits (angle / (360 / 2 ^ numbits)).num.toNat

namespace FieldKind

/-- The values that have a code. -/
def Encodable : (kind : FieldKind) → kind.Value → Prop
  | oneBit, number => UnsignedEncodable 1 number
  | uBitLong numbits _ _, number => BitVec.toNat number < 2 ^ numbits
  | sBitLong numbits _ _, number => SignedEncodable numbits number
  | char, number => SignedEncodable 8 number
  | byte, number => UnsignedEncodable 8 number
  | short, number => SignedEncodable 16 number
  | word, number => UnsignedEncodable 16 number
  | bitFloat, _ | varInt32, _ | varInt64, _ | signedVarInt32, _ | signedVarInt64, _ => True
  | uBitVar, _ => True
  | varUBit, number => BitVec.toNat number < 4096
  | bitAngle numbits _ _, angle => AngleEncodable numbits angle
  | bitCoord, coordinate => CoordEncodable coordinate
  | bitCoordMP coordType, coordinate => CoordMPEncodable coordType coordinate
  | bitCellCoord bits coordType _ _, coordinate => CellCoordEncodable bits coordType coordinate
  | bitVec3Coord, vector =>
    CoordEncodable (CoordVector.x vector) ∧ CoordEncodable (CoordVector.y vector) ∧
      CoordEncodable (CoordVector.z vector)
  | bitAngles, angles =>
    CoordEncodable (QAngle.x angles) ∧ CoordEncodable (QAngle.y angles) ∧
      CoordEncodable (QAngle.z angles)

/-- The bits in which a value is sent. -/
def code : (kind : FieldKind) → kind.Value → List Bool
  | oneBit, number => unsignedCode 1 number
  | uBitLong numbits _ _, number => numberBits numbits (BitVec.toNat number)
  | sBitLong numbits _ _, number => signedCode numbits number
  | char, number => signedCode 8 number
  | byte, number => unsignedCode 8 number
  | short, number => signedCode 16 number
  | word, number => unsignedCode 16 number
  | bitFloat, number => numberBits 32 (BitVec.toNat number)
  | bitAngle numbits _ _, angle => angleCode numbits angle
  | varInt32, number => textBits (encode (BitVec.toNat number))
  | varInt64, number => textBits (encode (BitVec.toNat number))
  | signedVarInt32, number => textBits (encode (zigZagEncode32 number).toNat)
  | signedVarInt64, number => textBits (encode (zigZagEncode64 number).toNat)
  | uBitVar, number => ubitVarBits (BitVec.toNat number)
  | varUBit, number => varUBits (varUClass (BitVec.toNat number)) (BitVec.toNat number)
  | bitCoord, coordinate => coordCode coordinate
  | bitCoordMP coordType, coordinate => coordMPCode coordType coordinate
  | bitCellCoord bits coordType _ _, coordinate => cellCoordCode bits coordType coordinate
  | bitVec3Coord, vector => vec3CoordCode vector
  | bitAngles, angles => vec3CoordCode ⟨QAngle.x angles, QAngle.y angles, QAngle.z angles⟩

/-- The code of a value denotes it. -/
theorem denotes (kind : FieldKind) (value : kind.Value) (encodable : kind.Encodable value) :
    Denotes kind.format (kind.code value) value := by
  cases kind with
  | oneBit =>
    obtain ⟨lower, upper⟩ := encodable
    obtain ⟨natural, rfl⟩ := Int.eq_ofNat_of_zero_le lower
    exact (Denotes.number 1 natural (by omega)).map fun number : Nat => (number : Int)
  | uBitLong numbits positive width => exact word_denotes value encodable
  | sBitLong numbits positive width =>
    exact signed_denotes positive width value encodable.1 encodable.2
  | char => exact signed_denotes (by decide) (by decide) value encodable.1 encodable.2
  | byte => exact unsigned_denotes (by decide) value encodable.1 encodable.2
  | short => exact signed_denotes (by decide) (by decide) value encodable.1 encodable.2
  | word => exact unsigned_denotes (by decide) value encodable.1 encodable.2
  | bitFloat => exact word_denotes value (BitVec.isLt value)
  | bitAngle numbits positive width =>
    obtain ⟨steps, small, rfl⟩ := encodable
    have step : (360 / 2 ^ numbits : ℚ) ≠ 0 := div_ne_zero (by decide) (pow_ne_zero _ (by decide))
    have whole : ((steps : ℚ) * (360 / 2 ^ numbits) / (360 / 2 ^ numbits)).num.toNat = steps := by
      rw [mul_div_cancel_right₀ _ step]
      rfl
    show Denotes _ (angleCode numbits _) _
    rw [angleCode, whole]
    exact angle_denotes width steps small
  | varInt32 => exact varInt32_denotes value
  | varInt64 => exact varInt64_denotes value
  | signedVarInt32 => exact signedVarInt32_denotes value
  | signedVarInt64 => exact signedVarInt64_denotes value
  | uBitVar => exact uBitVar_denotes value
  | varUBit =>
    obtain ⟨ranged, held⟩ := varUClass_holds (BitVec.toNat value) encodable
    exact varUBit_denotes value _ ranged held
  | bitCoord => exact coord_denotes value encodable
  | bitCoordMP coordType => exact coordMP_denotes coordType value encodable
  | bitCellCoord bits coordType positive width =>
    exact cellCoord_denotes coordType value (Nat.le_trans width (by decide)) encodable
  | bitVec3Coord => exact vec3Coord_denotes value encodable.1 encodable.2.1 encodable.2.2
  | bitAngles =>
    exact (vec3Coord_denotes ⟨value.x, value.y, value.z⟩ encodable.1 encodable.2.1
      encodable.2.2).map fun vector : CoordVector => (⟨vector.x, vector.y, vector.z⟩ : QAngle)

end FieldKind

/-- Whatever fields are sent one behind the other, at whatever bit they begin and whatever
    follows them: the reader returns them all and stands behind the last, with its flag
    clear. -/
theorem fields_read_back (memory : Int → Byte) (bytes position : Nat) (r : CBitRead)
    (fields : List (Sigma FieldKind.Value)) (ready : Ready memory bytes r position)
    (encodable : ∀ field ∈ fields, FieldKind.Encodable field.1 field.2)
    (follows : window (bitList memory bytes) position
        (fields.flatMap fun field => FieldKind.code field.1 field.2).length =
      fields.flatMap fun field => FieldKind.code field.1 field.2) :
    ((readFieldKinds memory (fields.map Sigma.fst)).run r).1 = fields ∧
      Ready memory bytes ((readFieldKinds memory (fields.map Sigma.fst)).run r).2
        (position + (fields.flatMap fun field => FieldKind.code field.1 field.2).length) := by
  have denoted := Denotes.fields FieldKind.format (fun field => FieldKind.code field.1 field.2) fields
    fun field member => FieldKind.denotes field.1 field.2 (encodable field member)
  generalize fields.flatMap (fun field => FieldKind.code field.1 field.2) = code at follows denoted ⊢
  have split : (bitList memory bytes).drop position =
      code ++ ((bitList memory bytes).drop position).drop code.length := by
    have parts := List.take_append_drop code.length ((bitList memory bytes).drop position)
    rw [show ((bitList memory bytes).drop position).take code.length = code from follows] at parts
    exact parts.symm
  have taken := denoted (((bitList memory bytes).drop position).drop code.length)
  rw [← split] at taken
  obtain ⟨same, behind⟩ := fields_found memory bytes position r _ ready taken
  have bound := ready.standing.bound
  have length := congrArg List.length follows
  simp only [window, List.length_take, List.length_drop, bitList_length] at length
  have place : 8 * bytes - (((bitList memory bytes).drop position).drop code.length).length =
      position + code.length := by
    rw [List.length_drop, List.length_drop, bitList_length]
    omega
  rw [place] at behind
  exact ⟨same, behind⟩

/-- The bits of the coordinate -(5 + 7/32) and of the ten-bit number -3. -/
def coordinateAndNumber (address : Int) : Byte :=
  if address = 0 then 0x27#8 else if address = 2 then 0x4E#8 else if address = 3 then 0xFF#8 else 0#8

/-- Both are read back from a buffer of four bytes. -/
theorem coordinate_read_back :
    ((readFieldKinds coordinateAndNumber [.bitCoord, .sBitLong 10 (by decide) (by decide)]).run
      (construct coordinateAndNumber ⟨0, 0, 0, 0, false, false, 0, 0⟩ 4)).1 =
        [⟨.bitCoord, (⟨true, 167⟩ : Coordinate)⟩,
          ⟨.sBitLong 10 (by decide) (by decide), (-3 : Int)⟩] := by
  have ready := construct_ready coordinateAndNumber ⟨0, 0, 0, 0, false, false, 0, 0⟩ 4 (by decide)
    (by decide)
  refine (fields_read_back coordinateAndNumber 4 0 _ [⟨.bitCoord, (⟨true, 167⟩ : Coordinate)⟩,
    ⟨.sBitLong 10 (by decide) (by decide), (-3 : Int)⟩] ready ?_ (by decide +kernel)).1
  intro field member
  rcases List.mem_cons.mp member with rfl | member
  · exact ⟨by decide, fun _ => by decide⟩
  · rw [List.mem_singleton.mp member]
    exact ⟨by decide, by decide⟩

end Sniffles.CBitRead
