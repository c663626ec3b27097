import Sniffles.BitRead

/-!
# Coordinates, angles and plain fields

The routines of `CBitRead` that put several reads together. A coordinate is a sign, an
integer and a fraction with flags in front; the float computed from them has at most 20
significant bits, so it is exact and stands here as its sign and its magnitude in units
of 1/32. An angle is a whole number of steps of 360 / 2^n degrees.
-/

namespace Sniffles

inductive EBitCoordType where
  | kCW_None
  | kCW_LowPrecision
  | kCW_Integral
  deriving DecidableEq, Repr

/-- A float by its sign and its magnitude in units of 1/32. A negative zero keeps its
    sign. -/
structure Coordinate where
  negative : Bool
  magnitude : Nat
  deriving DecidableEq, Repr

/-- `Vector` of coordinates. -/
structure CoordVector where
  x : Coordinate
  y : Coordinate
  z : Coordinate
  deriving DecidableEq, Repr

/-- `QAngle`. -/
structure QAngle where
  x : Coordinate
  y : Coordinate
  z : Coordinate
  deriving DecidableEq, Repr

namespace CBitRead

open BitSequences

def coordIntegerBits : Nat := 14

def coordFractionalBits : Nat := 5

def coordIntegerBitsMP : Nat := 11

def coordFractionalBitsMPLowPrecision : Nat := 3

variable (memory : Int → Byte)

/-- `ReadUBitLong` as an action on the reader. -/
def uBitLong (numbits : Nat) : StateM CBitRead (BitVec 32) := fun r => r.readUBitLong memory numbits

/-- `ReadOneBit` as an action on the reader. -/
def oneBit : StateM CBitRead Int := fun r => r.readOneBit memory

/-- `ReadSBitLong` as an action on the reader. -/
def sBitLong (numbits : Nat) : StateM CBitRead Int := fun r => r.readSBitLong memory numbits

/-- An unsigned byte through an `int`. -/
def readByte : StateM CBitRead Int := (fun word => (word.toNat : Int)) <$> uBitLong memory 8

def readShort : StateM CBitRead Int := sBitLong memory 16

def readWord : StateM CBitRead Int := (fun word => (word.toNat : Int)) <$> uBitLong memory 16

/-- The bits of the float. -/
def readBitFloat : StateM CBitRead (BitVec 32) := uBitLong memory 32

/-- `(float)i * (360.0f / shift)`, exact for at most 18 bits. -/
def readBitAngle (numbits : Nat) : StateM CBitRead ℚ := do
  let shift : ℚ := 2 ^ numbits
  let i ← uBitLong memory numbits
  pure (i.toNat * (360 / shift))

/-- A part of a coordinate that is read only if its flag is set, and zero otherwise. -/
def readFlagged (flag : Int) (read : StateM CBitRead Nat) : StateM CBitRead Nat :=
  if flag ≠ 0 then read else pure 0

/-- Integers are adjusted to start from one. -/
def readInteger (numbits : Nat) : StateM CBitRead Nat :=
  (fun word => word.toNat + 1) <$> uBitLong memory numbits

def readFraction (numbits : Nat) : StateM CBitRead Nat :=
  (fun word => word.toNat) <$> uBitLong memory numbits

def readBitCoord : StateM CBitRead Coordinate := do
  let intval ← oneBit memory
  let fractval ← oneBit memory
  if intval ≠ 0 ∨ fractval ≠ 0 then do
    let signbit ← oneBit memory
    let intval ← readFlagged intval (readInteger memory coordIntegerBits)
    let fractval ← readFlagged fractval (readFraction memory coordFractionalBits)
    pure ⟨decide (signbit ≠ 0), 32 * intval + fractval⟩
  else pure ⟨false, 0⟩

/-- In bounds the integer has fewer bits. -/
def integerBits (bInBounds : Int) : Nat :=
  if bInBounds ≠ 0 then coordIntegerBitsMP else coordIntegerBits

/-- The width of a fraction. -/
def fractionalBits (bLowPrecision : Bool) : Nat :=
  if bLowPrecision then coordFractionalBitsMPLowPrecision else coordFractionalBits

/-- The resolution of a fraction, in units of 1/32. -/
def resolution (bLowPrecision : Bool) : Nat := if bLowPrecision then 4 else 1

/-- An integral coordinate has its sign behind the flag, the others have it always. -/
def readBitCoordMP (coordType : EBitCoordType) : StateM CBitRead Coordinate := do
  let bInBounds ← oneBit memory
  if coordType = .kCW_Integral then do
    let intval ← oneBit memory
    if intval ≠ 0 then do
      let signbit ← oneBit memory
      let intval ← readInteger memory (integerBits bInBounds)
      pure ⟨decide (signbit ≠ 0), 32 * intval⟩
    else pure ⟨false, 0⟩
  else do
    let intval ← oneBit memory
    let signbit ← oneBit memory
    let intval ← readFlagged intval (readInteger memory (integerBits bInBounds))
    let bLowPrecision := decide (coordType = .kCW_LowPrecision)
    let fractval ← readFraction memory (fractionalBits bLowPrecision)
    pure ⟨decide (signbit ≠ 0), 32 * intval + resolution bLowPrecision * fractval⟩

/-- Exact for cells of at most 19 bits. -/
def readBitCellCoord (bits : Nat) (coordType : EBitCoordType) : StateM CBitRead Coordinate := do
  let intval ← readFraction memory bits
  if coordType = .kCW_Integral then pure ⟨false, 32 * intval⟩
  else do
    let bLowPrecision := decide (coordType = .kCW_LowPrecision)
    let fractval ← readFraction memory (fractionalBits bLowPrecision)
    pure ⟨false, 32 * intval + resolution bLowPrecision * fractval⟩

/-- A component without its flag stays zero. -/
def readComponent (flag : Int) : StateM CBitRead Coordinate :=
  if flag ≠ 0 then readBitCoord memory else pure ⟨false, 0⟩

def readBitVec3Coord : StateM CBitRead CoordVector := do
  let xflag ← oneBit memory
  let yflag ← oneBit memory
  let zflag ← oneBit memory
  let x ← readComponent memory xflag
  let y ← readComponent memory yflag
  let z ← readComponent memory zflag
  pure ⟨x, y, z⟩

def readBitAngles : StateM CBitRead QAngle := do
  let tmp ← readBitVec3Coord memory
  pure ⟨tmp.x, tmp.y, tmp.z⟩

end CBitRead

end Sniffles
