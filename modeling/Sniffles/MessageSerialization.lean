import Sniffles.MessageParsing

/-!
# Serialization of the generated messages

The generated `SerializeWithCachedSizesToArray` writes the fields of a message in their
order, each behind its tag, and then the unknown fields. Every writer moves the target
over the bytes that it has written and touches no others, so a writer is modelled by
those bytes. `SerializeToArray` first compares the size of the array with `ByteSize`,
which adds up the sizes of the fields without writing them.
-/

namespace Sniffles

open BitSequences MachineIntegers CheckedMemory TaggedRecords RecordLayouts

namespace CodedOutputStream

/-- `value >> shift | 0x80`, stored in one byte. -/
def groupByte {width : Nat} (value : BitVec width) (shift : Nat) : Byte :=
  (value >>> shift ||| 0x80).setWidth 8

/-- The nested tests of `WriteVarint32FallbackToArrayInline`. -/
def writeVarint32FallbackToArray (value : BitVec 32) : List Byte :=
  if value ≥ 128 then
    if value ≥ 16384 then
      if value ≥ 2097152 then
        if value ≥ 268435456 then
          [groupByte value 0, groupByte value 7, groupByte value 14, groupByte value 21,
            (value >>> 28).setWidth 8]
        else [groupByte value 0, groupByte value 7, groupByte value 14, groupByte value 21 &&& 0x7F]
      else [groupByte value 0, groupByte value 7, groupByte value 14 &&& 0x7F]
    else [groupByte value 0, groupByte value 7 &&& 0x7F]
  else [groupByte value 0 &&& 0x7F]

def writeVarint32ToArray (value : BitVec 32) : List Byte :=
  if value < 0x80 then [value.setWidth 8] else writeVarint32FallbackToArray value

/-- The search tree of `WriteVarint64ToArrayInline`. -/
def varint64Parts (part0 part1 part2 : BitVec 32) : Nat :=
  if part2 = 0 then
    if part1 = 0 then
      if part0 < 16384 then if part0 < 128 then 1 else 2
      else if part0 < 2097152 then 3 else 4
    else if part1 < 16384 then if part1 < 128 then 5 else 6
    else if part1 < 2097152 then 7 else 8
  else if part2 < 128 then 9 else 10

/-- `target[size-1] &= 0x7F`. -/
def clearLast : List Byte → List Byte
  | [] => []
  | [last] => [last &&& 0x7F]
  | first :: second :: rest => first :: clearLast (second :: rest)

def writeVarint64ToArray (value : BitVec 64) : List Byte :=
  let part0 : BitVec 32 := value.setWidth 32
  let part1 : BitVec 32 := (value >>> 28).setWidth 32
  let part2 : BitVec 32 := (value >>> 56).setWidth 32
  let target := [groupByte part0 0, groupByte part0 7, groupByte part0 14, groupByte part0 21,
    groupByte part1 0, groupByte part1 7, groupByte part1 14, groupByte part1 21,
    groupByte part2 0, groupByte part2 7]
  clearLast (target.take (varint64Parts part0 part1 part2))

def writeVarint32SignExtendedToArray (value : BitVec 32) : List Byte :=
  if value.toInt < 0 then writeVarint64ToArray (value.signExtend 64) else writeVarint32ToArray value

def writeTagToArray (value : BitVec 32) : List Byte :=
  if value < 128 then [value.setWidth 8]
  else if value < 16384 then [groupByte value 0, (value >>> 7).setWidth 8]
  else writeVarint32FallbackToArray value

def varintSize32 (value : BitVec 32) : Nat :=
  if value < 128 then 1
  else if value < 16384 then 2
  else if value < 2097152 then 3
  else if value < 268435456 then 4
  else 5

def varintSize64 (value : BitVec 64) : Nat :=
  if value < 34359738368 then
    if value < 128 then 1
    else if value < 16384 then 2
    else if value < 2097152 then 3
    else if value < 268435456 then 4
    else 5
  else if value < 4398046511104 then 6
  else if value < 562949953421312 then 7
  else if value < 72057594037927936 then 8
  else if value < 9223372036854775808 then 9
  else 10

def varintSize32SignExtended (value : BitVec 32) : Nat :=
  if value.toInt < 0 then 10 else varintSize32 value

end CodedOutputStream

namespace WireFormatLite

open CodedOutputStream

/-- `WriteUInt32NoTagToArray` and its siblings; for texts, the length and the bytes. -/
def writeNoTagToArray : (kind : Kind) → kind.Value → List Byte
  | .uint32, value => writeVarint32ToArray value
  | .int32, value => writeVarint32SignExtendedToArray value
  | .uint64, value => writeVarint64ToArray value
  | .bool, value => writeVarint32ToArray (if value then 1 else 0)
  | .fixed32, value => littleEndian 4 value
  | .float, value => littleEndian 4 value
  | .string, text => writeVarint32ToArray (BitVec.ofNat 32 text.length) ++ text
  | .bytes, text => writeVarint32ToArray (BitVec.ofNat 32 text.length) ++ text

/-- `WriteUInt32ToArray` and its siblings. -/
def writeToArray (number : BitVec 29) (kind : Kind) (value : kind.Value) : List Byte :=
  writeTagToArray (makeTag number kind.wireType) ++ writeNoTagToArray kind value

/-- `UInt32Size` and its siblings, and the constants for fields of fixed size. -/
def valueSize : (kind : Kind) → kind.Value → Nat
  | .uint32, value => varintSize32 value
  | .int32, value => varintSize32SignExtended value
  | .uint64, value => varintSize64 value
  | .bool, _ => 1
  | .fixed32, _ => 4
  | .float, _ => 4
  | .string, text => varintSize32 (BitVec.ofNat 32 text.length) + text.length
  | .bytes, text => varintSize32 (BitVec.ofNat 32 text.length) + text.length

end WireFormatLite

namespace WireFormat

open CodedOutputStream

mutual

/-- The cases of `SerializeUnknownFieldsToArray`. -/
def serializeUnknownFieldToArray : Record → List Byte
  | .varint number value =>
    writeTagToArray (makeTag number varintType) ++ writeVarint64ToArray value
  | .fixed64 number value =>
    writeTagToArray (makeTag number fixed64Type) ++ littleEndian 8 value
  | .delimited number text =>
    writeTagToArray (makeTag number delimitedType) ++
      (writeVarint32ToArray (BitVec.ofNat 32 text.length) ++ text)
  | .group number fields =>
    writeTagToArray (makeTag number startGroupType) ++ serializeUnknownFieldsToArray fields ++
      writeTagToArray (makeTag number endGroupType)
  | .fixed32 number value =>
    writeTagToArray (makeTag number fixed32Type) ++ littleEndian 4 value

def serializeUnknownFieldsToArray : List Record → List Byte
  | [] => []
  | field :: fields => serializeUnknownFieldToArray field ++ serializeUnknownFieldsToArray fields

end

mutual

/-- The cases of `ComputeUnknownFieldsSize`. -/
def computeUnknownFieldSize : Record → Nat
  | .varint number value => varintSize32 (makeTag number varintType) + varintSize64 value
  | .fixed64 number _ => varintSize32 (makeTag number fixed64Type) + 8
  | .delimited number text =>
    varintSize32 (makeTag number delimitedType) +
      varintSize32 (BitVec.ofNat 32 text.length) + text.length
  | .group number fields =>
    varintSize32 (makeTag number startGroupType) + computeUnknownFieldsSize fields +
      varintSize32 (makeTag number endGroupType)
  | .fixed32 number _ => varintSize32 (makeTag number fixed32Type) + 4

def computeUnknownFieldsSize : List Record → Nat
  | [] => 0
  | field :: fields => computeUnknownFieldSize field + computeUnknownFieldsSize fields

end

end WireFormat

namespace MessageClass

open WireFormatLite

/-- `SerializeWithCachedSizesToArray`. -/
def serializeWithCachedSizesToArray (generated : MessageClass) (message : Message generated.layout) :
    List Byte :=
  (List.finRange generated.layout.fields.length).flatMap
      (fun index => (message.contents index).flatMap
        (writeToArray (generated.layout.field index).number (generated.layout.field index).kind)) ++
    WireFormat.serializeUnknownFieldsToArray message.unknown

/-- The tags of the fields up to number 15 take one byte, the others two. -/
def tagSize (number : BitVec 29) : Nat := if number < 16 then 1 else 2

/-- `ByteSize`, a sum of type `int`. -/
def byteSize (generated : MessageClass) (message : Message generated.layout) : Int :=
  int32 (((List.finRange generated.layout.fields.length).map
      (fun index => ((message.contents index).map
        (fun value => tagSize (generated.layout.field index).number +
          valueSize (generated.layout.field index).kind value)).sum)).sum +
    WireFormat.computeUnknownFieldsSize message.unknown : Nat)

/-- `SerializeToArray`: whether it returns true, and the array. -/
def serializeToArray (generated : MessageClass) (message : Message generated.layout)
    (data : List Byte) (size : Int) : Checked (Bool × List Byte) :=
  if size < generated.byteSize message then .ok (false, data)
  else do
    let data ← writeRange data 0 (generated.serializeWithCachedSizesToArray message)
    .ok (true, data)

/-- `MergeFrom`. -/
def mergeFrom (generated : MessageClass) (message other : Message generated.layout) :
    Message generated.layout where
  contents index :=
    if (generated.layout.field index).repeated then message.contents index ++ other.contents index
    else if (other.contents index).isEmpty then message.contents index else other.contents index
  single index optional := by
    rw [if_neg (by rw [optional]; exact Bool.false_ne_true)]
    split
    · exact message.single index optional
    · exact other.single index optional
  unknown := message.unknown ++ other.unknown

end MessageClass

end Sniffles
