import Sniffles.SerializedNumbers
import Sniffles.ParsedMessages

/-!
# Serialized messages

A message is serialized as the canonical spelling of the records that list it. What a
parser has accepted can be serialized, and the parser reads the same message from it;
the array itself may have been longer, or in another order. Parsing one array behind
another merges the two messages.
-/

namespace Sniffles

open BitSequences Base128 MachineIntegers CheckedMemory TaggedRecords RecordLayouts
open CodedOutputStream

/-- A written length is that of the text. -/
theorem writeLength_encode (text : List Byte) (short : text.length < 2147483648) :
    writeVarint32ToArray (BitVec.ofNat 32 text.length) = encode text.length := by
  rw [writeVarint32ToArray_encode, BitVec.toNat_ofNat]
  congr 1
  omega

theorem lengthSize_encode (text : List Byte) (short : text.length < 2147483648) :
    varintSize32 (BitVec.ofNat 32 text.length) = (encode text.length).length := by
  rw [varintSize32_encode, ← writeVarint32ToArray_encode, writeLength_encode text short]

theorem tagSize_bytes (tag : BitVec 32) : varintSize32 tag = (tagBytes tag).length :=
  varintSize32_encode tag

namespace WireFormatLite

/-- A field is written as its record. -/
theorem writeToArray_bytes (number : BitVec 29) (kind : Kind) (value : kind.Value)
    (sound : (kind.record number value).Sound) :
    writeToArray number kind value = (kind.record number value).bytes := by
  rw [writeToArray, writeTagToArray_encode]
  cases kind with
  | uint32 =>
    have wide : (BitVec.setWidth 64 value).toNat = value.toNat := by
      have := BitVec.isLt (x := value)
      rw [BitVec.toNat_setWidth]
      omega
    rw [writeNoTagToArray, writeVarint32ToArray_encode, Kind.record, Record.bytes, wide]
    rfl
  | int32 =>
    rw [writeNoTagToArray, writeVarint32SignExtendedToArray_encode]
    rfl
  | uint64 =>
    rw [writeNoTagToArray, writeVarint64ToArray_encode]
    rfl
  | bool =>
    rw [writeNoTagToArray, writeVarint32ToArray_encode]
    cases value <;> rfl
  | fixed32 | float => rfl
  | string | bytes =>
    rw [writeNoTagToArray, writeLength_encode value sound, ← List.append_assoc]
    rfl

/-- The size of a field is the length of its record behind the tag. -/
theorem valueSize_bytes (number : BitVec 29) (kind : Kind) (value : kind.Value)
    (sound : (kind.record number value).Sound) :
    (tagBytes (makeTag number kind.wireType)).length + valueSize kind value =
      (kind.record number value).bytes.length := by
  rw [← writeToArray_bytes number kind value sound, writeToArray, writeTagToArray_encode,
    List.length_append]
  congr 1
  cases kind with
  | uint32 => rw [valueSize, writeNoTagToArray, varintSize32_encode, writeVarint32ToArray_encode]
  | int32 =>
    rw [valueSize, writeNoTagToArray, varintSize32SignExtended_encode,
      writeVarint32SignExtendedToArray_encode]
  | uint64 => rw [valueSize, writeNoTagToArray, varintSize64_encode, writeVarint64ToArray_encode]
  | bool => cases value <;> rfl
  | fixed32 | float => rw [valueSize, writeNoTagToArray, littleEndian_length]
  | string | bytes =>
    rw [valueSize, writeNoTagToArray, List.length_append, lengthSize_encode value sound,
      writeLength_encode value sound]

end WireFormatLite

namespace WireFormat

mutual

/-- An unknown field is written as its record. -/
theorem serializeUnknownField_bytes (record : Record) (sound : record.Sound) :
    serializeUnknownFieldToArray record = record.bytes := by
  match record with
  | .varint number value =>
    rw [serializeUnknownFieldToArray, writeTagToArray_encode, writeVarint64ToArray_encode,
      Record.bytes]
  | .fixed64 number value => rw [serializeUnknownFieldToArray, writeTagToArray_encode, Record.bytes]
  | .delimited number text =>
    rw [serializeUnknownFieldToArray, writeTagToArray_encode, writeLength_encode text sound,
      ← List.append_assoc, Record.bytes]
  | .group number fields =>
    rw [serializeUnknownFieldToArray, writeTagToArray_encode, writeTagToArray_encode,
      serializeUnknownFields_bytes fields sound, Record.bytes]
  | .fixed32 number value => rw [serializeUnknownFieldToArray, writeTagToArray_encode, Record.bytes]

theorem serializeUnknownFields_bytes (records : List Record) (sound : RecordsSound records) :
    serializeUnknownFieldsToArray records = recordBytes records := by
  match records with
  | [] => rfl
  | record :: others =>
    rw [serializeUnknownFieldsToArray, serializeUnknownField_bytes record sound.1,
      serializeUnknownFields_bytes others sound.2, recordBytes]

end

mutual

/-- The size of an unknown field is the length of its record. -/
theorem computeUnknownFieldSize_bytes (record : Record) (sound : record.Sound) :
    computeUnknownFieldSize record = record.bytes.length := by
  match record with
  | .varint number value =>
    rw [computeUnknownFieldSize, tagSize_bytes, varintSize64_encode, Record.bytes,
      List.length_append]
  | .fixed64 number value =>
    rw [computeUnknownFieldSize, tagSize_bytes, Record.bytes, List.length_append,
      littleEndian_length]
  | .delimited number text =>
    rw [computeUnknownFieldSize, tagSize_bytes, lengthSize_encode text sound, Record.bytes,
      List.length_append, List.length_append]
  | .group number fields =>
    rw [computeUnknownFieldSize, tagSize_bytes, tagSize_bytes,
      computeUnknownFieldsSize_bytes fields sound, Record.bytes, List.length_append,
      List.length_append]
  | .fixed32 number value =>
    rw [computeUnknownFieldSize, tagSize_bytes, Record.bytes, List.length_append,
      littleEndian_length]

theorem computeUnknownFieldsSize_bytes (records : List Record) (sound : RecordsSound records) :
    computeUnknownFieldsSize records = (recordBytes records).length := by
  match records with
  | [] => rfl
  | record :: others =>
    rw [computeUnknownFieldsSize, computeUnknownFieldSize_bytes record sound.1,
      computeUnknownFieldsSize_bytes others sound.2, recordBytes, List.length_append]

end

end WireFormat

namespace MessageClass

open WireFormatLite

variable (generated : MessageClass)

/-- The tag of a field takes one byte or two. -/
theorem tagSize_field (index : generated.layout.Index) :
    tagSize (generated.layout.field index).number =
      (tagBytes (generated.layout.field index).tag).length := by
  have within : (generated.layout.field index).tag.toNat < 16384 :=
    Nat.lt_of_le_of_lt (generated.bounded index) generated.short
  have value := makeTag_toNat (generated.layout.field index).number
    (generated.layout.field index).kind.wireType
  have low := (generated.layout.field index).kind.wireType.isLt
  have same : (generated.layout.field index).tag.toNat =
      8 * (generated.layout.field index).number.toNat +
        (generated.layout.field index).kind.wireType.toNat := value
  rw [tagSize, tagBytes]
  split
  case isTrue small =>
    have below : (generated.layout.field index).number.toNat < 16 := small
    exact (encode_groups 0 _ (by omega) (.inl rfl)).symm
  case isFalse large =>
    have above : 16 ≤ (generated.layout.field index).number.toNat := Nat.le_of_not_lt large
    exact (encode_groups 1 _ (by omega) (.inr (by omega))).symm

/-- A message can be written so that its parser reads it back: its unknown records belong
    to no field, can be spelled, and are not nested too deeply. -/
structure Writable (message : Message generated.layout) : Prop where
  foreign : message.Foreign
  sound : RecordsSound message.records
  shallow : recordsDepth message.records ≤ 100

variable {generated}

/-- The records of the fields can be spelled. -/
theorem field_sound {message : Message generated.layout} (sound : RecordsSound message.records)
    (index : generated.layout.Index) (value : (generated.layout.field index).kind.Value)
    (member : value ∈ message.contents index) :
    ((generated.layout.field index).kind.record (generated.layout.field index).number value).Sound := by
  apply (recordsSound_iff _).mp sound
  rw [Message.records, List.mem_append, List.mem_flatMap]
  exact .inl ⟨index, List.mem_finRange index, List.mem_map_of_mem member⟩

theorem unknown_sound {message : Message generated.layout} (sound : RecordsSound message.records) :
    RecordsSound message.unknown := by
  rw [recordsSound_iff] at sound ⊢
  exact fun record member => sound record (List.mem_append_right _ member)

/-- A message is serialized as the canonical spelling of its records. -/
theorem serialize_bytes (message : Message generated.layout) (sound : RecordsSound message.records) :
    generated.serializeWithCachedSizesToArray message = recordBytes message.records := by
  rw [serializeWithCachedSizesToArray, Message.records, recordBytes_append,
    WireFormat.serializeUnknownFields_bytes _ (unknown_sound sound)]
  congr 1
  rw [recordBytes_flatMap, List.flatMap_assoc]
  apply List.flatMap_congr
  intro index _
  rw [List.flatMap_map]
  apply List.flatMap_congr
  intro value member
  exact writeToArray_bytes _ _ value (field_sound sound index value member)

/-- `ByteSize` is the number of serialized bytes, as an `int`. -/
theorem byteSize_length (message : Message generated.layout) (sound : RecordsSound message.records) :
    generated.byteSize message =
      int32 ((generated.serializeWithCachedSizesToArray message).length : Int) := by
  have fields : ((List.finRange generated.layout.fields.length).map
      (fun index => ((message.contents index).map
        (fun value => tagSize (generated.layout.field index).number +
          valueSize (generated.layout.field index).kind value)).sum)).sum =
      ((List.finRange generated.layout.fields.length).flatMap
        (fun index => (message.contents index).flatMap
          (writeToArray (generated.layout.field index).number
            (generated.layout.field index).kind))).length := by
    rw [List.length_flatMap]
    congr 1
    apply List.map_congr_left
    intro index _
    rw [List.length_flatMap]
    congr 1
    apply List.map_congr_left
    intro value member
    have one := field_sound sound index value member
    rw [writeToArray_bytes _ _ value one, ← valueSize_bytes _ _ value one, tagSize_field]
    rfl
  rw [byteSize, fields, WireFormat.computeUnknownFieldsSize_bytes _ (unknown_sound sound),
    serializeWithCachedSizesToArray,
    WireFormat.serializeUnknownFields_bytes _ (unknown_sound sound), List.length_append]

/-- `ByteSize` is the length of the canonical spelling of the records of the message, and
    `SerializeToArray` puts this spelling at the front of an array that has room for it;
    a smaller array is left alone. -/
theorem serializeToArray_exact (message : Message generated.layout) (data : List Byte)
    (sound : RecordsSound message.records)
    (short : (recordBytes message.records).length < 2147483648) :
    generated.byteSize message = (recordBytes message.records).length ∧
      generated.serializeToArray message data data.length =
        if (data.length : Int) < generated.byteSize message then .ok (false, data)
        else .ok (true, recordBytes message.records ++
          data.drop (recordBytes message.records).length) := by
  have size : generated.byteSize message = (recordBytes message.records).length := by
    rw [byteSize_length message sound, serialize_bytes message sound]
    exact int32_of_fits (by omega) (by omega)
  refine ⟨size, ?_⟩
  rw [serializeToArray, serialize_bytes message sound, size]
  by_cases small : data.length < (recordBytes message.records).length
  · rw [if_pos (Int.ofNat_lt.mpr small), if_pos (Int.ofNat_lt.mpr small)]
  · have room : 0 + (recordBytes message.records).length ≤ data.length := by omega
    have large : ¬ (data.length : Int) < (recordBytes message.records).length :=
      fun less => small (Int.ofNat_lt.mp less)
    rw [if_neg large, if_neg large, writeRange, if_pos room, ok_bind, Nat.zero_add,
      List.take_zero, List.nil_append]

/-- A tick of 42, in front of an unknown field. -/
theorem tick_serialized_exact :
    CNETMsg_Tick.byteSize
        { (Message.empty CNETMsg_Tick.layout).store ⟨0, by decide⟩ (42 : BitVec 32) with
          unknown := [.varint 9 7] } = 4 ∧
      CNETMsg_Tick.serializeToArray
        { (Message.empty CNETMsg_Tick.layout).store ⟨0, by decide⟩ (42 : BitVec 32) with
          unknown := [.varint 9 7] } [1, 2, 3, 4, 5, 6] 6 =
      .ok (true, [0x08, 0x2A, 0x48, 0x07, 5, 6]) := by
  have sound : RecordsSound (Message.records
      { (Message.empty CNETMsg_Tick.layout).store ⟨0, by decide⟩ (42 : BitVec 32) with
        unknown := [.varint 9 7] }) := by
    have records : Message.records { (Message.empty CNETMsg_Tick.layout).store ⟨0, by decide⟩
        (42 : BitVec 32) with unknown := [.varint 9 7] } = [.varint 1 42, .varint 9 7] := rfl
    rw [records, RecordsSound, RecordsSound, RecordsSound, Record.Sound, Record.Sound]
    exact ⟨by decide, by decide, trivial⟩
  have bytes : recordBytes (Message.records
      { (Message.empty CNETMsg_Tick.layout).store ⟨0, by decide⟩ (42 : BitVec 32) with
        unknown := [.varint 9 7] }) = [0x08, 0x2A, 0x48, 0x07] :=
    (serialize_bytes _ sound).symm
  have exactly := serializeToArray_exact
    { (Message.empty CNETMsg_Tick.layout).store ⟨0, by decide⟩ (42 : BitVec 32) with
      unknown := [.varint 9 7] } [1, 2, 3, 4, 5, 6] sound (by rw [bytes]; decide)
  rw [bytes] at exactly
  obtain ⟨size, written⟩ := exactly
  rw [size, if_neg (by decide)] at written
  exact ⟨size, written⟩

/-- A message is read back from the canonical spelling of its records. -/
theorem parse_records (reader : TagReader) (message : Message generated.layout)
    (writable : generated.Writable message) (turns : Nat)
    (bounded : (generated.serializeWithCachedSizesToArray message).length ≤ 67108864)
    (enough : 2 * (generated.serializeWithCachedSizesToArray message).length < turns) :
    generated.parseFromArray reader turns (generated.serializeWithCachedSizesToArray message)
      (generated.serializeWithCachedSizesToArray message).length = .ok (some message) := by
  have listed := recordsListed message.records writable.sound 100 writable.shallow
  rw [← serialize_bytes message writable.sound] at listed
  rw [generated.parse_of_listed reader _ turns bounded enough listed,
    Message.absorbAll_records message writable.foreign]

/-- What some listed records put together can be written. -/
theorem listed_writable {bytes : List Byte} {records : List Record}
    (listed : Listed 100 bytes records) :
    generated.Writable ((Message.empty generated.layout).absorbAll records) := by
  obtain ⟨sound, shallow⟩ := listed.sound
  obtain ⟨again, flat⟩ :=
    @Message.absorbAll_sound generated.layout records 100 sound shallow
  exact { foreign := Message.absorbAll_foreign records, sound := again, shallow := flat }

/-- Serialization and parsing are inverse: every message that can be written, with whatever
    unknown fields, is parsed back from its serialized bytes, and what a parser accepts can
    be written. -/
theorem serialized_parsed (generated : MessageClass) (reader : TagReader)
    (message : Message generated.layout) (turns : Nat) :
    (generated.Writable message →
      (generated.serializeWithCachedSizesToArray message).length ≤ 67108864 →
        2 * (generated.serializeWithCachedSizesToArray message).length < turns →
          generated.parseFromArray reader turns (generated.serializeWithCachedSizesToArray message)
            (generated.serializeWithCachedSizesToArray message).length = .ok (some message)) ∧
      ∀ window : List Byte, window.length ≤ 67108864 → 2 * window.length < turns →
        generated.parseFromArray reader turns window window.length = .ok (some message) →
          generated.Writable message := by
  refine ⟨fun writable bounded enough => parse_records reader message writable turns bounded enough,
    fun window bounded enough parsed => ?_⟩
  obtain ⟨records, listed, rfl⟩ := generated.parse_listed reader window turns bounded enough parsed
  exact listed_writable listed

/-- The parser of ticks returns a tick of 42. -/
theorem tick_serialized_parsed :
    CNETMsg_Tick.parseFromArray .plain 13 [0x08, 0x2A] 2 =
        .ok (some ((Message.empty CNETMsg_Tick.layout).store ⟨0, by decide⟩ (42 : BitVec 32))) ∧
      CNETMsg_Tick.Writable
        ((Message.empty CNETMsg_Tick.layout).store ⟨0, by decide⟩ (42 : BitVec 32)) := by
  have exactly := serialized_parsed CNETMsg_Tick .plain
    ((Message.empty CNETMsg_Tick.layout).store ⟨0, by decide⟩ (42 : BitVec 32)) 13
  have back := exactly.2 [0x08, 0x2A] (by decide) (by decide) rfl
  exact ⟨exactly.1 back (by decide) (by decide), back⟩

/-- `MergeFrom` joins the values of each field. -/
theorem mergeFrom_joined (message other : Message generated.layout) :
    generated.mergeFrom message other = message.mergeFrom other := by
  apply Message.same
  · funext index
    show (if (generated.layout.field index).repeated then
        message.contents index ++ other.contents index
      else if (other.contents index).isEmpty then message.contents index
        else other.contents index) =
      Message.joined (generated.layout.field index).repeated (message.contents index)
        (other.contents index)
    cases repeated : (generated.layout.field index).repeated with
    | true => rfl
    | false =>
      have one := message.single index repeated
      have two := other.single index repeated
      match message.contents index, other.contents index, one, two with
      | [], [], _, _ => rfl
      | [_], [], _, _ => rfl
      | [], [_], _, _ => rfl
      | [_], [_], _, _ => rfl
  · rfl

/-- Parsing one accepted array behind another merges the second message into the first. -/
theorem parse_concatenated (generated : MessageClass) (reader : TagReader)
    (first second : List Byte) (turns : Nat) (message other : Message generated.layout)
    (bounded : (first ++ second).length ≤ 67108864)
    (enough : 2 * (first ++ second).length < turns)
    (front : generated.parseFromArray reader turns first first.length = .ok (some message))
    (back : generated.parseFromArray reader turns second second.length = .ok (some other)) :
    generated.parseFromArray reader turns (first ++ second) (first ++ second).length =
      .ok (some (generated.mergeFrom message other)) := by
  have length := @List.length_append _ first second
  obtain ⟨records, listed, rfl⟩ :=
    generated.parse_listed reader first turns (by omega) (by omega) front
  obtain ⟨others, also, rfl⟩ :=
    generated.parse_listed reader second turns (by omega) (by omega) back
  rw [generated.parse_of_listed reader _ turns bounded enough (listed.append also),
    Message.absorbAll_append, mergeFrom_joined]

/-- The second of two ticks replaces the first. -/
theorem two_ticks_concatenated :
    CNETMsg_Tick.parseFromArray .plain 13 [0x08, 0x01, 0x08, 0x02] 4 =
      .ok (some (CNETMsg_Tick.mergeFrom
        ((Message.empty CNETMsg_Tick.layout).store ⟨0, by decide⟩ (1 : BitVec 32))
        ((Message.empty CNETMsg_Tick.layout).store ⟨0, by decide⟩ (2 : BitVec 32)))) :=
  parse_concatenated CNETMsg_Tick .plain [0x08, 0x01] [0x08, 0x02] 13 _ _ (by decide) (by decide)
    rfl rfl

end MessageClass

end Sniffles
