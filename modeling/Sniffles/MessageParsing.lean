import Sniffles.CodedInput

/-!
# Parsing of the generated messages

The generated `MergePartialFromCodedStream` of a message reads one tag after another
and switches on the field number. Behind each field it looks for the tag of the field
that usually comes next and, if it is there, jumps straight to the code of that field;
behind the last field it looks for the end of the input. A tag that belongs to no field
is handed to `SkipField`, which keeps the record among the unknown fields and calls
itself for the records of a group.

The four parsers that `ReadPacket` calls are one text with the fields of their message
filled in, so they are one definition here, and each of the four messages gives its
layout; parsers of messages with a field of message type are a different text.
`ReadTagWithCutoff`, which the generated code calls, is not part of the repository's
library; it is a parameter with the behaviour that it documents.
`VerifyUTF8StringNamedField`, also missing, only writes warnings.

The loops consume input, but a bound on their turns is passed to every definition; one
that is too small is reported as unfinished.
-/

namespace Sniffles

open BitSequences CheckedMemory TaggedRecords RecordLayouts

namespace WireFormatLite

def getTagFieldNumber (tag : BitVec 32) : BitVec 29 := (tag >>> 3).setWidth 29

def getTagWireType (tag : BitVec 32) : BitVec 3 := (tag &&& 7).setWidth 3

/-- `ReadString` and `ReadBytes`: the length is converted to an `int`. -/
def readString (window : List Byte) (input : CodedInputStream) :
    Checked (Option (List Byte) × CodedInputStream) := do
  let (length, input) ← input.readVarint32 window
  match length with
  | none => .ok (none, input)
  | some length => input.internalReadStringInline window length.toInt

/-- `ReadPrimitive` for the declared type of a field, or `ReadString` and `ReadBytes`. -/
def readPrimitive (kind : Kind) (window : List Byte) (input : CodedInputStream) :
    Checked (Option kind.Value × CodedInputStream) :=
  match kind with
  | .uint32 => input.readVarint32 window
  | .int32 => input.readVarint32 window
  | .uint64 => input.readVarint64 window
  | .bool => do
    let (temp, input) ← input.readVarint32 window
    .ok (temp.map fun temp => decide (temp ≠ 0), input)
  | .fixed32 => input.readLittleEndian32 window
  | .float => input.readLittleEndian32 window
  | .string => readString window input
  | .bytes => readString window input

end WireFormatLite

namespace WireFormat

open WireFormatLite

/-- The cases of `SkipField` that read no nested fields. -/
def skipPlain (window : List Byte) (input : CodedInputStream) (tag : BitVec 32) :
    Checked (Option Record × CodedInputStream) :=
  let number := getTagFieldNumber tag
  if getTagWireType tag = varintType then do
    let (value, input) ← input.readVarint64 window
    .ok (value.map (.varint number), input)
  else if getTagWireType tag = fixed64Type then do
    let (value, input) ← input.readLittleEndian64 window
    .ok (value.map (.fixed64 number), input)
  else if getTagWireType tag = delimitedType then do
    let (length, input) ← input.readVarint32 window
    match length with
    | none => .ok (none, input)
    | some length => do
      let (text, input) ← input.readString window length.toInt
      .ok (text.map (.delimited number), input)
  else if getTagWireType tag = fixed32Type then do
    let (value, input) ← input.readLittleEndian32 window
    .ok (value.map (.fixed32 number), input)
  else .ok (none, input)

mutual

/-- `SkipField`: the field that was read, if it is well formed. -/
def skipField (window : List Byte) : Nat → CodedInputStream → BitVec 32 →
    Checked (Option Record × CodedInputStream)
  | 0, _, _ => .error .unfinished
  | turns + 1, input, tag =>
    if getTagWireType tag = startGroupType then
      let (shallow, input) := input.incrementRecursionDepth
      if shallow then do
        let (fields, input) ← skipMessage window turns input
        match fields with
        | none => .ok (none, input)
        | some fields =>
          let input := input.decrementRecursionDepth
          -- The ending tag has to match the starting tag.
          if input.lastTagWas (makeTag (getTagFieldNumber tag) endGroupType) then
            .ok (some (.group (getTagFieldNumber tag) fields), input)
          else .ok (none, input)
      else .ok (none, input)
    else skipPlain window input tag

/-- `SkipMessage`: the fields up to the end of the input or of a group. -/
def skipMessage (window : List Byte) : Nat → CodedInputStream →
    Checked (Option (List Record) × CodedInputStream)
  | 0, _ => .error .unfinished
  | turns + 1, input => do
    let (tag, input) ← input.readTag window
    if tag = 0 then .ok (some [], input)
    else if getTagWireType tag = endGroupType then .ok (some [], input)
    else do
      let (field, input) ← skipField window turns input tag
      match field with
      | none => .ok (none, input)
      | some field => do
        let (fields, input) ← skipMessage window turns input
        .ok (fields.map (field :: ·), input)

end

end WireFormat

/-- `ReadTagWithCutoff`: it reads the tag as `ReadTag` does and says whether the tag is
    known to lie at or below the cutoff. If it does not say so, the tag is above the
    cutoff or zero. -/
structure TagReader where
  readTagWithCutoff : List Byte → CodedInputStream → BitVec 32 →
    Checked ((BitVec 32 × Bool) × CodedInputStream)
  known : List Byte → CodedInputStream → BitVec 32 → Bool
  reads : ∀ window input cutoff, readTagWithCutoff window input cutoff = do
    let (tag, behind) ← input.readTag window
    .ok ((tag, known window input cutoff), behind)
  below : ∀ window input cutoff tag behind, input.readTag window = .ok (tag, behind) →
    known window input cutoff = true → tag ≤ cutoff
  above : ∀ window input cutoff tag behind, input.readTag window = .ok (tag, behind) →
    known window input cutoff = false → cutoff < tag ∨ tag = 0

/-- A tag reader that compares the tag with the cutoff, on every path. -/
def TagReader.plain : TagReader where
  readTagWithCutoff window input cutoff := do
    let (tag, behind) ← input.readTag window
    .ok ((tag, decide (tag - 1 < cutoff)), behind)
  known window input cutoff :=
    match input.readTag window with
    | .ok (tag, _) => decide (tag - 1 < cutoff)
    | .error _ => false
  reads window input cutoff := by
    cases read : input.readTag window <;> rfl
  below window input cutoff tag behind read known := by
    rw [read] at known
    have less : tag - 1 < cutoff := of_decide_eq_true known
    bv_omega
  above window input cutoff tag behind read unknown := by
    rw [read] at unknown
    have notLess : ¬tag - 1 < cutoff := of_decide_eq_false unknown
    by_cases zero : tag = 0
    · exact .inr zero
    · left
      bv_omega

/-- A generated message type: its fields and the cutoff of its parser, which no tag of a
    field exceeds. Tags up to a cutoff take at most two bytes. -/
structure MessageClass where
  layout : Layout
  cutoff : BitVec 32
  bounded : ∀ index : layout.Index, (layout.field index).tag ≤ cutoff
  short : cutoff < 16384

namespace MessageClass

open WireFormatLite

/-- The field listed after another one. -/
def nextField (layout : Layout) (index : layout.Index) : Option layout.Index :=
  if more : index.val + 1 < layout.fields.length then some ⟨index.val + 1, more⟩ else none

/-- Where a generated parser goes on: at the head of its loop, at the label in the code of a
    field, or at the label of its end. -/
inductive Label (layout : Layout) where
  | loop
  | parse (index : layout.Index)
  | success

/-- A repeated field may be followed by itself. -/
def expectAgain (generated : MessageClass) (window : List Byte) (index : generated.layout.Index)
    (input : CodedInputStream) : Checked (Bool × CodedInputStream) :=
  if (generated.layout.field index).repeated then
    input.expectTag window (generated.layout.field index).tag
  else .ok (false, input)

/-- The tests behind the code of a field. -/
def expectNext (generated : MessageClass) (window : List Byte) (index : generated.layout.Index)
    (input : CodedInputStream) : Checked (Label generated.layout × CodedInputStream) := do
  let (again, input) ← generated.expectAgain window index input
  if again then .ok (.parse index, input)
  else
    match nextField generated.layout index with
    | some next => do
      let (follows, input) ← input.expectTag window (generated.layout.field next).tag
      .ok (if follows then .parse next else .loop, input)
    | none =>
      let (ended, input) := input.expectAtEnd
      .ok (if ended then .success else .loop, input)

/-- `MergePartialFromCodedStream`, from one of its labels. A failure leaves no message. -/
def mergePartialFromCodedStream (generated : MessageClass) (reader : TagReader)
    (window : List Byte) : Nat → Label generated.layout → Message generated.layout →
      CodedInputStream → Checked (Option (Message generated.layout) × CodedInputStream)
  | _, .success, message, input => .ok (some message, input)
  | 0, _, _, _ => .error .unfinished
  | turns + 1, .loop, message, input => do
    let ((tag, known), input) ← reader.readTagWithCutoff window input generated.cutoff
    let handleUnusual : Checked (Option (Message generated.layout) × CodedInputStream) :=
      if tag = 0 ∨ getTagWireType tag = endGroupType then .ok (some message, input)
      else do
        let (field, input) ← WireFormat.skipField window turns input tag
        match field with
        | none => .ok (none, input)
        | some field =>
          generated.mergePartialFromCodedStream reader window turns .loop (message.keep field) input
    if known then
      match generated.layout.withNumber (getTagFieldNumber tag) with
      | none => handleUnusual
      | some index =>
        if tag = (generated.layout.field index).tag then
          generated.mergePartialFromCodedStream reader window turns (.parse index) message input
        else handleUnusual
    else handleUnusual
  | turns + 1, .parse index, message, input => do
    let (value, input) ← readPrimitive (generated.layout.field index).kind window input
    match value with
    | none => .ok (none, input)
    | some value => do
      let (label, input) ← generated.expectNext window index input
      generated.mergePartialFromCodedStream reader window turns label (message.store index value)
        input

/-- `ParseFromArray`: the message, if the call returns true. The messages have no required
    fields, so that each is initialised. -/
def parseFromArray (generated : MessageClass) (reader : TagReader) (turns : Nat) (window : List Byte)
    (size : Int) : Checked (Option (Message generated.layout)) := do
  let (message, input) ← generated.mergePartialFromCodedStream reader window turns .loop
    (Message.empty generated.layout) (CodedInputStream.construct size)
  .ok (if input.consumedEntireMessage then message else none)

end MessageClass

/-- The fields of `CNETMsg_Tick`. -/
def CNETMsg_Tick : MessageClass where
  layout :=
    { fields := [
        ⟨"tick", 1, .uint32, false⟩,
        ⟨"host_computationtime", 4, .uint32, false⟩,
        ⟨"host_computationtime_std_deviation", 5, .uint32, false⟩,
        ⟨"host_framestarttime_std_deviation", 6, .uint32, false⟩]
      distinct := by decide
      positive := by decide }
  cutoff := 127
  bounded := by decide
  short := by decide

/-- The fields of `CNETMsg_SignonState`. -/
def CNETMsg_SignonState : MessageClass where
  layout :=
    { fields := [
        ⟨"signon_state", 1, .uint32, false⟩,
        ⟨"spawn_count", 2, .uint32, false⟩,
        ⟨"num_server_players", 3, .uint32, false⟩,
        ⟨"players_networkids", 4, .string, true⟩,
        ⟨"map_name", 5, .string, false⟩]
      distinct := by decide
      positive := by decide }
  cutoff := 127
  bounded := by decide
  short := by decide

/-- The fields of `CSVCMsg_ServerInfo`. -/
def CSVCMsg_ServerInfo : MessageClass where
  layout :=
    { fields := [
        ⟨"protocol", 1, .int32, false⟩,
        ⟨"server_count", 2, .int32, false⟩,
        ⟨"is_dedicated", 3, .bool, false⟩,
        ⟨"is_official_valve_server", 4, .bool, false⟩,
        ⟨"is_hltv", 5, .bool, false⟩,
        ⟨"is_replay", 6, .bool, false⟩,
        ⟨"c_os", 7, .int32, false⟩,
        ⟨"map_crc", 8, .fixed32, false⟩,
        ⟨"client_crc", 9, .fixed32, false⟩,
        ⟨"string_table_crc", 10, .fixed32, false⟩,
        ⟨"max_clients", 11, .int32, false⟩,
        ⟨"max_classes", 12, .int32, false⟩,
        ⟨"player_slot", 13, .int32, false⟩,
        ⟨"tick_interval", 14, .float, false⟩,
        ⟨"game_dir", 15, .string, false⟩,
        ⟨"map_name", 16, .string, false⟩,
        ⟨"map_group_name", 17, .string, false⟩,
        ⟨"sky_name", 18, .string, false⟩,
        ⟨"host_name", 19, .string, false⟩,
        ⟨"is_redirecting_to_proxy_relay", 21, .bool, false⟩,
        ⟨"ugc_map_id", 22, .uint64, false⟩]
      distinct := by decide
      positive := by decide }
  cutoff := 16383
  bounded := by decide
  short := by decide

/-- The fields of `CSVCMsg_PacketEntities`. -/
def CSVCMsg_PacketEntities : MessageClass where
  layout :=
    { fields := [
        ⟨"max_entries", 1, .int32, false⟩,
        ⟨"updated_entries", 2, .int32, false⟩,
        ⟨"is_delta", 3, .bool, false⟩,
        ⟨"update_baseline", 4, .bool, false⟩,
        ⟨"baseline", 5, .int32, false⟩,
        ⟨"delta_from", 6, .int32, false⟩,
        ⟨"entity_data", 7, .bytes, false⟩]
      distinct := by decide
      positive := by decide }
  cutoff := 127
  bounded := by decide
  short := by decide

end Sniffles
