import Sniffles.MessageRoundTrip
import Sniffles.DatagramUnwrapping
import Sniffles.SerializedMessages

/-!
# From datagrams to messages

The switch of `ReadPacket` hands the body of a presented message to the parser of its
type and prints the message if `ParseFromArray` returns true. The parsers read the work
buffer and change nothing that the message loop uses, so the cases of the switch are
applied here to the messages that the loop presents.

A body whose declared size is negative promises no bytes at all. A sender that
serializes typed messages, frames them into a packet, wraps and encrypts the packet is
undone step by step: the callback prints exactly the messages that were sent.
-/

namespace Sniffles.ReadPacket

open BitSequences Base128 MachineIntegers CheckedMemory CBitRead RecordLayouts

/-- The class of `msg` in a case of the switch. -/
def MessageType.generated : MessageType → MessageClass
  | .CNETMsg_Tick => Sniffles.CNETMsg_Tick
  | .CNETMsg_SignonState => Sniffles.CNETMsg_SignonState
  | .CSVCMsg_ServerInfo => Sniffles.CSVCMsg_ServerInfo
  | .CSVCMsg_PacketEntities => Sniffles.CSVCMsg_PacketEntities

/-- The values of `net_Tick`, `net_SignonState`, `svc_ServerInfo` and
    `svc_PacketEntities`. -/
def MessageType.cmd : MessageType → BitVec 32
  | .CNETMsg_Tick => 4
  | .CNETMsg_SignonState => 7
  | .CSVCMsg_ServerInfo => 8
  | .CSVCMsg_PacketEntities => 26

/-- A message of one of the parsed types. -/
structure NetMessage where
  type : MessageType
  msg : RecordLayouts.Message type.generated.layout

/-- The bytes that the declared size promises to the parser. -/
def Presented.array (memory : Int → Byte) (message : Presented) : List Byte :=
  (List.range message.size.toInt.toNat).map fun index : Nat => memory (message.parseBuffer + index)

/-- `switch (Cmd)`: the message, if it is printed. -/
def switchCmd (reader : TagReader) (turns : Nat) (memory : Int → Byte) (message : Presented) :
    Checked (Option NetMessage) :=
  match dispatch message.cmd with
  | none => .ok none
  | some type => do
    let msg ← type.generated.parseFromArray reader turns (message.array memory) message.size.toInt
    .ok (msg.map (NetMessage.mk type))

/-- The messages that are printed, in their order. -/
def printedMessages (reader : TagReader) (turns : Nat) (memory : Int → Byte) :
    List Presented → Checked (List NetMessage)
  | [] => .ok []
  | message :: messages => do
    let printed ← switchCmd reader turns memory message
    let others ← printedMessages reader turns memory messages
    .ok (printed.toList ++ others)

/-- The frame in which a message is sent. -/
def NetMessage.frame (message : NetMessage) : Message :=
  (message.type.cmd, message.type.generated.serializeWithCachedSizesToArray message.msg)

theorem dispatch_cmd (type : MessageType) : dispatch type.cmd = some type := by
  cases type <;> rfl

/-- A body of a declared size that is not negative is the promised array. -/
theorem array_body (memory : Int → Byte) (message : Presented) (positive : 0 ≤ message.size.toInt) :
    message.array memory = message.body memory ∧
      message.size.toInt = (message.array memory).length := by
  have size : message.size.toInt = message.size.toNat := by
    rw [BitVec.toInt_eq_toNat_cond] at positive ⊢
    have := message.size.isLt
    split at positive <;> omega
  have same : message.array memory = message.body memory := by
    rw [Presented.array, Presented.body, size, Int.toNat_natCast]
  refine ⟨same, ?_⟩
  rw [Presented.array, List.length_map, List.length_range]
  omega

/-- The parser of a dispatched message comes back when the declared size is between zero and
    64 megabytes. -/
theorem switchCmd_safe (reader : TagReader) (turns : Nat) (memory : Int → Byte)
    (message : Presented) (positive : 0 ≤ message.size.toInt)
    (bounded : message.size.toInt ≤ 67108864) (enough : 2 * message.size.toInt < turns) :
    Safe (switchCmd reader turns memory message) := by
  rw [switchCmd]
  split
  case h_1 => exact ⟨none, rfl⟩
  case h_2 type found =>
    have size := (array_body memory message positive).2
    obtain ⟨result, parsed⟩ := type.generated.parse_safe reader (message.array memory) turns
      (by omega) (by omega)
    rw [size, parsed]
    exact ⟨_, rfl⟩

/-- With a negative size the first read of the parser already lies outside. -/
theorem parse_negative (generated : MessageClass) (reader : TagReader) (turns : Nat) (size : Int)
    (negative : size < 0) : ¬Safe (generated.parseFromArray reader turns [] size) := by
  have reading : (CodedInputStream.construct size).readTag [] = .error .outOfBounds := by
    have notBefore : ¬(0 : Int) < size := by omega
    have notEnd : ¬(0 : Int) = size := by omega
    have small : ¬size - 0 ≥ (CodedInputStream.kMaxVarintBytes : Nat) := by
      rw [CodedInputStream.kMaxVarintBytes]
      omega
    have nonempty : ¬size - 0 = 0 := by omega
    simp only [CodedInputStream.readTag, CodedInputStream.singleByte, CodedInputStream.construct,
      notBefore, if_false, ok_bind, CodedInputStream.readTagFallback,
      CodedInputStream.holdsNumber, CodedInputStream.bufferSize, small, gt_iff_lt,
      Bool.false_eq_true, nonempty, false_and, CodedInputStream.readTagSlow, notEnd,
      CodedInputStream.readVarint64, CodedInputStream.readVarint64Fallback,
      CodedInputStream.readVarint64Slow]
    simp only [CodedInputStream.kMaxVarintBytes, CodedInputStream.slowGroups, notEnd, if_false]
    rfl
  rintro ⟨message, parsed⟩
  cases turns with
  | zero => cases parsed
  | succ turns =>
    rw [MessageClass.parseFromArray, MessageClass.mergePartialFromCodedStream, reader.reads,
      reading] at parsed
    cases parsed

/-- The parsers that the loop calls stay inside the declared sizes exactly when no message of
    a parsed type declares a negative one. -/
theorem printedMessages_safe (reader : TagReader) (turns : Nat) (memory : Int → Byte)
    (messages : List Presented)
    (bounded : ∀ message ∈ messages, message.size.toInt ≤ 67108864)
    (enough : ∀ message ∈ messages, 2 * message.size.toInt < turns) :
    Safe (printedMessages reader turns memory messages) ↔
      ∀ message ∈ messages, (dispatch message.cmd).isSome = true → 0 ≤ message.size.toInt := by
  induction messages with
  | nil => exact ⟨fun _ _ member => absurd member List.not_mem_nil, fun _ => ⟨[], rfl⟩⟩
  | cons message messages inductionHypothesis =>
    obtain ⟨size, sizes⟩ := List.forall_mem_cons.mp bounded
    obtain ⟨some_, others⟩ := List.forall_mem_cons.mp enough
    have rest := inductionHypothesis sizes others
    rw [List.forall_mem_cons, ← rest, printedMessages]
    constructor
    · rintro ⟨printed, returned⟩
      obtain ⟨one, first, behind⟩ := bind_returned returned
      obtain ⟨more, second, -⟩ := bind_returned behind
      refine ⟨fun parsed => ?_, more, second⟩
      obtain ⟨type, found⟩ := Option.isSome_iff_exists.mp parsed
      by_contra negative
      rw [switchCmd, found] at first
      obtain ⟨msg, handled, -⟩ := bind_returned first
      have none : message.array memory = [] := by
        rw [Presented.array, Int.toNat_of_nonpos (by omega)]
        rfl
      rw [none] at handled
      exact parse_negative type.generated reader turns _ (by omega) ⟨msg, handled⟩
    · rintro ⟨positive, more, second⟩
      have first : Safe (switchCmd reader turns memory message) := by
        cases found : dispatch message.cmd with
        | none =>
          rw [switchCmd, found]
          exact ⟨none, rfl⟩
        | some type =>
          exact switchCmd_safe reader turns memory message (positive (by rw [found]; rfl)) size some_
      obtain ⟨one, first⟩ := first
      rw [first, ok_bind, second, ok_bind]
      exact ⟨_, rfl⟩

/-- A tick of declared size -1 behind a body that is not parsed. -/
theorem negative_tick_unsafe :
    ¬Safe (printedMessages .plain 9 (fun _ => 0x08) [⟨5, 3, 0⟩, ⟨4, 0xFFFFFFFF, 2⟩]) := by
  have exactly := printedMessages_safe .plain 9 (fun _ => 0x08) [⟨5, 3, 0⟩, ⟨4, 0xFFFFFFFF, 2⟩]
    (by decide) (by decide)
  rw [exactly]
  decide

/-- A message in its frame is printed. -/
theorem switchCmd_frame (reader : TagReader) (turns : Nat) (memory : Int → Byte)
    (presented : Presented) (message : NetMessage)
    (same : (presented.cmd, presented.body memory) = message.frame)
    (writable : message.type.generated.Writable message.msg)
    (bounded : (presented.body memory).length ≤ netMaxPayload)
    (enough : 2 * netMaxPayload < turns) :
    switchCmd reader turns memory presented = .ok (some message) := by
  obtain ⟨command, text⟩ := Prod.mk.inj same
  have capacity : netMaxPayload = 262140 := by decide
  have length : (presented.body memory).length = presented.size.toNat := by
    rw [Presented.body, List.length_map, List.length_range]
  have positive : 0 ≤ presented.size.toInt := by
    rw [BitVec.toInt_eq_toNat_cond]
    split <;> omega
  obtain ⟨array, size⟩ := array_body memory presented positive
  have parsed := MessageClass.parse_records reader message.msg writable turns (by rw [← text]; omega) (by rw [← text]; omega)
  rw [switchCmd, command, dispatch_cmd]
  dsimp only
  rw [size, array, text, parsed]
  rfl

/-- Messages in their frames are printed one by one. -/
theorem printedMessages_frames (reader : TagReader) (turns : Nat) (memory : Int → Byte)
    (messages : List NetMessage) (presented : List Presented)
    (same : presented.map (fun message => (message.cmd, message.body memory)) =
      messages.map NetMessage.frame)
    (writable : ∀ message ∈ messages, message.type.generated.Writable message.msg)
    (bounded : ∀ message ∈ messages, message.frame.2.length ≤ netMaxPayload)
    (enough : 2 * netMaxPayload < turns) :
    printedMessages reader turns memory presented = .ok messages := by
  induction messages generalizing presented with
  | nil =>
    have none : presented = [] := by simpa using same
    rw [none]
    rfl
  | cons message messages inductionHypothesis =>
    cases presented with
    | nil => cases same
    | cons first others =>
      obtain ⟨here, there⟩ := List.cons.inj same
      obtain ⟨sound, sounds⟩ := List.forall_mem_cons.mp writable
      obtain ⟨small, smalls⟩ := List.forall_mem_cons.mp bounded
      have body : first.body memory = message.frame.2 := congrArg Prod.snd here
      rw [printedMessages, switchCmd_frame reader turns memory first message here sound
        (by rw [body]; exact small) enough, ok_bind, inductionHypothesis others there sounds smalls,
        ok_bind]
      rfl

/-- A frame is no longer than its packet. -/
theorem frame_length (header : HeaderValues) (messages : List Message) (message : Message)
    (member : message ∈ messages) : message.2.length ≤ (packetBytes header messages).length := by
  have inside := List.length_flatMap (l := messages) (f := messageBytes)
  have one : (messageBytes message).length ≤ (messages.map fun message =>
      (messageBytes message).length).sum :=
    List.single_le_sum (by simp) _ (List.mem_map_of_mem member)
  rw [packetBytes, List.length_append, inside]
  simp only [messageBytes, List.length_append] at one ⊢
  omega

/-- The run of `ReadPacket` on a packet of typed messages. -/
theorem framed_messages_printed (reader : TagReader) (header : HeaderValues)
    (messages : List NetMessage) (data : Int → Byte) (storage : CBitRead) (tests turns : Nat)
    (flags : admitted header.nFlags = true)
    (writable : ∀ message ∈ messages, message.type.generated.Writable message.msg)
    (bounded : (packetBytes header (messages.map NetMessage.frame)).length ≤ netMaxPayload)
    (enough : messages.length < tests) (more : 2 * netMaxPayload < turns) :
    ∃ finished, readPacket (packetBytes header (messages.map NetMessage.frame)) data storage tests =
        some finished ∧
      printedMessages reader turns
        (workBuffer (packetBytes header (messages.map NetMessage.frame)) data) finished.messages =
          .ok messages := by
  have long : 8 ≤ (packetBytes header (messages.map NetMessage.frame)).length := by
    have := headerBytes_length header
    simp only [packetBytes, List.length_append]
    omega
  obtain ⟨stored, finish⟩ := header_stored header
    ((messages.map NetMessage.frame).flatMap messageBytes) data bounded
  have after := (readHeader_end
    (workBuffer (packetBytes header (messages.map NetMessage.frame)) data)
    (openPacket (packetBytes header (messages.map NetMessage.frame)) data storage)
    (openPacket_start (packetBytes header (messages.map NetMessage.frame)) data storage)).2
  have accepted : flagsAt (workBuffer (packetBytes header (messages.map NetMessage.frame)) data) =
      header.nFlags := stored
  have start : headerEnd (workBuffer (packetBytes header (messages.map NetMessage.frame)) data) =
      (headerBytes header).length := finish
  rw [start] at after
  obtain ⟨presented, final, looped, same, -⟩ := messageLoop_stored
    (messages.map NetMessage.frame) (headerBytes header) data
    (packetBytes header (messages.map NetMessage.frame)) rfl bounded tests
    (by rw [List.length_map]; exact enough) _ _ after
  refine ⟨⟨presented, final, (packetBytes header (messages.map NetMessage.frame)).length⟩, ?_, ?_⟩
  · rw [readPacket_flags _ _ _ _ long, accepted]
    simp only [flags, if_true, looped, Option.map_some]
  · refine printedMessages_frames reader turns _ messages presented same writable
      (fun message member => ?_) more
    exact Nat.le_trans (frame_length header _ _ (List.mem_map_of_mem member)) bounded

open CaptureCallback in
/-- What a server sends is what is printed: typed messages are serialized, framed into a
    packet, wrapped behind one to 255 bytes of padding and encrypted; on a datagram with
    that payload from the game port the callback hands this packet to `ReadPacket`, which
    returns and has printed the messages. -/
theorem datagram_messages_printed (reader : TagReader) (fresh : FreshMemory) (ip : IP) (udp : UDP)
    (raw : RawPDU) (port : udp.sport = 27015) (count : Byte) (padding : List Byte)
    (header : HeaderValues) (messages : List NetMessage) (data : Int → Byte) (storage : CBitRead)
    (tests turns : Nat) (padded : 1 ≤ count.toNat ∧ padding.length = count.toNat)
    (sent : raw.payload = ciphertext (gameKey fresh.keysched) ([count] ++ padding ++
      bigEndian (BitVec.ofNat 32 (packetBytes header (messages.map NetMessage.frame)).length) ++
        packetBytes header (messages.map NetMessage.frame)))
    (flags : admitted header.nFlags = true)
    (writable : ∀ message ∈ messages, message.type.generated.Writable message.msg)
    (bounded : (packetBytes header (messages.map NetMessage.frame)).length ≤ netMaxPayload)
    (enough : messages.length < tests) (more : 2 * netMaxPayload < turns) :
    ∃ handled, packetLoopHandler fresh ⟨some ip, some udp, some raw⟩ = .ok handled ∧
      handled.readPacket = some (packetBytes header (messages.map NetMessage.frame),
        ((packetBytes header (messages.map NetMessage.frame)).length : Int)) ∧
      ∃ finished, readPacket (packetBytes header (messages.map NetMessage.frame)) data storage
          tests = some finished ∧
        printedMessages reader turns
          (workBuffer (packetBytes header (messages.map NetMessage.frame)) data)
            finished.messages = .ok messages := by
  have capacity : netMaxPayload = 262140 := by decide
  have long : 12 ≤ (packetBytes header (messages.map NetMessage.frame)).length := by
    have := headerBytes_length header
    rw [packetBytes, List.length_append]
    omega
  have nonempty : packetBytes header (messages.map NetMessage.frame) ≠ [] := by
    intro none
    rw [none] at long
    exact absurd long (by decide)
  have carried : Carries (gameKey fresh.keysched) raw.payload
      (packetBytes header (messages.map NetMessage.frame)) :=
    ⟨_, ⟨count, padding, padded.1, padded.2, nonempty, rfl⟩, sent⟩
  have length : raw.payload.length =
      5 + count.toNat + (packetBytes header (messages.map NetMessage.frame)).length := by
    rw [sent, ciphertext, BlockMode.mapBlocks_length]
    simp only [List.length_append, padded.2, bigEndian, List.length_cons, List.length_nil]
    omega
  have small := count.isLt
  obtain ⟨handled, returned, called⟩ := handleGamePacket_carries fresh (gameKey fresh.keysched) ip
    udp raw (by
      intro none
      rw [none, List.length_nil] at length
      omega) (by omega)
  have printed := framed_messages_printed reader header messages data storage tests turns flags
    writable bounded enough more
  refine ⟨handled, ?_, (called _ _).mpr ⟨rfl, carried⟩, printed⟩
  simp only [packetLoopHandler, if_pos port]
  exact returned

open CaptureCallback in
/-- A datagram that carries one tick of 42 behind a byte of padding. -/
theorem tick_datagram_printed :
    ∃ tick : NetMessage, tick.frame = (4, [0x08, 0x2A]) ∧ ∃ raw handled,
      packetLoopHandler ⟨fun _ => ⟨#v[0, 0, 0]⟩, fun _ => 0, fun _ => 0⟩
        ⟨some ⟨0, 4, #v[10, 0, 0, 1], #v[10, 0, 0, 2]⟩, some ⟨27015, 27005⟩, some raw⟩ =
          .ok handled ∧
      handled.readPacket = some (packetBytes ⟨1, 2, 0, 3, 5⟩ [tick.frame], 16) ∧
      ∃ finished, readPacket (packetBytes ⟨1, 2, 0, 3, 5⟩ [tick.frame]) (fun _ => 0xEE)
          ⟨0, 0, 0, 0, false, false, 0, 0⟩ 2 = some finished ∧
        printedMessages .plain 524281
          (workBuffer (packetBytes ⟨1, 2, 0, 3, 5⟩ [tick.frame]) fun _ => 0xEE)
            finished.messages = .ok [tick] := by
  obtain ⟨tick, frame, writable⟩ : ∃ tick : NetMessage, tick.frame = (4, [0x08, 0x2A]) ∧
      tick.type.generated.Writable tick.msg := by
    refine ⟨⟨.CNETMsg_Tick, (RecordLayouts.Message.empty CNETMsg_Tick.layout).store ⟨0, by decide⟩
      (42 : BitVec 32)⟩, rfl, RecordLayouts.Message.absorbAll_foreign [.varint 1 42], ?_, by decide⟩
    show TaggedRecords.RecordsSound [.varint 1 42]
    rw [TaggedRecords.RecordsSound, TaggedRecords.RecordsSound, TaggedRecords.Record.Sound]
    exact ⟨by decide, trivial⟩
  have size : (packetBytes ⟨1, 2, 0, 3, 5⟩ ([tick].map NetMessage.frame)).length = 16 := by
    have flags : encode (BitVec.toNat (0 : BitVec 32)) = [0] := encode_last 0 (by decide)
    have last : encode (zigZagEncode32 5).toNat = [10] := encode_last 10 (by decide)
    have command : encode (BitVec.toNat (4 : BitVec 32)) = [4] := encode_last 4 (by decide)
    have two : encode 2 = [2] := encode_last 2 (by decide)
    simp only [List.map_cons, List.map_nil, frame, packetBytes, headerBytes, messageBytes,
      List.flatMap_cons, List.flatMap_nil, flags, last, command, List.length_append,
      List.length_cons, List.length_nil, two, littleEndian_length]
  let sent := ciphertext (gameKey fun _ => ⟨#v[0, 0, 0]⟩) ([1] ++ [0xAA] ++
    bigEndian (BitVec.ofNat 32 (packetBytes ⟨1, 2, 0, 3, 5⟩ ([tick].map NetMessage.frame)).length) ++
      packetBytes ⟨1, 2, 0, 3, 5⟩ ([tick].map NetMessage.frame))
  have addressable : sent.length < 4294967296 := by
    rw [show sent.length = _ from BlockMode.mapBlocks_length _ _]
    simp only [List.length_append, size, bigEndian, List.length_cons, List.length_nil]
    decide
  obtain ⟨handled, returned, called, finished, read, printed⟩ :=
    datagram_messages_printed .plain ⟨fun _ => ⟨#v[0, 0, 0]⟩, fun _ => 0, fun _ => 0⟩
      ⟨0, 4, #v[10, 0, 0, 1], #v[10, 0, 0, 2]⟩ ⟨27015, 27005⟩ ⟨sent, addressable⟩ rfl 1 [0xAA]
      ⟨1, 2, 0, 3, 5⟩ [tick] (fun _ => 0xEE) ⟨0, 0, 0, 0, false, false, 0, 0⟩ 2 524281
      ⟨by decide, rfl⟩ rfl (by decide)
      (fun message member => by rw [List.mem_singleton.mp member]; exact writable)
      (by rw [size]; decide) (Nat.lt_succ_self 1) (by decide)
  rw [size] at called
  exact ⟨tick, frame, ⟨sent, addressable⟩, handled, returned, called, finished, read, printed⟩

end Sniffles.ReadPacket
