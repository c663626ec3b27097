import Sniffles.MessageFraming

/-!
# Well-formed packets are decoded exactly

A well-formed packet is a header followed by messages, each a command, the
length of its payload and the payload. Wherever such a message stands in the
packet, the frame at its first byte has its command, its length and its payload,
and the following frame starts right behind it. The loop therefore presents the
messages one by one and stops at the packet's end, without looking at the bytes
of the work buffer behind it.
-/

namespace Sniffles.ReadPacket

open BitSequences MachineIntegers CBitRead Base128

/-- The values of a packet header. -/
structure HeaderValues where
  nSeqNrIn : BitVec 32
  nSeqNrOut : BitVec 32
  nFlags : BitVec 32
  unk0 : BitVec 16
  unk1 : BitVec 32

/-- The bytes of a word, least significant first. -/
def littleEndian {width : Nat} (word : BitVec width) (count : Nat) : List Byte :=
  (List.range count).map fun index => (word >>> (8 * index)).setWidth 8

def headerBytes (header : HeaderValues) : List Byte :=
  littleEndian header.nSeqNrIn 4 ++ littleEndian header.nSeqNrOut 4 ++
    encode header.nFlags.toNat ++ littleEndian header.unk0 2 ++
    encode (zigZagEncode32 header.unk1).toNat

/-- A message: its command and its payload. -/
abbrev Message := BitVec 32 × List Byte

def messageBytes (message : Message) : List Byte :=
  encode message.1.toNat ++ encode message.2.length ++ message.2

def packetBytes (header : HeaderValues) (messages : List Message) : List Byte :=
  headerBytes header ++ messages.flatMap messageBytes

@[simp] theorem littleEndian_length {width : Nat} (word : BitVec width) (count : Nat) :
    (littleEndian word count).length = count := by
  simp [littleEndian]

/-- A part of the packet is found in the work buffer at its place. -/
theorem workBuffer_stored (before part after : List Byte) (data : Int → Byte) (index : Nat)
    (inside : index < part.length) :
    workBuffer (before ++ part ++ after) data ((before.length + index : Nat) : Int) = part[index] := by
  have stored : before.length + index < (before ++ part ++ after).length := by
    simp only [List.length_append]
    omega
  have found : (before ++ part ++ after)[before.length + index]? = some part[index] := by
    rw [List.append_assoc, List.getElem?_append_right (by omega), Nat.add_sub_cancel_left,
      List.getElem?_append_left inside, List.getElem?_eq_getElem inside]
  rw [workBuffer, if_pos (by omega), Int.toNat_natCast, List.getD_eq_getElem?_getD, found,
    Option.getD_some]

/-- A number of 32 bits takes at most five bytes. -/
theorem encode_word (number : Nat) (fits : number < 4294967296) : (encode number).length ≤ 5 :=
  encode_length 4 number (Nat.lt_trans fits (by decide))

/-- A number stored in the packet is read back, up to the byte behind it. -/
theorem varint_stored (before after : List Byte) (number : Nat) (data : Int → Byte)
    (fits : number < 4294967296)
    (bounded : (before ++ encode number ++ after).length ≤ netMaxPayload) :
    varint (workBuffer (before ++ encode number ++ after) data) netMaxPayload before.length =
      (BitVec.ofNat 32 number, before.length + (encode number).length) := by
  simp only [List.length_append] at bounded
  have stored (index : Nat) (inside : index < (encode number).length) :
      cells (workBuffer (before ++ encode number ++ after) data) netMaxPayload
        (before.length + index) = (encode number)[index] := by
    rw [cells, if_pos (by omega)]
    exact workBuffer_stored before (encode number) after data index inside
  have decoded := decodeFrom_encode _ kMaxVarint32Bytes 0 number before.length (0 : BitVec 32)
    (encode_word number fits) stored
  simp only [varint, varintStop, decoded]
  simp only [Nat.mul_zero, BitVec.shiftLeft_zero, BitVec.ofNat_eq_ofNat, BitVec.zero_or,
    Prod.mk.injEq, true_and]
  omega

/-- A message stored in the packet is the frame at its first byte, and the
    following frame starts behind it. -/
theorem frameAt_stored (before after : List Byte) (message : Message) (data : Int → Byte)
    (bounded : (before ++ messageBytes message ++ after).length ≤ netMaxPayload) :
    frameAt (workBuffer (before ++ messageBytes message ++ after) data) before.length =
        ⟨message.1, BitVec.ofNat 32 message.2.length,
          before.length + (encode message.1.toNat).length + (encode message.2.length).length⟩ ∧
      (frameAt (workBuffer (before ++ messageBytes message ++ after) data) before.length).following =
        before.length + (messageBytes message).length := by
  obtain ⟨cmd, payload⟩ := message
  have capacity : netMaxPayload = 262140 := by decide
  have atCommand : before ++ messageBytes (cmd, payload) ++ after =
      before ++ encode cmd.toNat ++ (encode payload.length ++ payload ++ after) := by
    simp [messageBytes]
  have atSize : before ++ messageBytes (cmd, payload) ++ after =
      (before ++ encode cmd.toNat) ++ encode payload.length ++ (payload ++ after) := by
    simp [messageBytes]
  have total : (messageBytes (cmd, payload)).length =
      (encode cmd.toNat).length + (encode payload.length).length + payload.length := by
    simp [messageBytes, Nat.add_assoc]
  have short : payload.length ≤ netMaxPayload := by
    simp only [List.length_append, total] at bounded
    omega
  have command := varint_stored before (encode payload.length ++ payload ++ after) cmd.toNat data
    cmd.isLt (by rw [← atCommand]; exact bounded)
  have declared := varint_stored (before ++ encode cmd.toNat) (payload ++ after) payload.length data
    (by omega) (by rw [← atSize]; exact bounded)
  rw [← atCommand, BitVec.ofNat_toNat, BitVec.setWidth_eq] at command
  rw [← atSize, List.length_append] at declared
  have frame : frameAt (workBuffer (before ++ messageBytes (cmd, payload) ++ after) data)
      before.length = ⟨cmd, BitVec.ofNat 32 payload.length,
        before.length + (encode cmd.toNat).length + (encode payload.length).length⟩ := by
    simp only [frameAt, command, declared]
  refine ⟨frame, ?_⟩
  have value : (BitVec.ofNat 32 payload.length).toInt = payload.length := by
    rw [BitVec.toInt_eq_toNat_of_lt] <;> rw [BitVec.toNat_ofNat, Nat.mod_eq_of_lt] <;> omega
  simp only [List.length_append, total] at bounded
  rw [frame, Frame.following_forward _ payload.length value (by simp only; omega), total]
  simp only
  omega

/-- A message takes at least two bytes. -/
theorem messageBytes_nonempty (message : Message) : 0 < (messageBytes message).length := by
  have first := encode_nonempty message.1.toNat
  simp only [messageBytes, List.length_append]
  omega

/-- The body of a presented message is the payload that was stored. -/
theorem body_stored (before after : List Byte) (message : Message) (data : Int → Byte)
    (bounded : (before ++ messageBytes message ++ after).length ≤ netMaxPayload) :
    (frameAt (workBuffer (before ++ messageBytes message ++ after) data) before.length).presented.body
        (workBuffer (before ++ messageBytes message ++ after) data) = message.2 := by
  have frame := (frameAt_stored before after message data bounded).1
  obtain ⟨cmd, payload⟩ := message
  have capacity : netMaxPayload = 262140 := by decide
  have split : before ++ messageBytes (cmd, payload) ++ after =
      (before ++ encode cmd.toNat ++ encode payload.length) ++ payload ++ after := by
    simp [messageBytes]
  have short : payload.length < 4294967296 := by
    simp only [split, List.length_append] at bounded
    omega
  rw [frame, Frame.presented, Presented.body]
  apply List.ext_getElem
  · simp [Nat.mod_eq_of_lt short]
  · intro index _ inside
    have stored := workBuffer_stored (before ++ encode cmd.toNat ++ encode payload.length) payload
      after data index inside
    rw [← split] at stored
    simp only [List.length_append] at stored
    simpa using stored

/-- From the first of a list of stored messages the loop presents each of them in
    order and leaves the reader at the end of the packet.

Induct over the messages. One turn presents the first message and leaves the
reader in front of the others; with none left the reader is at the end. -/
theorem messageLoop_stored (messages : List Message) (before : List Byte) (data : Int → Byte)
    (packet : List Byte) (partition : packet = before ++ messages.flatMap messageBytes)
    (bounded : packet.length ≤ netMaxPayload) (tests : Nat) (enough : messages.length < tests)
    (raised : Bool) (buf : CBitRead)
    (standing : AtByte (workBuffer packet data) netMaxPayload raised buf before.length) :
    ∃ presented final, messageLoop (workBuffer packet data) packet.length tests buf =
        some (presented, final) ∧
      presented.map (fun message => (message.cmd, message.body (workBuffer packet data))) =
        messages ∧
      final.getNumBytesRead = packet.length := by
  induction messages generalizing before tests raised buf with
  | nil =>
    obtain ⟨tests, rfl⟩ : ∃ fewer, tests = fewer + 1 := ⟨tests - 1, by omega⟩
    have finished : packet.length = before.length := by
      rw [partition]
      simp
    have position := (getNumBytesRead_byte _ _ raised buf _ standing room).2
    rw [← finished] at position
    refine ⟨[], buf, ?_, rfl, position⟩
    rw [messageLoop, if_neg (by omega)]
  | cons message rest inductionHypothesis =>
    obtain ⟨tests, rfl⟩ : ∃ fewer, tests = fewer + 1 := ⟨tests - 1, by omega⟩
    have split : packet = before ++ messageBytes message ++ rest.flatMap messageBytes := by
      rw [partition, List.flatMap_cons, List.append_assoc]
    have nonempty := messageBytes_nonempty message
    have position := (getNumBytesRead_byte _ _ raised buf _ standing room).2
    have more : buf.getNumBytesRead < packet.length := by
      rw [position, split]
      simp only [List.length_append]
      omega
    have stored := frameAt_stored before (rest.flatMap messageBytes) message data
      (by rw [← split]; exact bounded)
    have body := body_stored before (rest.flatMap messageBytes) message data
      (by rw [← split]; exact bounded)
    rw [← split] at stored body
    obtain ⟨shown, flag, moved, -⟩ := readMessage_frame _ raised buf before.length standing
    rw [stored.2] at moved
    rw [← List.length_append] at moved
    obtain ⟨presented, final, looped, same, arrived⟩ := inductionHypothesis
      (before ++ messageBytes message) split tests (by simpa using enough) flag _ moved
    refine ⟨(readMessage (workBuffer packet data) buf).1 :: presented, final, ?_, ?_, arrived⟩
    · rw [messageLoop, if_pos more]
      simp only [looped, Option.map_some]
    · rw [List.map_cons, same, shown, body, stored.1]
      rfl

/-- A stored header is read with its flags, and the reader is left behind it. -/
theorem header_stored (header : HeaderValues) (rest : List Byte) (data : Int → Byte)
    (bounded : (headerBytes header ++ rest).length ≤ netMaxPayload) :
    flagsAt (workBuffer (headerBytes header ++ rest) data) = header.nFlags ∧
      headerEnd (workBuffer (headerBytes header ++ rest) data) = (headerBytes header).length := by
  have atFlags : headerBytes header ++ rest =
      (littleEndian header.nSeqNrIn 4 ++ littleEndian header.nSeqNrOut 4) ++
        encode header.nFlags.toNat ++
        (littleEndian header.unk0 2 ++ encode (zigZagEncode32 header.unk1).toNat ++ rest) := by
    simp [headerBytes]
  have atLast : headerBytes header ++ rest =
      (littleEndian header.nSeqNrIn 4 ++ littleEndian header.nSeqNrOut 4 ++
        encode header.nFlags.toNat ++ littleEndian header.unk0 2) ++
        encode (zigZagEncode32 header.unk1).toNat ++ rest := by
    simp [headerBytes]
  have flags := varint_stored (littleEndian header.nSeqNrIn 4 ++ littleEndian header.nSeqNrOut 4)
    (littleEndian header.unk0 2 ++ encode (zigZagEncode32 header.unk1).toNat ++ rest)
    header.nFlags.toNat data header.nFlags.isLt (by rw [← atFlags]; exact bounded)
  have last := varint_stored (littleEndian header.nSeqNrIn 4 ++ littleEndian header.nSeqNrOut 4 ++
    encode header.nFlags.toNat ++ littleEndian header.unk0 2) rest
    (zigZagEncode32 header.unk1).toNat data (zigZagEncode32 header.unk1).isLt
    (by rw [← atLast]; exact bounded)
  rw [← atFlags, BitVec.ofNat_toNat, BitVec.setWidth_eq] at flags
  rw [← atLast] at last
  simp only [List.length_append, littleEndian_length, Nat.reduceAdd] at flags last
  refine ⟨congrArg Prod.fst flags, ?_⟩
  have length : (headerBytes header).length = 8 + (encode header.nFlags.toNat).length + 2 +
      (encode (zigZagEncode32 header.unk1).toNat).length := by
    simp only [headerBytes, List.length_append, littleEndian_length]
  rw [headerEnd, flags]
  simp only [last, length]

/-- A packet with a stored header has at least twelve bytes. -/
theorem headerBytes_length (header : HeaderValues) : 12 ≤ (headerBytes header).length := by
  have flags := encode_nonempty header.nFlags.toNat
  have last := encode_nonempty (zigZagEncode32 header.unk1).toNat
  simp only [headerBytes, List.length_append, littleEndian_length]
  omega

/-- Every packet built from a header with accepted flags and a list of messages is
    presented message by message: the loop runs once for each, in order, with
    exactly its command and the bytes of its payload, and leaves the reader at the
    packet size. With other flags nothing is presented. The bytes of the work
    buffer behind the packet are arbitrary in both cases. -/
theorem framing_decoded_exactly (header : HeaderValues) (messages : List Message)
    (data : Int → Byte) (storage : CBitRead) (tests : Nat)
    (bounded : (packetBytes header messages).length ≤ netMaxPayload)
    (enough : messages.length < tests) :
    ∃ finished, readPacket (packetBytes header messages) data storage tests = some finished ∧
      (if admitted header.nFlags then
        finished.messages.map (fun message =>
          (message.cmd, message.body (workBuffer (packetBytes header messages) data))) = messages ∧
        finished.buf.getNumBytesRead = (packetBytes header messages).length
      else finished.messages = []) := by
  have long : 8 ≤ (packetBytes header messages).length := by
    have := headerBytes_length header
    simp only [packetBytes, List.length_append]
    omega
  obtain ⟨flags, finish⟩ := header_stored header (messages.flatMap messageBytes) data bounded
  have after := (readHeader_end (workBuffer (packetBytes header messages) data)
    (openPacket (packetBytes header messages) data storage)
    (openPacket_start (packetBytes header messages) data storage)).2
  have accepted : flagsAt (workBuffer (packetBytes header messages) data) = header.nFlags := flags
  have start : headerEnd (workBuffer (packetBytes header messages) data) =
      (headerBytes header).length := finish
  rw [start] at after
  rw [readPacket_flags _ _ _ _ long, accepted]
  by_cases loops : admitted header.nFlags = true
  · obtain ⟨presented, final, looped, same, arrived⟩ := messageLoop_stored messages
      (headerBytes header) data (packetBytes header messages) rfl bounded tests enough _ _ after
    refine ⟨⟨presented, final, (packetBytes header messages).length⟩, ?_, ?_⟩
    · simp only [loops, if_true, looped, Option.map_some]
    · rw [if_pos loops]
      exact ⟨same, arrived⟩
  · refine ⟨_, if_neg loops, ?_⟩
    rw [if_neg loops]

/-- A tick message and an empty message with a two-byte command, in front of
    arbitrary stale bytes. -/
theorem two_messages_decoded :
    ∃ finished, readPacket (packetBytes ⟨1, 2, 0, 3, 5⟩ [(4, [0x08, 0x2A]), (300, [])])
        (fun _ => 0xEE) ⟨0, 0, 0, 0, false, false, 0, 0⟩ 3 = some finished ∧
      finished.messages.map (fun message => (message.cmd, message.body
        (workBuffer (packetBytes ⟨1, 2, 0, 3, 5⟩ [(4, [0x08, 0x2A]), (300, [])]) (fun _ => 0xEE)))) =
        [(4, [0x08, 0x2A]), (300, [])] ∧
      finished.buf.getNumBytesRead = 19 := by
  have size : (packetBytes ⟨1, 2, 0, 3, 5⟩ [(4, [0x08, 0x2A]), (300, [])]).length = 19 := by
    have flags : encode (BitVec.toNat (0 : BitVec 32)) = [0] := encode_last 0 (by decide)
    have last : encode (zigZagEncode32 5).toNat = [10] := encode_last 10 (by decide)
    have tick : encode (BitVec.toNat (4 : BitVec 32)) = [4] := encode_last 4 (by decide)
    have command : encode (BitVec.toNat (300 : BitVec 32)) = [0xAC, 2] := by
      rw [encode_more _ (by decide)]
      exact congrArg _ (encode_last 2 (by decide))
    have two : encode 2 = [2] := encode_last 2 (by decide)
    have none : encode 0 = [0] := encode_last 0 (by decide)
    simp only [packetBytes, headerBytes, messageBytes, List.flatMap_cons, List.flatMap_nil, flags,
      last, tick, command, List.length_append, List.length_cons, List.length_nil, two, none,
      littleEndian_length]
  obtain ⟨finished, returned, exactly⟩ := framing_decoded_exactly ⟨1, 2, 0, 3, 5⟩
    [(4, [0x08, 0x2A]), (300, [])] (fun _ => 0xEE) ⟨0, 0, 0, 0, false, false, 0, 0⟩ 3
    (by rw [size]; decide) (by decide)
  rw [if_pos (by decide), size] at exactly
  exact ⟨finished, returned, exactly⟩

end Sniffles.ReadPacket
