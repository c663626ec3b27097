import Sniffles.PacketBounds
import Sniffles.PacketProgress
import Sniffles.PacketDispatch

/-!
# Calls of `ReadPacket`

A call copies the packet into a work buffer on its stack, and nothing compares the size of
the packet with that of the buffer. It comes back only if the copy fits, the message loop
ends and no parser reads behind the buffer; a parser that is given a body beyond the end
of the buffer, or a negative size, may still refuse the bytes before it gets there.

A packet whose messages are contained in it and whose sizes lead forward is read in as
many turns as it has bytes at most. What is printed then are the messages whose bytes
spell records, whatever the stack held before.
-/

namespace Sniffles.ReadPacket

open BitSequences MachineIntegers CheckedMemory CBitRead TaggedRecords

/-- What the stack holds where a call puts its work buffer and its reader. -/
structure StackMemory where
  data : Int → Byte
  storage : CBitRead

/-- How far a parser can read: to the end of the declared body or of the work buffer. A
    negative size puts the end before the start, where no read comes to it. -/
def Presented.reach (message : Presented) : Nat :=
  let rest := (netMaxPayload - message.parseBuffer).toNat
  if message.size.toInt < 0 then rest else min message.size.toInt.toNat rest

/-- The bytes of the work buffer that a parser can read. -/
def Presented.window (memory : Int → Byte) (message : Presented) : List Byte :=
  (List.range message.reach).map fun index : Nat => memory (message.parseBuffer + index)

/-- `switch (Cmd)`, where reading behind the work buffer is a fault. -/
def switchInside (reader : TagReader) (turns : Nat) (memory : Int → Byte) (message : Presented) :
    Checked (Option NetMessage) :=
  match dispatch message.cmd with
  | none => .ok none
  | some type => do
    let msg ← type.generated.parseFromArray reader turns (message.window memory) message.size.toInt
    .ok (msg.map (NetMessage.mk type))

/-- The messages that are printed, in their order. -/
def printedInside (reader : TagReader) (turns : Nat) (memory : Int → Byte) :
    List Presented → Checked (List NetMessage)
  | [] => .ok []
  | message :: messages => do
    let printed ← switchInside reader turns memory message
    let others ← printedInside reader turns memory messages
    .ok (printed.toList ++ others)

/-- `ReadPacket(packetData, size)`: what it prints, with bounds on the turns of its loop and
    of the loops of the parsers. A packet below eight bytes is left alone; a larger one is
    copied to the work buffer. -/
def callReadPacket (reader : TagReader) (tests turns : Nat) (stack : StackMemory)
    (packetData : List Byte) (size : Int) : Checked (List NetMessage) :=
  if size < 8 then .ok []
  else if size ≤ netMaxPayload then
    match readPacket packetData stack.data stack.storage tests with
    | some finished =>
      printedInside reader turns (workBuffer packetData stack.data) finished.messages
    | none => .error .unfinished
  else .error .outOfBounds

/-- The messages that some bodies should be printed as: those whose bytes spell records. -/
inductive Printed : List (MessageType × List Byte) → List NetMessage → Prop where
  | nil : Printed [] []
  | parsed (type : MessageType) (body : List Byte) (records : List Record)
      {bodies : List (MessageType × List Byte)} {messages : List NetMessage}
      (listed : Listed 100 body records) (others : Printed bodies messages) :
      Printed ((type, body) :: bodies)
        (⟨type, (RecordLayouts.Message.empty type.generated.layout).absorbAll records⟩ :: messages)
  | refused (type : MessageType) (body : List Byte)
      {bodies : List (MessageType × List Byte)} {messages : List NetMessage}
      (nothing : ¬ ∃ records, Listed 100 body records) (others : Printed bodies messages) :
      Printed ((type, body) :: bodies) messages

/-- Every size leads behind the start of its frame. -/
def Forward (packetData : List Byte) : Prop :=
  ∀ start frame, PacketStart packetData start → start < packetData.length →
    frameIn packetData start = some frame → start < frame.following

section Frames

variable (packetData : List Byte) (contained : Contained packetData) (forward : Forward packetData)
include contained forward

/-- Where the sizes lead forward, the frames of a packet come to their end.

Induct over the tests: each frame starts later than the one before. -/
theorem framesIn_ends (tests start : Nat)
    (found : start < packetData.length → PacketStart packetData start)
    (enough : packetData.length - start < tests) :
    ∃ frames, framesIn packetData tests start = some frames := by
  induction tests generalizing start with
  | zero => omega
  | succ tests inductionHypothesis =>
    by_cases more : start < packetData.length
    · obtain ⟨frame, stored, -⟩ := contained start (found more) more
      have later := forward start frame (found more) more stored
      obtain ⟨frames, walk⟩ := inductionHypothesis frame.following
        (fun _ => .following start frame (found more) stored) (by omega)
      exact ⟨frame :: frames, by rw [framesIn, if_pos more, stored, Option.bind_some, walk]; rfl⟩
    · exact ⟨[], by rw [framesIn, if_neg more]⟩

/-- So do the frames behind the header. -/
theorem framesOf_ends : ∃ frames, framesOf packetData (packetData.length + 1) = some frames := by
  unfold framesOf
  cases header : headerIn packetData with
  | none => exact ⟨[], rfl⟩
  | some found =>
    dsimp only
    by_cases accepted : admitted found.1 = true
    · rw [if_pos accepted]
      exact framesIn_ends packetData contained forward (packetData.length + 1) found.2
        (fun _ => .header found.1 found.2 header accepted) (by omega)
    · exact ⟨[], if_neg accepted⟩

end Frames

/-- What a parser can read of a frame that fits is its part of the packet, of the declared
    size. -/
theorem window_packet (packetData : List Byte) (data : Int → Byte) (frame : Frame)
    (bounded : packetData.length ≤ netMaxPayload) (nonnegative : 0 ≤ frame.size.toInt)
    (inside : frame.body + frame.size.toNat ≤ packetData.length) :
    frame.presented.window (workBuffer packetData data) =
        (packetData.drop frame.body).take frame.size.toNat ∧
      frame.presented.size.toInt =
        ((packetData.drop frame.body).take frame.size.toNat).length := by
  have capacity : netMaxPayload = 262140 := by decide
  have size : frame.size.toInt = frame.size.toNat := by
    rw [BitVec.toInt_eq_toNat_cond] at nonnegative ⊢
    have := frame.size.isLt
    split at nonnegative <;> omega
  have fits : frame.presented.reach = frame.size.toNat := by
    have rest : min frame.size.toInt.toNat ((netMaxPayload : Int) - frame.body).toNat =
        frame.size.toNat := by omega
    rw [Presented.reach, Frame.presented]
    dsimp only
    rw [if_neg (by omega), rest]
  refine ⟨?_, ?_⟩
  · rw [← body_packet packetData data frame inside, Presented.window, fits]
    rfl
  · rw [List.length_take, List.length_drop]
    show frame.size.toInt = _
    omega

/-- The bytes of the packet that a frame declares as its body. -/
def bodyIn (packetData : List Byte) (frame : Frame) : List Byte :=
  (packetData.drop frame.body).take frame.size.toNat

section Printing

variable (reader : TagReader) (turns : Nat) (packetData : List Byte) (data : Int → Byte)
  (bounded : packetData.length ≤ netMaxPayload) (enough : 2 * packetData.length < turns)
include bounded enough

/-- A frame of a parsed type that fits is printed exactly if its body spells records. -/
theorem switchInside_frame (frame : Frame) (type : MessageType)
    (command : dispatch frame.cmd = some type) (fits : frame.Fits packetData.length) :
    (∃ records, Listed 100 (bodyIn packetData frame) records ∧
      switchInside reader turns (workBuffer packetData data) frame.presented =
        .ok (some ⟨type, (RecordLayouts.Message.empty type.generated.layout).absorbAll records⟩)) ∨
      (¬ ∃ records, Listed 100 (bodyIn packetData frame) records) ∧
        switchInside reader turns (workBuffer packetData data) frame.presented = .ok none := by
  have capacity : netMaxPayload = 262140 := by decide
  have presented : dispatch frame.presented.cmd = some type := command
  obtain ⟨window, size⟩ := window_packet packetData data frame bounded fits.1
    (fits.2 (by rw [command]; exact Option.some_ne_none type))
  have short : (bodyIn packetData frame).length ≤ packetData.length := by
    rw [bodyIn, List.length_take, List.length_drop]
    omega
  rw [switchInside, presented]
  dsimp only
  rw [window, size, ← bodyIn]
  rcases type.generated.parse_outcome reader (bodyIn packetData frame) turns (by omega) (by omega)
    with ⟨records, listed⟩ | refused
  · refine .inl ⟨records, listed, ?_⟩
    rw [type.generated.parse_of_listed reader _ turns (by omega) (by omega) listed, ok_bind]
    rfl
  · refine .inr ⟨?_, ?_⟩
    · rintro ⟨records, listed⟩
      have accepted := type.generated.parse_of_listed reader _ turns (by omega) (by omega) listed
      rw [refused] at accepted
      cases accepted
    · rw [refused, ok_bind]
      rfl

/-- Frames that fit are printed by the rule for the bodies that they hand over. -/
theorem printedInside_frames (frames : List Frame)
    (fits : ∀ frame ∈ frames, frame.Fits packetData.length) :
    ∃ messages, printedInside reader turns (workBuffer packetData data)
        (frames.map Frame.presented) = .ok messages ∧
      Printed (handedIn packetData frames) messages := by
  induction frames with
  | nil => exact ⟨[], rfl, .nil⟩
  | cons frame frames inductionHypothesis =>
    obtain ⟨here, there⟩ := List.forall_mem_cons.mp fits
    obtain ⟨messages, others, printed⟩ := inductionHypothesis there
    rw [List.map_cons, printedInside]
    cases command : dispatch frame.cmd with
    | none =>
      have skipped : handedIn packetData (frame :: frames) = handedIn packetData frames := by
        rw [handedIn, List.filterMap_cons, command]
        rfl
      have silent : switchInside reader turns (workBuffer packetData data) frame.presented =
          .ok none := by
        have presented : dispatch frame.presented.cmd = none := command
        rw [switchInside, presented]
      rw [skipped, silent, ok_bind, others]
      exact ⟨messages, rfl, printed⟩
    | some type =>
      have first : handedIn packetData (frame :: frames) =
          (type, bodyIn packetData frame) :: handedIn packetData frames := by
        rw [handedIn, List.filterMap_cons, command]
        rfl
      rw [first]
      rcases switchInside_frame reader turns packetData data bounded enough frame type command here
        with ⟨records, listed, shown⟩ | ⟨nothing, silent⟩
      · rw [shown, ok_bind, others]
        exact ⟨_, rfl, .parsed type _ records listed printed⟩
      · rw [silent, ok_bind, others]
        exact ⟨messages, rfl, .refused type _ nothing printed⟩

end Printing

/-- A call for a packet of at most `NET_MAX_PAYLOAD` bytes whose messages are contained in it
    and whose sizes lead forward comes back after as many turns as the packet has bytes at
    most, touches nothing outside the work buffer, and prints exactly the messages that the
    packet's own bytes hand to the parsers and that spell records. -/
theorem callReadPacket_prints (reader : TagReader) (turns : Nat) (stack : StackMemory)
    (packetData : List Byte) (bounded : packetData.length ≤ netMaxPayload)
    (contained : Contained packetData) (forward : Forward packetData)
    (enough : 2 * packetData.length < turns) :
    ∃ bodies messages, handedBy packetData (packetData.length + 1) = some bodies ∧
      callReadPacket reader (packetData.length + 1) turns stack packetData packetData.length =
        .ok messages ∧
      Printed bodies messages := by
  obtain ⟨frames, walk⟩ := framesOf_ends packetData contained forward
  have fits := framesOf_fits packetData contained _ frames walk
  have handedOver : handedBy packetData (packetData.length + 1) =
      some (handedIn packetData frames) := by
    rw [handedBy_frames, walk, Option.map_some]
  rw [callReadPacket]
  by_cases long : 8 ≤ packetData.length
  case pos =>
    have presented := readPacket_presented packetData stack.data bounded stack.storage contained
      long packetData.length
    rw [walk, Option.map_some] at presented
    obtain ⟨finished, returned, shown⟩ := Option.map_eq_some_iff.mp presented
    obtain ⟨messages, printed, rule⟩ := printedInside_frames reader turns packetData stack.data
      bounded enough frames fits
    refine ⟨_, messages, handedOver, ?_, rule⟩
    rw [if_neg (by omega), if_pos (by omega), returned]
    dsimp only
    rw [shown, printed]
  case neg =>
    have header : headerIn packetData = none := by
      cases flags : varintIn packetData 8 with
      | none => rw [headerIn, flags, Option.bind_none]
      | some found =>
        have ends := ((varintIn_some packetData stack.data bounded 8 found.1 found.2).mp flags).1
        have later := (varintStop_bounds (workBuffer packetData stack.data) netMaxPayload 8).1
        omega
    obtain rfl : [] = frames := by
      rw [framesOf, header] at walk
      exact Option.some.inj walk
    exact ⟨_, [], handedOver, if_pos (by omega), .nil⟩

/-- A header, a tick of one and a tick whose only byte is no tag. -/
def mixedPacket : List Byte := [0, 0, 0, 0, 0, 0, 0, 0, 0, 0, 0, 0, 4, 2, 8, 1, 4, 1, 0]

/-- The frames of that packet. -/
theorem mixedPacket_frames (start : Nat) (found : PacketStart mixedPacket start)
    (before : start < mixedPacket.length) :
    start = 12 ∧ frameIn mixedPacket start = some ⟨4, 2, 14⟩ ∨
      start = 16 ∧ frameIn mixedPacket start = some ⟨4, 1, 18⟩ := by
  have first : frameIn mixedPacket 12 = some ⟨4, 2, 14⟩ := by decide
  have second : frameIn mixedPacket 16 = some ⟨4, 1, 18⟩ := by decide
  induction found with
  | header flags stop stored accepted =>
    obtain ⟨-, rfl⟩ : (0 : BitVec 32) = flags ∧ 12 = stop :=
      Prod.mk.inj (Option.some.inj ((by decide : headerIn _ = some (0, 12)).symm.trans stored))
    exact .inl ⟨rfl, first⟩
  | following start frame earlier stored inductionHypothesis =>
    rcases inductionHypothesis (frameIn_inside _ (by decide) start frame stored) with
      ⟨rfl, -⟩ | ⟨rfl, -⟩
    · obtain rfl : (⟨4, 2, 14⟩ : Frame) = frame := Option.some.inj (first.symm.trans stored)
      exact .inr ⟨by decide, second⟩
    · obtain rfl : (⟨4, 1, 18⟩ : Frame) = frame := Option.some.inj (second.symm.trans stored)
      exact absurd before (by decide)

/-- Both bodies are handed over, on whatever stack. -/
theorem mixedPacket_prints :
    ∃ messages, callReadPacket .plain 20 39 ⟨fun _ => 0xEE, ⟨0, 0, 0, 0, false, false, 0, 0⟩⟩
        mixedPacket 19 = .ok messages ∧
      Printed [(.CNETMsg_Tick, [8, 1]), (.CNETMsg_Tick, [0])] messages := by
  have contained : Contained mixedPacket := by
    intro start found before
    rcases mixedPacket_frames start found before with ⟨rfl, frame⟩ | ⟨rfl, frame⟩
    · exact ⟨_, frame, by decide, by decide⟩
    · exact ⟨_, frame, by decide, by decide⟩
  have forward : Forward mixedPacket := by
    intro start frame found before stored
    rcases mixedPacket_frames start found before with ⟨rfl, same⟩ | ⟨rfl, same⟩
    · obtain rfl := Option.some.inj (same.symm.trans stored)
      decide
    · obtain rfl := Option.some.inj (same.symm.trans stored)
      decide
  obtain ⟨bodies, messages, handedOver, called, printed⟩ := callReadPacket_prints .plain 39
    ⟨fun _ => 0xEE, ⟨0, 0, 0, 0, false, false, 0, 0⟩⟩ mixedPacket (by decide) contained forward
    (by decide)
  have two : handedBy mixedPacket 20 = some [(.CNETMsg_Tick, [8, 1]), (.CNETMsg_Tick, [0])] := by
    decide
  obtain rfl := Option.some.inj (two.symm.trans handedOver)
  exact ⟨messages, called, printed⟩

end Sniffles.ReadPacket
