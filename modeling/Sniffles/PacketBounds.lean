import Sniffles.MessageFraming

/-!
# When dispatched messages lie inside the packet

The reader is bounded by the work buffer, not by the packet, so nothing in the
loop compares a number or a body with the packet's end. Here the packet is
framed on its own bytes: a number that does not end inside it is refused. The
loop stays inside the packet exactly when every frame that is reached is
complete, has a size that is not negative and, if it is parsed, a body that ends
inside the packet. What is handed to the parsers is then a function of the
packet alone.
-/

namespace Sniffles.ReadPacket

open BitSequences MachineIntegers CBitRead Base128

/-- A number of the packet, if all its bytes lie inside it. -/
def varintIn (packetData : List Byte) (start : Nat) : Option (BitVec 32 × Nat) :=
  let (number, stop) :=
    decodeFrom (fun index => packetData.getD index 0) kMaxVarint32Bytes 0 0 start
  if stop ≤ packetData.length then some (number, stop) else none

/-- A frame of the packet, if both its numbers lie inside it. -/
def frameIn (packetData : List Byte) (start : Nat) : Option Frame :=
  (varintIn packetData start).bind fun (cmd, next) =>
    (varintIn packetData next).map fun (size, body) => ⟨cmd, size, body⟩

/-- The flags and the end of a header that lies inside the packet. -/
def headerIn (packetData : List Byte) : Option (BitVec 32 × Nat) :=
  (varintIn packetData 8).bind fun (flags, next) =>
    (varintIn packetData (next + 2)).map fun (_, stop) => (flags, stop)

/-- The frame starts of a packet, found from its own bytes. -/
inductive PacketStart (packetData : List Byte) : Nat → Prop where
  | header (flags : BitVec 32) (stop : Nat) (found : headerIn packetData = some (flags, stop))
      (accepted : admitted flags = true) : PacketStart packetData stop
  | following (start : Nat) (frame : Frame) (before : PacketStart packetData start)
      (found : frameIn packetData start = some frame) : PacketStart packetData frame.following

/-- The size of a frame is not negative, and a body that is parsed ends before
    the packet does. -/
def Frame.Fits (frame : Frame) (size : Nat) : Prop :=
  0 ≤ frame.size.toInt ∧ (dispatch frame.cmd ≠ none → frame.body + frame.size.toNat ≤ size)

/-- Every frame that starts inside the packet is complete and fits. -/
def Contained (packetData : List Byte) : Prop :=
  ∀ start, PacketStart packetData start → start < packetData.length →
    ∃ frame, frameIn packetData start = some frame ∧ frame.Fits packetData.length

/-- A turn of the loop stays inside the packet: both numbers are read whole and end
    inside it, the size is not negative, and a window given to a parser ends
    inside it. -/
structure Inside (memory : Int → Byte) (size : Nat) (buf : CBitRead) : Prop where
  whole : ((buf.readVarInt32 memory).2.readVarInt32 memory).2.isOverflowed = false
  numbers : (readMessage memory buf).1.parseBuffer ≤ size
  nonnegative : 0 ≤ (readMessage memory buf).1.size.toInt
  window : dispatch (readMessage memory buf).1.cmd ≠ none →
    (readMessage memory buf).1.parseBuffer + (readMessage memory buf).1.size.toNat ≤ size

/-- What the switch hands to the parsers: the message types with their windows. -/
def handed (memory : Int → Byte) (messages : List Presented) : List (MessageType × List Byte) :=
  messages.filterMap fun message =>
    (dispatch message.cmd).map fun type => (type, message.body memory)

/-- The frames of a packet from a start on, for a number of tests of the
    loop condition. -/
def framesIn (packetData : List Byte) : Nat → Nat → Option (List Frame)
  | 0, _ => none
  | tests + 1, start =>
    if start < packetData.length then
      (frameIn packetData start).bind fun frame =>
        (framesIn packetData tests frame.following).map (frame :: ·)
    else some []

/-- What the frames of a packet hand to the parsers, as parts of the packet. -/
def handedIn (packetData : List Byte) (frames : List Frame) : List (MessageType × List Byte) :=
  frames.filterMap fun frame => (dispatch frame.cmd).map fun type =>
    (type, (packetData.drop frame.body).take frame.size.toNat)

/-- What a packet hands to the parsers, found from its own bytes. -/
def handedBy (packetData : List Byte) (tests : Nat) : Option (List (MessageType × List Byte)) :=
  match headerIn packetData with
  | some (flags, stop) =>
    if admitted flags then (framesIn packetData tests stop).map (handedIn packetData) else some []
  | none => some []

/-- The frames behind the header of a packet; there are none if its flags are refused. -/
def framesOf (packetData : List Byte) (tests : Nat) : Option (List Frame) :=
  match headerIn packetData with
  | some (flags, stop) => if admitted flags then framesIn packetData tests stop else some []
  | none => some []

/-- What a packet hands to the parsers comes from its frames. -/
theorem handedBy_frames (packetData : List Byte) (tests : Nat) :
    handedBy packetData tests = (framesOf packetData tests).map (handedIn packetData) := by
  unfold handedBy framesOf
  cases headerIn packetData with
  | none => rfl
  | some header =>
    dsimp only
    by_cases accepted : admitted header.1 = true
    · rw [if_pos accepted, if_pos accepted]
    · rw [if_neg accepted, if_neg accepted]
      rfl

/-- Two successive ends that stay within a capacity, the second one clamped to it. -/
theorem ends_within (stop last capacity length : Nat) (later : min stop capacity < last)
    (bounded : length ≤ capacity) :
    (¬ capacity < stop ∧ ¬ capacity < last) ∧ min last capacity ≤ length ↔
      stop ≤ length ∧ last ≤ length := by
  omega

section WorkBuffer

variable (packetData : List Byte) (data : Int → Byte)

/-- Every frame found in a contained packet fits. -/
theorem framesIn_fits (contained : Contained packetData) (tests start : Nat)
    (found : start < packetData.length → PacketStart packetData start) (frames : List Frame)
    (walk : framesIn packetData tests start = some frames) :
    ∀ frame ∈ frames, frame.Fits packetData.length := by
  induction tests generalizing start frames with
  | zero => cases walk
  | succ tests inductionHypothesis =>
    by_cases more : start < packetData.length
    · obtain ⟨frame, stored, fits⟩ := contained start (found more) more
      rw [framesIn, if_pos more, stored, Option.bind_some] at walk
      obtain ⟨rest, following, rfl⟩ := Option.map_eq_some_iff.mp walk
      intro other member
      rcases List.mem_cons.mp member with rfl | later
      · exact fits
      · exact inductionHypothesis _ (fun _ => .following start _ (found more) stored) rest following
          other later
    · rw [framesIn, if_neg more] at walk
      cases walk
      intro frame member
      cases member

/-- So does every frame behind the header. -/
theorem framesOf_fits (contained : Contained packetData) (tests : Nat) (frames : List Frame)
    (walk : framesOf packetData tests = some frames) :
    ∀ frame ∈ frames, frame.Fits packetData.length := by
  unfold framesOf at walk
  cases header : headerIn packetData with
  | none =>
    rw [header] at walk
    cases walk
    exact fun frame member => absurd member List.not_mem_nil
  | some found =>
    rw [header] at walk
    dsimp only at walk
    by_cases accepted : admitted found.1 = true
    · rw [if_pos accepted] at walk
      exact framesIn_fits packetData contained tests found.2
        (fun _ => .header found.1 found.2 header accepted) frames walk
    · rw [if_neg accepted] at walk
      cases walk
      exact fun frame member => absurd member List.not_mem_nil

/-- A window inside the packet holds the packet's own bytes. -/
theorem body_packet (frame : Frame)
    (inside : frame.body + frame.size.toNat ≤ packetData.length) :
    frame.presented.body (workBuffer packetData data) =
      (packetData.drop frame.body).take frame.size.toNat := by
  apply List.ext_getElem
  · simp [Presented.body, Frame.presented]
    omega
  · intro index within _
    have short : index < frame.size.toNat := by simpa [Presented.body, Frame.presented] using within
    have stored : frame.body + index < packetData.length := by omega
    simp only [Presented.body, Frame.presented, List.getElem_map, List.getElem_range,
      List.getElem_take, List.getElem_drop]
    rw [workBuffer, if_pos (by omega)]
    have address : ((frame.body : Int) + index).toNat = frame.body + index := by omega
    rw [address, List.getD_eq_getElem?_getD, List.getElem?_eq_getElem stored, Option.getD_some]

/-- Frames that fit hand over parts of the packet. -/
theorem handed_frames (frames : List Frame)
    (fits : ∀ frame ∈ frames, frame.Fits packetData.length) :
    handed (workBuffer packetData data) (frames.map Frame.presented) = handedIn packetData frames := by
  induction frames with
  | nil => rfl
  | cons frame rest inductionHypothesis =>
    have following := inductionHypothesis (fun other member => fits other (List.mem_cons_of_mem _ member))
    simp only [handed, handedIn, List.map_cons, List.filterMap_cons, Frame.presented] at following ⊢
    cases parsed : dispatch frame.cmd with
    | none => simpa using following
    | some type =>
      have window := body_packet packetData data frame
        ((fits frame List.mem_cons_self).2 (by simp [parsed]))
      simp only [Frame.presented] at window
      simp [window, following]

variable (bounded : packetData.length ≤ netMaxPayload)
include bounded

/-- Inside the packet the work buffer holds its bytes. -/
theorem cells_packet (index : Nat) (inside : index < packetData.length) :
    cells (workBuffer packetData data) netMaxPayload index = packetData.getD index 0 := by
  rw [cells, if_pos (by omega), workBuffer, if_pos (by omega), Int.toNat_natCast]

/-- A number lies inside the packet exactly when the work buffer's number ends
    there, and it is then that number. -/
theorem varintIn_some (start : Nat) (number : BitVec 32) (stop : Nat) :
    varintIn packetData start = some (number, stop) ↔
      varintStop (workBuffer packetData data) netMaxPayload start ≤ packetData.length ∧
        varint (workBuffer packetData data) netMaxPayload start = (number, stop) := by
  have agree (reach : Nat) (ends : reach ≤ packetData.length) (index : Nat) (before : index < reach) :
      cells (workBuffer packetData data) netMaxPayload index = packetData.getD index 0 :=
    cells_packet packetData data bounded index (by omega)
  constructor
  · intro found
    simp only [varintIn] at found
    split at found
    · rename_i ends
      have same := decodeFrom_local (fun index => packetData.getD index 0)
        (cells (workBuffer packetData data) netMaxPayload) kMaxVarint32Bytes 0 start (0 : BitVec 32)
        (fun index _ before => (agree _ ends index before).symm)
      simp only [Option.some.injEq] at found
      simp only [varint, varintStop, same]
      rw [Nat.min_eq_left (by omega)]
      exact ⟨ends, found⟩
    · cases found
  · rintro ⟨ends, value⟩
    have same := decodeFrom_local (cells (workBuffer packetData data) netMaxPayload)
      (fun index => packetData.getD index 0) kMaxVarint32Bytes 0 start (0 : BitVec 32)
      (fun index _ before => agree _ ends index before)
    simp only [varint, varintStop] at ends value
    rw [Nat.min_eq_left (by omega)] at value
    simp only [varintIn, same, if_pos ends, value]

/-- Both numbers of a frame end inside the packet exactly when none is cut off and
    the body starts there. -/
theorem complete_iff (start : Nat) :
    (truncated (workBuffer packetData data) start = false ∧
        (frameAt (workBuffer packetData data) start).body ≤ packetData.length) ↔
      varintStop (workBuffer packetData data) netMaxPayload start ≤ packetData.length ∧
        varintStop (workBuffer packetData data) netMaxPayload
          (varint (workBuffer packetData data) netMaxPayload start).2 ≤ packetData.length := by
  have later := (varintStop_bounds (workBuffer packetData data) netMaxPayload
    (varint (workBuffer packetData data) netMaxPayload start).2).1
  rw [truncated, Bool.or_eq_false_iff, decide_eq_false_iff_not, decide_eq_false_iff_not]
  exact ends_within _ _ _ _ later bounded

/-- A frame of the packet is the work buffer's frame, if none of its numbers is cut
    off and its body starts inside the packet. -/
theorem frameIn_some (start : Nat) (frame : Frame) :
    frameIn packetData start = some frame ↔
      (truncated (workBuffer packetData data) start = false ∧
        (frameAt (workBuffer packetData data) start).body ≤ packetData.length) ∧
        frameAt (workBuffer packetData data) start = frame := by
  rw [complete_iff packetData data bounded start]
  simp only [frameIn, Option.bind_eq_some_iff, Option.map_eq_some_iff, Prod.exists,
    varintIn_some packetData data bounded]
  constructor
  · rintro ⟨cmd, next, ⟨firstEnds, command⟩, size, body, ⟨secondEnds, declared⟩, rfl⟩
    rw [command]
    refine ⟨⟨firstEnds, secondEnds⟩, ?_⟩
    simp only [frameAt, command, declared]
  · rintro ⟨⟨firstEnds, secondEnds⟩, rfl⟩
    exact ⟨_, _, ⟨firstEnds, rfl⟩, _, _, ⟨secondEnds, rfl⟩, rfl⟩

/-- A frame of the packet starts inside it. -/
theorem frameIn_inside (start : Nat) (frame : Frame)
    (found : frameIn packetData start = some frame) : start < packetData.length := by
  obtain ⟨complete, -⟩ := (frameIn_some packetData (fun _ => 0) bounded start frame).mp found
  have ends := ((complete_iff packetData (fun _ => 0) bounded start).mp complete).1
  have first := varintStop_bounds (workBuffer packetData fun _ => 0) netMaxPayload start
  omega

/-- A header lies inside the packet exactly when it ends there, and it is then the
    header that the reader reads. -/
theorem headerIn_some (flags : BitVec 32) (stop : Nat) :
    headerIn packetData = some (flags, stop) ↔
      headerEnd (workBuffer packetData data) ≤ packetData.length ∧
        flagsAt (workBuffer packetData data) = flags ∧
        headerEnd (workBuffer packetData data) = stop := by
  have capacity : netMaxPayload = 262140 := by decide
  have first := varintStop_bounds (workBuffer packetData data) netMaxPayload 8
  have second := varintStop_bounds (workBuffer packetData data) netMaxPayload
    ((varint (workBuffer packetData data) netMaxPayload 8).2 + 2)
  have ends : headerEnd (workBuffer packetData data) ≤ packetData.length ↔
      varintStop (workBuffer packetData data) netMaxPayload 8 ≤ packetData.length ∧
        varintStop (workBuffer packetData data) netMaxPayload
          ((varint (workBuffer packetData data) netMaxPayload 8).2 + 2) ≤ packetData.length := by
    simp only [headerEnd, varint] at second ⊢
    omega
  rw [ends]
  simp only [headerIn, Option.bind_eq_some_iff, Option.map_eq_some_iff, Prod.exists, Prod.mk.injEq,
    varintIn_some packetData data bounded]
  constructor
  · rintro ⟨read, next, ⟨firstEnds, value⟩, unk1, last, ⟨secondEnds, final⟩, rfl, rfl⟩
    rw [value]
    refine ⟨⟨firstEnds, secondEnds⟩, ?_, ?_⟩
    · simp only [flagsAt, value]
    · simp only [headerEnd, value, final]
  · rintro ⟨⟨firstEnds, secondEnds⟩, rfl, rfl⟩
    exact ⟨_, _, ⟨firstEnds, rfl⟩, _, _, ⟨secondEnds, rfl⟩, rfl, rfl⟩

/-- Every start found from the packet's bytes is visited by the loop. -/
theorem PacketStart.visited {start : Nat} (found : PacketStart packetData start) :
    Start (workBuffer packetData data) packetData.length start := by
  induction found with
  | header flags stop found accepted =>
    obtain ⟨-, rfl, rfl⟩ := (headerIn_some packetData data bounded flags stop).mp found
    exact .header accepted
  | following start frame before found inductionHypothesis =>
    obtain ⟨-, rfl⟩ := (frameIn_some packetData data bounded start frame).mp found
    exact .following start inductionHypothesis (frameIn_inside packetData bounded start _ found)

/-- A turn stays inside the packet exactly when no earlier read was cut off and the
    packet has a frame there that fits. -/
theorem inside_frame (raised : Bool) (buf : CBitRead) (start : Nat)
    (standing : AtByte (workBuffer packetData data) netMaxPayload raised buf start) :
    Inside (workBuffer packetData data) packetData.length buf ↔
      raised = false ∧ ∃ frame, frameIn packetData start = some frame ∧
        frame.Fits packetData.length := by
  obtain ⟨-, -, numbers⟩ := readNumbers_frame _ raised buf start standing
  have presented := (readMessage_frame _ raised buf start standing).1
  have flag : ((buf.readVarInt32 (workBuffer packetData data)).2.readVarInt32
      (workBuffer packetData data)).2.isOverflowed =
        (raised || truncated (workBuffer packetData data) start) := numbers.standing.flag
  constructor
  · rintro ⟨whole, ends, nonnegative, window⟩
    rw [flag, Bool.or_eq_false_iff] at whole
    rw [presented] at ends nonnegative window
    simp only [Frame.presented] at ends nonnegative window
    refine ⟨whole.1, frameAt (workBuffer packetData data) start, ?_, nonnegative, ?_⟩
    · exact (frameIn_some packetData data bounded start _).mpr ⟨⟨whole.2, by omega⟩, rfl⟩
    · intro parsed
      have := window parsed
      omega
  · rintro ⟨rfl, frame, found, nonnegative, window⟩
    obtain ⟨⟨complete, ends⟩, rfl⟩ := (frameIn_some packetData data bounded start frame).mp found
    constructor
    · rw [flag, complete]
      rfl
    · rw [presented]
      simp only [Frame.presented]
      omega
    · rw [presented]
      exact nonnegative
    · rw [presented]
      intro parsed
      have := window parsed
      simp only [Frame.presented]
      omega

/-- Where the packet is contained, a reader of the loop that stands inside it has its
    flag clear and stands at a start of the packet.

Induct over the turns. A contained frame is read whole, and a following frame
before the end of the work buffer is reached by a seek that succeeds. -/
theorem Reached.contained {storage buf : CBitRead} (contained : Contained packetData)
    (reached : Reached packetData data storage buf) :
    ∃ start raised, AtByte (workBuffer packetData data) netMaxPayload raised buf start ∧
      (start < packetData.length → raised = false ∧ PacketStart packetData start) := by
  induction reached with
  | entered flags =>
    obtain ⟨read, after⟩ := readHeader_end (workBuffer packetData data)
      (openPacket packetData data storage) (openPacket_start packetData data storage)
    rw [read] at flags
    refine ⟨_, false, after, fun inside => ⟨rfl, ?_⟩⟩
    have found := (headerIn_some packetData data bounded _ _).mpr ⟨Nat.le_of_lt inside, rfl, rfl⟩
    exact .header _ _ found flags
  | turned buf before more inductionHypothesis =>
    obtain ⟨start, raised, standing, packetStart⟩ := inductionHypothesis
    rw [(getNumBytesRead_byte _ _ _ _ _ standing room).2] at more
    obtain ⟨rfl, found⟩ := packetStart (by omega)
    obtain ⟨frame, stored, -⟩ := contained start found (by omega)
    obtain ⟨⟨whole, -⟩, rfl⟩ := (frameIn_some packetData data bounded start frame).mp stored
    obtain ⟨-, flag, moved, kept⟩ := readMessage_frame _ false buf start standing
    refine ⟨_, flag, moved, fun inside => ⟨?_, .following start _ found stored⟩⟩
    rw [kept (by omega), whole]
    rfl

/-- Where the packet is contained, the loop presents the frames found from its own
    bytes. -/
theorem messageLoop_contained (contained : Contained packetData) (tests start : Nat)
    (raised : Bool) (buf : CBitRead)
    (standing : AtByte (workBuffer packetData data) netMaxPayload raised buf start)
    (found : start < packetData.length → PacketStart packetData start) :
    (messageLoop (workBuffer packetData data) packetData.length tests buf).map Prod.fst =
      (framesIn packetData tests start).map (List.map Frame.presented) := by
  induction tests generalizing start raised buf with
  | zero => rfl
  | succ tests inductionHypothesis =>
    have position := (getNumBytesRead_byte _ _ _ _ _ standing room).2
    by_cases more : start < packetData.length
    · obtain ⟨frame, stored, -⟩ := contained start (found more) more
      obtain ⟨-, rfl⟩ := (frameIn_some packetData data bounded start frame).mp stored
      obtain ⟨shown, flag, moved, -⟩ := readMessage_frame _ raised buf start standing
      have rest := inductionHypothesis _ flag _ moved
        (fun _ => .following start _ (found more) stored)
      rw [messageLoop, if_pos (by omega), framesIn, if_pos more, stored]
      simp only [Option.map_map, Option.bind_some]
      cases walk : framesIn packetData tests
          (frameAt (workBuffer packetData data) start).following with
      | none =>
        rw [walk] at rest
        rw [Option.map_none, Option.map_eq_none_iff] at rest
        rw [rest]
        rfl
      | some frames =>
        rw [walk] at rest
        obtain ⟨looped, same, first⟩ := Option.map_eq_some_iff.mp rest
        rw [same]
        simp [shown, first]
    · rw [messageLoop, if_neg (by omega), framesIn, if_neg more]
      rfl

/-- The messages presented for a contained packet are the frames found from its own bytes. -/
theorem readPacket_presented (storage : CBitRead) (contained : Contained packetData)
    (long : 8 ≤ packetData.length) (tests : Nat) :
    (readPacket packetData data storage (tests + 1)).map Finished.messages =
      (framesOf packetData (tests + 1)).map (List.map Frame.presented) := by
  have after := (readHeader_end (workBuffer packetData data)
    (openPacket packetData data storage) (openPacket_start packetData data storage)).2
  rw [readPacket_flags packetData data storage _ long, framesOf]
  by_cases complete : headerEnd (workBuffer packetData data) ≤ packetData.length
  · have header := (headerIn_some packetData data bounded _ _).mpr ⟨complete, rfl, rfl⟩
    rw [header]
    by_cases accepted : admitted (flagsAt (workBuffer packetData data)) = true
    · have looped := messageLoop_contained packetData data bounded contained (tests + 1) _ _ _ after
        (fun _ => .header _ _ header accepted)
      simp only [accepted, if_true, Option.map_map]
      exact looped
    · simp only [accepted, Bool.false_eq_true, if_false, Option.map_some]
      rfl
  · have header : headerIn packetData = none := by
      cases stored : headerIn packetData with
      | none => rfl
      | some found =>
        obtain ⟨flags, stop⟩ := found
        exact absurd ((headerIn_some packetData data bounded flags stop).mp stored).1 complete
    have position := (getNumBytesRead_byte _ _ _ _ _ after room).2
    have ended : messageLoop (workBuffer packetData data) packetData.length (tests + 1)
        (readHeader (workBuffer packetData data) (openPacket packetData data storage)).2 =
          some ([], (readHeader (workBuffer packetData data)
            (openPacket packetData data storage)).2) := by
      rw [messageLoop, if_neg (by omega)]
    simp only [header, ended, Option.map_some, ite_self]
    rfl

/-- What a contained packet hands to the parsers does not depend on the work buffer
    behind it. -/
theorem readPacket_contained (storage : CBitRead) (contained : Contained packetData)
    (long : 8 ≤ packetData.length) (tests : Nat) :
    (readPacket packetData data storage (tests + 1)).map
        (fun finished => handed (workBuffer packetData data) finished.messages) =
      handedBy packetData (tests + 1) := by
  have presented := readPacket_presented packetData data bounded storage contained long tests
  have same := congrArg (Option.map (handed (workBuffer packetData data))) presented
  rw [Option.map_map, Option.map_map] at same
  refine same.trans ?_
  rw [handedBy_frames]
  cases walk : framesOf packetData (tests + 1) with
  | none => rfl
  | some frames =>
    exact congrArg some (handed_frames packetData data frames
      (framesOf_fits packetData contained (tests + 1) frames walk))

end WorkBuffer

/-- For every packet of 8 to `NET_MAX_PAYLOAD` bytes, every turn of the loop stays
    inside the packet if and only if the packet is contained; what is handed to the
    parsers is then determined by the packet's own bytes, for every content of the
    work buffer behind it. -/
theorem inside_iff_contained (packetData : List Byte) (data : Int → Byte) (storage : CBitRead)
    (long : 8 ≤ packetData.length) (bounded : packetData.length ≤ netMaxPayload) :
    ((∀ buf, Reached packetData data storage buf → buf.getNumBytesRead < packetData.length →
        Inside (workBuffer packetData data) packetData.length buf) ↔ Contained packetData) ∧
      (Contained packetData → ∀ tests,
        (readPacket packetData data storage (tests + 1)).map
            (fun finished => handed (workBuffer packetData data) finished.messages) =
          handedBy packetData (tests + 1)) := by
  refine ⟨⟨?_, ?_⟩, ?_⟩
  · intro inside start found before
    obtain ⟨buf, raised, reached, standing⟩ :=
      (PacketStart.visited packetData data bounded found).reached storage
    have position := (getNumBytesRead_byte _ _ _ _ _ standing room).2
    exact ((inside_frame packetData data bounded raised buf start standing).mp
      (inside buf reached (by omega))).2
  · intro contained buf reached before
    obtain ⟨start, raised, standing, packetStart⟩ :=
      Reached.contained packetData data bounded contained reached
    rw [(getNumBytesRead_byte _ _ _ _ _ standing room).2] at before
    obtain ⟨clear, found⟩ := packetStart (by omega)
    exact (inside_frame packetData data bounded raised buf start standing).mpr
      ⟨clear, contained start found (by omega)⟩
  · intro contained tests
    exact readPacket_contained packetData data bounded storage contained long tests

/-- A header and a tick message whose declared size ends with the packet. -/
def tickPacket : List Byte := [0, 0, 0, 0, 0, 0, 0, 0, 0, 0, 0, 0, 4, 2, 8, 1]

/-- Its only turn stays inside, and its two bytes are handed to the tick parser. -/
theorem tick_message_inside :
    Contained tickPacket ∧
      (∀ buf, Reached tickPacket (fun _ => 0xEE) ⟨0, 0, 0, 0, false, false, 0, 0⟩ buf →
        buf.getNumBytesRead < 16 → Inside (workBuffer tickPacket (fun _ => 0xEE)) 16 buf) ∧
      (readPacket tickPacket (fun _ => 0xEE) ⟨0, 0, 0, 0, false, false, 0, 0⟩ 2).map
          (fun finished => handed (workBuffer tickPacket (fun _ => 0xEE)) finished.messages) =
        some [(.CNETMsg_Tick, [8, 1])] := by
  have contained : Contained tickPacket := by
    intro start found before
    have starts : start = 12 ∨ start = 16 := by
      induction found with
      | header flags stop stored accepted =>
        obtain ⟨-, rfl⟩ : (0 : BitVec 32) = flags ∧ 12 = stop :=
          Prod.mk.inj (Option.some.inj ((by decide : headerIn _ = some (0, 12)).symm.trans stored))
        exact .inl rfl
      | following start frame earlier stored inductionHypothesis =>
        rcases inductionHypothesis (frameIn_inside _ (by decide) start frame stored) with rfl | rfl
        · obtain rfl : (⟨4, 2, 14⟩ : Frame) = frame :=
            Option.some.inj ((by decide : frameIn _ 12 = some ⟨4, 2, 14⟩).symm.trans stored)
          exact .inr (by decide)
        · cases (by decide : frameIn tickPacket 16 = none).symm.trans
            stored
    rcases starts with rfl | rfl
    · exact ⟨⟨4, 2, 14⟩, by decide, by decide, by decide⟩
    · exact absurd before (by decide)
  obtain ⟨inside, parsed⟩ := inside_iff_contained tickPacket (fun _ => 0xEE)
    ⟨0, 0, 0, 0, false, false, 0, 0⟩ (by decide) (by decide)
  have handedOver : handedBy tickPacket 2 = some [(.CNETMsg_Tick, [8, 1])] := by decide
  exact ⟨contained, inside.mpr contained, (parsed contained 1).trans handedOver⟩

/-- A header and a tick message that declares a hundred bytes and has none. -/
def overlongPacket : List Byte := [0, 0, 0, 0, 0, 0, 0, 0, 0, 0, 0, 0, 4, 100]

/-- That message is handed to the parser all the same. -/
theorem overlong_message_outside :
    ¬ ∀ (packetData : List Byte) (data : Int → Byte) (storage buf : CBitRead),
        8 ≤ packetData.length → packetData.length ≤ netMaxPayload →
        Reached packetData data storage buf → buf.getNumBytesRead < packetData.length →
        Inside (workBuffer packetData data) packetData.length buf := by
  intro promised
  obtain ⟨read, after⟩ := readHeader_end
    (workBuffer overlongPacket fun _ => 0)
    (openPacket overlongPacket (fun _ => 0)
      ⟨0, 0, 0, 0, false, false, 0, 0⟩)
    (openPacket_start overlongPacket _ _)
  have start : headerEnd (workBuffer overlongPacket fun _ => 0) = 12 := by
    decide
  rw [start] at after
  have position := (getNumBytesRead_byte _ _ _ _ _ after room).2
  have inside := promised overlongPacket (fun _ => 0)
    ⟨0, 0, 0, 0, false, false, 0, 0⟩ _ (by decide) (by decide)
    (.entered (by rw [read]; decide)) (by rw [position]; decide)
  have window := inside.window
  rw [(readMessage_frame _ _ _ 12 after).1] at window
  exact absurd (window (by decide)) (by decide)

end Sniffles.ReadPacket
