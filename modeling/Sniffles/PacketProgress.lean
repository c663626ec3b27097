import Sniffles.MessageFraming

/-!
# When the message loop makes progress

The relative seek takes a declared size as a signed number, so a frame can lead
back to its own start or before it. A frame that does so is exactly a turn after
which the reported position is not larger. Where no visited frame does, the
position grows with every turn and the loop ends within the packet size; a frame
that leads to its own start keeps the loop running forever.
-/

namespace Sniffles.ReadPacket

open BitSequences MachineIntegers CBitRead

/-- The offset of a frame leads to its start or before it, but not before the
    first byte of the buffer. -/
def SeeksBack (memory : Int → Byte) (start : Nat) : Prop :=
  -(8 * ((frameAt memory start).body : Int)) ≤ (frameAt memory start).offset ∧
    (frameAt memory start).offset ≤ -(8 * (((frameAt memory start).body : Int) - start))

/-- Every turn of the loop increases the reported position, and the loop ends
    after at most as many turns as the packet has bytes. -/
def Progresses (packetData : List Byte) (data : Int → Byte) (storage : CBitRead) : Prop :=
  (∀ buf, Reached packetData data storage buf → buf.getNumBytesRead < packetData.length →
    buf.getNumBytesRead < (readMessage (workBuffer packetData data) buf).2.getNumBytesRead) ∧
  ∃ finished, readPacket packetData data storage (packetData.length + 1) = some finished ∧
    finished.messages.length ≤ packetData.length

/-- The following frame starts later exactly when the frame does not seek back.

A target outside the buffer leads to its end, which is later than any frame start
before it; this covers a sum that wraps, since it wraps to a negative target. -/
theorem following_later (memory : Int → Byte) (start : Nat) (inside : start < netMaxPayload) :
    start < (frameAt memory start).following ↔ ¬ SeeksBack memory start := by
  have capacity : netMaxPayload = 262140 := by decide
  have body := frameAt_body memory start
  obtain ⟨low, high⟩ := int32_bounds ((frameAt memory start).size.toInt * 8)
  have offset : (frameAt memory start).offset =
      int32 ((frameAt memory start).size.toInt * 8) := rfl
  have whole : (frameAt memory start).offset % 8 = 0 := by
    rw [offset, int32]
    omega
  rw [← offset] at low high
  unfold SeeksBack Frame.following landing
  by_cases far : 8 * ((frameAt memory start).body : Int) + (frameAt memory start).offset < 2147483648
  · rw [int32_of_fits (by omega) far]
    split <;> omega
  · have wrapped : int32 (8 * ((frameAt memory start).body : Int) + (frameAt memory start).offset) < 0 := by
      unfold int32
      omega
    rw [if_neg (by omega)]
    omega

/-- A turn increases the reported position exactly when its frame does not seek
    back. -/
theorem turn_progresses (packetData : List Byte) (data : Int → Byte) (raised : Bool)
    (buf : CBitRead) (start : Nat) (inside : start < netMaxPayload)
    (standing : AtByte (workBuffer packetData data) netMaxPayload raised buf start) :
    buf.getNumBytesRead < (readMessage (workBuffer packetData data) buf).2.getNumBytesRead ↔
      ¬ SeeksBack (workBuffer packetData data) start := by
  obtain ⟨-, flag, moved, -⟩ := readMessage_frame _ raised buf start standing
  rw [(getNumBytesRead_byte _ _ _ _ _ standing room).2,
    (getNumBytesRead_byte _ _ _ _ _ moved room).2, ← following_later _ start inside]
  omega

/-- Where no visited frame seeks back, the loop ends with at most one turn for each
    byte that is left.

Induct over the tests allowed: each turn starts later than the one before. -/
theorem messageLoop_ends (packetData : List Byte) (data : Int → Byte)
    (bounded : packetData.length ≤ netMaxPayload)
    (forward : ∀ start, Start (workBuffer packetData data) packetData.length start →
      start < packetData.length → ¬ SeeksBack (workBuffer packetData data) start)
    (tests : Nat) (start : Nat) (raised : Bool) (buf : CBitRead)
    (visited : Start (workBuffer packetData data) packetData.length start)
    (standing : AtByte (workBuffer packetData data) netMaxPayload raised buf start)
    (enough : packetData.length - start < tests) :
    ∃ messages final, messageLoop (workBuffer packetData data) packetData.length tests buf =
        some (messages, final) ∧ messages.length ≤ packetData.length - start := by
  induction tests generalizing start raised buf with
  | zero => omega
  | succ tests inductionHypothesis =>
    have position := (getNumBytesRead_byte _ _ _ _ _ standing room).2
    by_cases more : start < packetData.length
    · obtain ⟨-, flag, moved, -⟩ := readMessage_frame _ raised buf start standing
      have later := (following_later (workBuffer packetData data) start (by omega)).mpr
        (forward start visited more)
      obtain ⟨messages, final, looped, few⟩ := inductionHypothesis _ flag _
        (.following start visited more) moved (by omega)
      refine ⟨(readMessage (workBuffer packetData data) buf).1 :: messages, final, ?_, ?_⟩
      · rw [messageLoop, if_pos (by omega)]
        simp only [looped, Option.map_some]
      · simp only [List.length_cons]
        omega
    · refine ⟨[], buf, ?_, by simp⟩
      rw [messageLoop, if_neg (by omega)]

/-- A frame that leads to its own start is visited again at every turn. -/
theorem messageLoop_repeats (packetData : List Byte) (data : Int → Byte) (start : Nat)
    (more : start < packetData.length)
    (same : (frameAt (workBuffer packetData data) start).following = start) (tests : Nat)
    (raised : Bool) (buf : CBitRead)
    (standing : AtByte (workBuffer packetData data) netMaxPayload raised buf start) :
    messageLoop (workBuffer packetData data) packetData.length tests buf = none := by
  induction tests generalizing raised buf with
  | zero => rfl
  | succ tests inductionHypothesis =>
    have position := (getNumBytesRead_byte _ _ _ _ _ standing room).2
    obtain ⟨-, flag, moved, -⟩ := readMessage_frame _ raised buf start standing
    rw [same] at moved
    rw [messageLoop, if_pos (by omega)]
    simp only [inductionHypothesis flag _ moved, Option.map_none]

/-- For every packet of 8 to `NET_MAX_PAYLOAD` bytes and every content of the rest
    of the work buffer, the position increases with every turn and the loop ends
    within the packet size if and only if no visited frame seeks back. -/
theorem progresses_iff (packetData : List Byte) (data : Int → Byte) (storage : CBitRead)
    (long : 8 ≤ packetData.length) (bounded : packetData.length ≤ netMaxPayload) :
    Progresses packetData data storage ↔
      ∀ start, Start (workBuffer packetData data) packetData.length start →
        start < packetData.length → ¬ SeeksBack (workBuffer packetData data) start := by
  constructor
  · rintro ⟨increases, -⟩ start visited more
    obtain ⟨buf, raised, reached, standing⟩ := visited.reached storage
    have position := (getNumBytesRead_byte _ _ _ _ _ standing room).2
    exact (turn_progresses packetData data raised buf start (by omega) standing).mp
      (increases buf reached (by omega))
  · intro forward
    refine ⟨?_, ?_⟩
    · intro buf reached more
      obtain ⟨start, raised, visited, standing⟩ := reached.start
      have position := (getNumBytesRead_byte _ _ _ _ _ standing room).2
      exact (turn_progresses packetData data raised buf start (by omega) standing).mpr
        (forward start visited (by omega))
    · have after := (readHeader_end (workBuffer packetData data)
        (openPacket packetData data storage) (openPacket_start packetData data storage)).2
      rw [readPacket_flags packetData data storage _ long]
      by_cases accepted : admitted (flagsAt (workBuffer packetData data)) = true
      · obtain ⟨messages, final, looped, few⟩ := messageLoop_ends packetData data bounded forward
          (packetData.length + 1) _ _ _ (.header accepted) after (by omega)
        refine ⟨⟨messages, final, packetData.length⟩, ?_, by simp only; omega⟩
        simp only [accepted, if_true, looped, Option.map_some]
      · refine ⟨_, if_neg accepted, Nat.zero_le _⟩

/-- A header and one empty message are passed in one turn. -/
theorem empty_message_progresses :
    Progresses [0, 0, 0, 0, 0, 0, 0, 0, 0, 0, 0, 0, 0, 0] (fun _ => 0xEE)
      ⟨0, 0, 0, 0, false, false, 0, 0⟩ := by
  apply (progresses_iff _ (fun _ => 0xEE) ⟨0, 0, 0, 0, false, false, 0, 0⟩ (by decide)
    (by decide)).mpr
  intro start visited more
  have visits : start = 12 ∨ start = 14 := by
    induction visited with
    | header flags => exact .inl (by decide)
    | following start before before_end inductionHypothesis =>
      rcases inductionHypothesis before_end with rfl | rfl
      · exact .inr (by decide)
      · exact absurd before_end (by decide)
  rcases visits with rfl | rfl
  · unfold SeeksBack
    decide
  · exact absurd more (by decide)

/-- A twelve-byte header and one message that declares the size `-6`. -/
def loopingPacket : List Byte :=
  [0, 0, 0, 0, 0, 0, 0, 0, 0, 0, 0, 0, 0x00, 0xFA, 0xFF, 0xFF, 0xFF, 0x0F]

/-- The loop never ends on that packet. -/
theorem looping_packet_never_returns :
    ¬ ∀ (packetData : List Byte) (data : Int → Byte) (storage : CBitRead),
        8 ≤ packetData.length → packetData.length ≤ netMaxPayload →
        Progresses packetData data storage := by
  intro promised
  obtain ⟨-, finished, returned, -⟩ := promised loopingPacket (fun _ => 0)
    ⟨0, 0, 0, 0, false, false, 0, 0⟩ (by decide) (by decide)
  have after := (readHeader_end (workBuffer loopingPacket fun _ => 0)
    (openPacket loopingPacket (fun _ => 0) ⟨0, 0, 0, 0, false, false, 0, 0⟩)
    (openPacket_start loopingPacket _ _)).2
  have flags : admitted (flagsAt (workBuffer loopingPacket fun _ => 0)) = true := by decide
  have start : headerEnd (workBuffer loopingPacket fun _ => 0) = 12 := by decide
  have same : (frameAt (workBuffer loopingPacket fun _ => 0) 12).following = 12 := by decide
  rw [start] at after
  have stuck := messageLoop_repeats loopingPacket (fun _ => 0) 12 (by decide) same
    (loopingPacket.length + 1) _ _ after
  rw [readPacket_flags _ _ _ _ (by decide), flags] at returned
  simp only [if_true, stuck, Option.map_none] at returned
  cases returned

end Sniffles.ReadPacket
