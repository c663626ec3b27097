import Sniffles.CaptureCallback
import Sniffles.IceInverse
import Sniffles.Foundations.BlockMode

/-!
# What the capture callback accepts

The decryption loop followed by the copy of the rest is the block function of
the cipher applied to the payload. Its inverse is encryption, so a payload is
accepted exactly when it is the encryption of a wrapped packet. The same
description of the loop bounds every index of the callback: once the payload is
present and nonempty no access can fail.
-/

namespace Sniffles.CaptureCallback

open BitSequences MachineIntegers CheckedMemory BlockMode

/-- A payload with every complete block decrypted and the rest left as it is. -/
def cleartext (ice : IceKey) (payload : List Byte) : List Byte :=
  mapBlocks (ice.decrypt IceKey.iceSboxesInit) payload

/-- The inverse: every complete block encrypted. -/
def ciphertext (ice : IceKey) (text : List Byte) : List Byte :=
  mapBlocks (ice.encrypt IceKey.iceSboxesInit) text

theorem cleartext_ciphertext (ice : IceKey) (text : List Byte) :
    cleartext ice (ciphertext ice text) = text :=
  mapBlocks_inverse _ _ (IceKey.decrypt_encrypt IceKey.iceSboxesInit ice) text

theorem ciphertext_cleartext (ice : IceKey) (payload : List Byte) :
    ciphertext ice (cleartext ice payload) = payload :=
  mapBlocks_inverse _ _ (IceKey.encrypt_decrypt IceKey.iceSboxesInit ice) payload

@[simp] theorem cleartext_length (ice : IceKey) (payload : List Byte) :
    (cleartext ice payload).length = payload.length :=
  mapBlocks_length _ payload

/-- With less than a block left the loop ends. -/
theorem decryptBlocks_short (ice : IceKey) (pData pDataOut : List Byte) (p1 p2 : Nat)
    (bytesLeft : Int) (short : bytesLeft < 8) :
    decryptBlocks ice pData p1 p2 bytesLeft pDataOut = .ok (p1, p2, bytesLeft, pDataOut) := by
  have stopped : ¬ bytesLeft ≥ IceKey.blockSize := by
    unfold IceKey.blockSize
    omega
  rw [decryptBlocks, dif_neg stopped]

/-- One round of the loop replaces one block of the copy and moves both pointers
    past it. -/
theorem decryptBlocks_block (ice : IceKey) (before rest written old : List Byte)
    (ctext garbage : IceKey.Block) (left : rest.length < 2147483640) :
    decryptBlocks ice (before ++ (ctext.toList ++ rest)) before.length written.length
        ((ctext.toList ++ rest).length : Nat) (written ++ (garbage.toList ++ old)) =
      decryptBlocks ice ((before ++ ctext.toList) ++ rest) (before ++ ctext.toList).length
        (written ++ (ice.decrypt IceKey.iceSboxesInit ctext).toList).length (rest.length : Nat)
        ((written ++ (ice.decrypt IceKey.iceSboxesInit ctext).toList) ++ old) := by
  have size : (ctext.toList ++ rest).length = 8 + rest.length := by simp
  have another : ((ctext.toList ++ rest).length : Int) ≥ IceKey.blockSize := by
    rw [size, IceKey.blockSize]
    omega
  have counted : int32 (((ctext.toList ++ rest).length : Nat) - IceKey.blockSize) = rest.length := by
    rw [size, IceKey.blockSize, int32_of_fits (by omega) (by omega)]
    omega
  have loaded : readVector 8 (before ++ (ctext.toList ++ rest)) before.length = .ok ctext := by
    rw [← List.append_assoc]
    exact readVector_between before rest ctext
  have stored : writeRange (written ++ (garbage.toList ++ old)) written.length
      (ice.decrypt IceKey.iceSboxesInit ctext).toList =
        .ok (written ++ (ice.decrypt IceKey.iceSboxesInit ctext).toList ++ old) := by
    rw [← List.append_assoc]
    exact writeRange_between written garbage.toList _ old (by simp)
  rw [decryptBlocks, dif_pos another, loaded, counted]
  simp only [ok_bind, stored]
  congr 1 <;> simp [IceKey.blockSize]

/-- Running the loop and the copy from any block boundary decrypts what follows.

Proof: induction over the remaining payload block by block. A block is consumed
by one round; a rest without a complete block is copied. -/
theorem decryptBlocks_cleartext (ice : IceKey) (rest : List Byte) :
    ∀ (before written old : List Byte), written.length = before.length →
      old.length = rest.length → rest.length < 2147483648 →
      (decryptBlocks ice (before ++ rest) before.length written.length (rest.length : Nat)
          (written ++ old)).bind (copyRest (before ++ rest)) =
        .ok (written ++ cleartext ice rest) := by
  induction rest using blockwise 8 with
  | short rest short =>
    intro before written old aligned sameLength _
    have count : uint32 (rest.length : Int) = rest.length := by
      have := uint32_of_fits (z := (rest.length : Int)) (by omega) (by omega)
      omega
    have loaded := readRange_between before rest []
    have stored := writeRange_between written old rest [] sameLength.symm
    simp only [List.append_nil] at loaded stored
    rw [decryptBlocks_short _ _ _ _ _ _ (by omega)]
    simp only [Except.bind, copyRest, bind, count, loaded, stored, cleartext]
    rw [mapBlocks_short _ rest short]
  | block ctext rest inductionHypothesis =>
    intro before written old aligned sameLength bounded
    rw [List.length_append, Vector.length_toList] at sameLength bounded
    have garbage : ∃ (first : IceKey.Block) (others : List Byte), old = first.toList ++ others ∧
        others.length = rest.length := by
      refine ⟨leading old (by omega), old.drop 8, by simp [leading], ?_⟩
      rw [List.length_drop]
      omega
    obtain ⟨first, others, rfl, othersLength⟩ := garbage
    rw [decryptBlocks_block ice before rest written others ctext first (by omega),
      ← List.append_assoc before]
    rw [inductionHypothesis _ _ others (by simp [aligned]) othersLength (by omega)]
    simp only [cleartext]
    rw [mapBlocks_block, List.append_assoc]

/-- The decrypted copy of a payload that an `int` can measure is its cleartext,
    whatever the fresh memory held. -/
theorem decryptPayload_cleartext (ice : IceKey) (payload pDataOut : List Byte)
    (sized : pDataOut.length = payload.length) (measured : payload.length < 2147483648) :
    decryptPayload ice payload pDataOut = .ok (cleartext ice payload) := by
  have loop := decryptBlocks_cleartext ice payload [] [] pDataOut rfl sized measured
  rw [decryptPayload, int32_of_fits (by omega) (by omega)]
  exact loop

/-- A payload whose length is negative as an `int` is copied whole. -/
theorem decryptPayload_negative (ice : IceKey) (payload pDataOut : List Byte)
    (sized : pDataOut.length = payload.length) (addressable : payload.length < 4294967296)
    (large : 2147483648 ≤ payload.length) :
    decryptPayload ice payload pDataOut = .ok payload := by
  have wrapped : int32 payload.length = payload.length - 4294967296 := by
    unfold int32
    omega
  have count : uint32 ((payload.length : Int) - 4294967296) = payload.length := by
    unfold uint32
    omega
  have loaded := readRange_between [] payload []
  simp only [List.nil_append, List.append_nil, List.length_nil] at loaded
  have stored := writeRange_whole pDataOut payload sized.symm
  rw [decryptPayload, wrapped, decryptBlocks_short _ _ _ _ _ _ (by omega)]
  simp only [ok_bind, copyRest, count, loaded, stored]

/-- The decrypted copy always has the length of the payload, and making it
    touches nothing outside the two buffers. -/
theorem decryptPayload_length (ice : IceKey) (payload pDataOut : List Byte)
    (sized : pDataOut.length = payload.length) (addressable : payload.length < 4294967296) :
    ∃ copy, decryptPayload ice payload pDataOut = .ok copy ∧ copy.length = payload.length := by
  by_cases measured : payload.length < 2147483648
  · exact ⟨_, decryptPayload_cleartext ice payload pDataOut sized measured, by simp⟩
  · exact ⟨_, decryptPayload_negative ice payload pDataOut sized addressable (by omega), rfl⟩

/-- The bytes of a word, most significant first. -/
def bigEndian (word : BitVec 32) : List Byte :=
  [(word >>> 24).setWidth 8, (word >>> 16).setWidth 8, (word >>> 8).setWidth 8, word.setWidth 8]

/-- A cleartext that wraps a nonempty packet: a count from 1 to 255, that many
    bytes of padding, the packet size in big-endian order and the packet. -/
def Wraps (text packet : List Byte) : Prop :=
  ∃ (count : Byte) (padding : List Byte), 1 ≤ count.toNat ∧ padding.length = count.toNat ∧
    packet ≠ [] ∧
    text = [count] ++ padding ++ bigEndian (BitVec.ofNat 32 packet.length) ++ packet

/-- Loading four bytes and swapping them reads a big-endian word. -/
theorem byteswapUlong_loadUlong (stored : Vector Byte 4) :
    byteswapUlong (loadUlong stored) =
      IceKey.packHalf (stored.get 0) (stored.get 1) (stored.get 2) (stored.get 3) := by
  obtain ⟨first, second, third, fourth⟩ :=
    IceKey.packHalf_bytes stored[3] stored[2] stored[1] stored[0]
  simp only [byteswapUlong, loadUlong, first, second, third, fourth]
  rfl

/-- Four bytes are the big-endian form of exactly the word they are read as. -/
theorem bigEndian_iff (stored : Vector Byte 4) (word : BitVec 32) :
    stored.toList = bigEndian word ↔ byteswapUlong (loadUlong stored) = word := by
  have listed : stored.toList = [stored.get 0, stored.get 1, stored.get 2, stored.get 3] := by
    apply List.ext_getElem (by simp)
    intro index _ within
    have placed : index = 0 ∨ index = 1 ∨ index = 2 ∨ index = 3 := by
      simp only [List.length_cons, List.length_nil] at within
      omega
    rcases placed with rfl | rfl | rfl | rfl <;> simp [Vector.get]
  rw [byteswapUlong_loadUlong, listed]
  constructor
  · intro same
    simp only [bigEndian, List.cons.injEq, and_true] at same
    obtain ⟨first, second, third, fourth⟩ := same
    rw [first, second, third, fourth]
    exact IceKey.packHalf_lanes word
  · intro same
    obtain ⟨first, second, third, fourth⟩ :=
      IceKey.packHalf_bytes (stored.get 0) (stored.get 1) (stored.get 2) (stored.get 3)
    rw [same] at first second third fourth
    rw [bigEndian, first, second, third, fourth]

/-- A cleartext long enough for its first byte splits into the count, the
    padding, the stored size and a nonempty rest. -/
theorem partition_text (count : Byte) (rest : List Byte) (long : count.toNat + 5 < rest.length + 1) :
    ∃ (padding : List Byte) (stored : Vector Byte 4) (packet : List Byte),
      rest = padding ++ (stored.toList ++ packet) ∧ padding.length = count.toNat ∧ packet ≠ [] := by
  have enough : 4 ≤ (rest.drop count.toNat).length := by
    rw [List.length_drop]
    omega
  refine ⟨rest.take count.toNat, leading (rest.drop count.toNat) enough,
    rest.drop (count.toNat + 4), ?_, ?_, ?_⟩
  · simp [leading, ← List.drop_drop]
  · rw [List.length_take]
    omega
  · intro empty
    have none := congrArg List.length empty
    rw [List.length_drop, List.length_nil] at none
    omega

/-- In a partitioned cleartext only the rest can be the wrapped packet, and it is
    one exactly when the stored size is its length. -/
theorem wraps_partition (count : Byte) (padding packet : List Byte) (stored : Vector Byte 4)
    (padded : padding.length = count.toNat) (positive : 0 < count.toNat) (nonempty : packet ≠ [])
    (candidate : List Byte) :
    Wraps (count :: (padding ++ (stored.toList ++ packet))) candidate ↔
      candidate = packet ∧
        byteswapUlong (loadUlong stored) = BitVec.ofNat 32 packet.length := by
  constructor
  · rintro ⟨count', padding', _, padded', _, same⟩
    simp only [List.cons_append, List.nil_append, List.cons.injEq, List.append_assoc] at same
    obtain ⟨rfl, afterCount⟩ := same
    obtain ⟨rfl, afterPadding⟩ := List.append_inj afterCount (by rw [padded, padded'])
    obtain ⟨size, rfl⟩ := List.append_inj afterPadding (by simp [bigEndian])
    exact ⟨rfl, (bigEndian_iff stored _).mp size⟩
  · rintro ⟨rfl, size⟩
    refine ⟨count, padding, positive, padded, nonempty, ?_⟩
    rw [(bigEndian_iff stored _).mpr size]
    simp

/-- A cleartext too short for its first byte, or whose first byte is zero, wraps
    nothing. -/
theorem not_wraps (count : Byte) (rest candidate : List Byte)
    (refused : ¬ (count.toNat > 0 ∧ count.toNat + 5 < rest.length + 1)) :
    ¬ Wraps (count :: rest) candidate := by
  rintro ⟨count', padding, positive, padded, nonempty, same⟩
  apply refused
  simp only [List.cons_append, List.nil_append, List.cons.injEq] at same
  obtain ⟨rfl, rfl⟩ := same
  have left : 0 < candidate.length := List.length_pos_iff.mpr nonempty
  simp only [List.length_append, bigEndian, List.length_cons, List.length_nil, padded]
  omega

/-- The size test adds without a wrap that matters: it holds exactly for the
    length of the rest of the text. -/
theorem size_test (word : BitVec 32) (count packet : Nat)
    (addressable : count + 5 + packet < 4294967296) :
    uint32 ((word.toNat : Int) + count + 5) = count + 5 + packet ↔
      word = BitVec.ofNat 32 packet := by
  have bound : word.toNat < 4294967296 := word.isLt
  have modulus : (2 : Nat) ^ 32 = 4294967296 := rfl
  rw [← BitVec.toNat_inj, BitVec.toNat_ofNat, modulus, Nat.mod_eq_of_lt (by omega)]
  unfold uint32
  omega

/-- A cleartext whose first byte is refused leads to no call. -/
theorem unwrapPacket_refused (packetMemory : Nat → Byte) (count : Byte) (rest : List Byte)
    (refused : ¬ (count.toNat > 0 ∧ count.toNat + 5 < rest.length + 1)) :
    unwrapPacket packetMemory (count :: rest) (rest.length + 1) =
      .ok ([deltaOffsetLine count], none) := by
  have small : count.toNat < 256 := count.isLt
  have sum : uint32 ((count.toNat : Int) + 5) = count.toNat + 5 := by
    unfold uint32
    omega
  simp only [unwrapPacket, readCell_first, ok_bind, sum]
  rw [if_neg refused]

/-- In an accepted cleartext the stored size is read, and the rest is copied and
    passed on if the size is its length. -/
theorem unwrapPacket_partition (packetMemory : Nat → Byte) (count : Byte)
    (padding packet : List Byte) (stored : Vector Byte 4) (padded : padding.length = count.toNat)
    (positive : 0 < count.toNat) (nonempty : packet ≠ [])
    (addressable : count.toNat + 5 + packet.length < 4294967296) :
    unwrapPacket packetMemory (count :: (padding ++ (stored.toList ++ packet)))
        (count.toNat + 5 + packet.length) =
      .ok ([deltaOffsetLine count, dataFinalSizeLine (byteswapUlong (loadUlong stored))],
        if byteswapUlong (loadUlong stored) = BitVec.ofNat 32 packet.length then
          some (packet, int32 packet.length)
        else none) := by
  have small : count.toNat < 256 := count.isLt
  have sum : uint32 ((count.toNat : Int) + 5) = count.toNat + 5 := by
    unfold uint32
    omega
  have left : 0 < packet.length := List.length_pos_iff.mpr nonempty
  have accepted : count.toNat > 0 ∧ count.toNat + 5 < count.toNat + 5 + packet.length := by omega
  have loaded : readVector 4 (count :: (padding ++ (stored.toList ++ packet)))
      (count.toNat + 1) = .ok stored := by
    have read := readVector_between (count :: padding) packet stored
    rwa [List.length_cons, padded, List.append_assoc, List.cons_append] at read
  have copied : readRange (count :: (padding ++ (stored.toList ++ packet)))
      (count.toNat + 5) packet.length = .ok packet := by
    have read := readRange_between (count :: padding ++ stored.toList) packet []
    have place : (count :: padding ++ stored.toList).length = count.toNat + 5 := by
      simp [padded]
    rw [place] at read
    simpa using read
  have filled := writeRange_whole (allocate packetMemory packet.length) packet (by simp)
  have tested := size_test (byteswapUlong (loadUlong stored)) count.toNat packet.length addressable
  simp only [unwrapPacket, readCell_first, ok_bind, sum]
  rw [if_pos accepted]
  simp only [loaded, ok_bind]
  generalize byteswapUlong (loadUlong stored) = word at tested ⊢
  by_cases sized : word = BitVec.ofNat 32 packet.length
  · have recovered : word.toNat = packet.length := by
      rw [sized, BitVec.toNat_ofNat]
      exact Nat.mod_eq_of_lt (by omega)
    rw [if_pos (tested.mpr sized), if_pos sized, recovered]
    simp only [copied, filled, ok_bind]
  · have mismatch : ¬ uint32 ((word.toNat : Int) + count.toNat + 5) =
        count.toNat + 5 + packet.length := by
      intro same
      exact sized (tested.mp same)
    rw [if_neg mismatch, if_neg sized]

/-- Unwrapping a nonempty cleartext touches only its own buffers and calls
    `ReadPacket` exactly with the wrapped packet and its length. -/
theorem unwrapPacket_wraps (packetMemory : Nat → Byte) (text : List Byte) (nonempty : text ≠ [])
    (addressable : text.length < 4294967296) :
    ∃ lines call, unwrapPacket packetMemory text text.length = .ok (lines, call) ∧
      ∀ packet size, call = some (packet, size) ↔
        size = int32 packet.length ∧ Wraps text packet := by
  cases text with
  | nil => exact absurd rfl nonempty
  | cons count rest =>
    by_cases accepted : count.toNat > 0 ∧ count.toNat + 5 < rest.length + 1
    · obtain ⟨padding, stored, packet, rfl, padded, rest_nonempty⟩ :=
        partition_text count rest accepted.2
      have length : (count :: (padding ++ (stored.toList ++ packet))).length =
          count.toNat + 5 + packet.length := by
        simp [padded]
        omega
      rw [length] at addressable
      have unwrapped := unwrapPacket_partition packetMemory count padding packet stored padded
        accepted.1 rest_nonempty addressable
      rw [← length] at unwrapped
      refine ⟨_, _, unwrapped, ?_⟩
      intro candidate size
      rw [wraps_partition count padding packet stored padded accepted.1 rest_nonempty candidate]
      split
      · rename_i sized
        simp only [Option.some.injEq, Prod.mk.injEq, sized, and_true]
        constructor
        · rintro ⟨rfl, called⟩
          exact ⟨called.symm, rfl⟩
        · rintro ⟨called, rfl⟩
          exact ⟨rfl, called.symm⟩
      · rename_i mismatch
        simp [mismatch]
    · refine ⟨_, _, unwrapPacket_refused packetMemory count rest accepted, ?_⟩
      intro candidate size
      simp [not_wraps count rest candidate accepted]

/-- Without a payload layer the callback follows a null pointer. -/
theorem handleGamePacket_absent (fresh : FreshMemory) (ice : IceKey) (ip : IP) (udp : UDP) :
    handleGamePacket fresh ice ip udp none = .error .nullDereference := by
  rw [handleGamePacket, dereference_none, error_bind]

/-- With an empty payload it reads the first byte of an empty copy. -/
theorem handleGamePacket_empty (fresh : FreshMemory) (ice : IceKey) (ip : IP) (udp : UDP)
    (raw : RawPDU) (empty : raw.payload = []) :
    handleGamePacket fresh ice ip udp (some raw) = .error .outOfBounds := by
  have copy : decryptPayload ice [] (allocate fresh.pDataOut 0) = .ok [] := by
    rw [decryptPayload_cleartext ice [] _ (by simp) (by decide), cleartext,
      mapBlocks_short _ _ (by decide)]
  rw [handleGamePacket, dereference_some, ok_bind]
  simp only [empty, List.length_nil]
  rw [copy, ok_bind, unwrapPacket, readCell_empty, error_bind, error_bind]

/-- With a nonempty payload the callback returns normally, and it calls
    `ReadPacket` with what the decrypted copy wraps. -/
theorem handleGamePacket_nonempty (fresh : FreshMemory) (ice : IceKey) (ip : IP) (udp : UDP)
    (raw : RawPDU) (nonempty : raw.payload ≠ []) :
    ∃ copy handled, decryptPayload ice raw.payload
        (allocate fresh.pDataOut raw.payload.length) = .ok copy ∧
      handleGamePacket fresh ice ip udp (some raw) = .ok handled ∧
      ∀ packet size, handled.readPacket = some (packet, size) ↔
        size = int32 packet.length ∧ Wraps copy packet := by
  obtain ⟨copy, decrypted, sameLength⟩ := decryptPayload_length ice raw.payload
    (allocate fresh.pDataOut raw.payload.length) (by simp) raw.addressable
  have copy_nonempty : copy ≠ [] := by
    rintro rfl
    exact nonempty (List.length_eq_zero_iff.mp sameLength.symm)
  have addressable : copy.length < 4294967296 := by
    rw [sameLength]
    exact raw.addressable
  obtain ⟨lines, call, unwrapped, exactly⟩ :=
    unwrapPacket_wraps fresh.packetData copy copy_nonempty addressable
  rw [sameLength] at unwrapped
  refine ⟨copy, ⟨banner ip udp ++ [payloadSizeLine raw.payload.length] ++ lines, call, true⟩,
    decrypted, ?_, exactly⟩
  rw [handleGamePacket, dereference_some, ok_bind]
  simp only
  rw [decrypted, ok_bind, unwrapped, ok_bind]

/-- A payload that carries a wrapped packet: the encryption of its cleartext
    form. -/
def Carries (ice : IceKey) (payload packet : List Byte) : Prop :=
  ∃ text, Wraps text packet ∧ payload = ciphertext ice text

/-- Encryption is invertible, so carrying is wrapping after decryption. -/
theorem carries_iff (ice : IceKey) (payload packet : List Byte) :
    Carries ice payload packet ↔ Wraps (cleartext ice payload) packet := by
  constructor
  · rintro ⟨text, wraps, rfl⟩
    rwa [cleartext_ciphertext]
  · intro wraps
    exact ⟨_, wraps, (ciphertext_cleartext _ payload).symm⟩

/-- A carried packet is shorter than the payload. -/
theorem carries_length (ice : IceKey) (payload packet : List Byte)
    (carries : Carries ice payload packet) : packet.length < payload.length := by
  obtain ⟨count, padding, _, _, _, text⟩ := (carries_iff ice payload packet).mp carries
  have longer := congrArg List.length text
  simp only [cleartext_length, List.length_append, List.length_cons] at longer
  omega

/-- The branch for game packets calls `ReadPacket` exactly with a carried packet
    and its length. -/
theorem handleGamePacket_carries (fresh : FreshMemory) (ice : IceKey) (ip : IP) (udp : UDP)
    (raw : RawPDU) (nonempty : raw.payload ≠ []) (measured : raw.payload.length < 2147483648) :
    ∃ handled, handleGamePacket fresh ice ip udp (some raw) = .ok handled ∧
      ∀ packet size, handled.readPacket = some (packet, size) ↔
        size = packet.length ∧ Carries ice raw.payload packet := by
  obtain ⟨copy, handled, decrypted, returned, exactly⟩ :=
    handleGamePacket_nonempty fresh ice ip udp raw nonempty
  rw [decryptPayload_cleartext ice _ _ (by simp) measured] at decrypted
  obtain rfl : cleartext ice raw.payload = copy := Except.ok.inj decrypted
  refine ⟨handled, returned, ?_⟩
  intro packet size
  rw [exactly, ← carries_iff]
  constructor
  · rintro ⟨sized, carries⟩
    have shorter := carries_length ice raw.payload packet carries
    rw [int32_of_fits (by omega) (by omega)] at sized
    exact ⟨sized, carries⟩
  · rintro ⟨sized, carries⟩
    have shorter := carries_length ice raw.payload packet carries
    rw [int32_of_fits (by omega) (by omega)]
    exact ⟨sized, carries⟩

/-- An IP/UDP packet from port 27015 with a nonempty payload leads to a call of
    `ReadPacket` exactly when the payload is the encryption of a wrapped packet,
    the call receives that packet and its length, and the packet is unique. The
    length bound says that an `int` can hold the payload size, which every UDP
    payload satisfies. -/
theorem datagram_unwrapping_exact (fresh : FreshMemory) (ip : IP) (udp : UDP) (raw : RawPDU)
    (port : udp.sport = 27015) (nonempty : raw.payload ≠ [])
    (datagram : raw.payload.length < 2147483648) :
    ∃ handled, packetLoopHandler fresh ⟨some ip, some udp, some raw⟩ = .ok handled ∧
      (∀ packet size, handled.readPacket = some (packet, size) ↔
        size = packet.length ∧ Carries (gameKey fresh.keysched) raw.payload packet) ∧
      ∀ packet other, Carries (gameKey fresh.keysched) raw.payload packet →
        Carries (gameKey fresh.keysched) raw.payload other → packet = other := by
  obtain ⟨handled, returned, called⟩ :=
    handleGamePacket_carries fresh (gameKey fresh.keysched) ip udp raw nonempty datagram
  refine ⟨handled, ?_, called, ?_⟩
  · simp only [packetLoopHandler, if_pos port]
    exact returned
  · intro packet other carried otherCarried
    have first := (called packet _).mpr ⟨rfl, carried⟩
    have second := (called other _).mpr ⟨rfl, otherCarried⟩
    rw [first] at second
    exact (Prod.mk.inj (Option.some.inj second)).1

/-- A payload of one encrypted block and four bytes sent in the clear: one byte of padding,
    the size six and the packet itself, which starts inside the block. -/
theorem block_datagram_unwrapped :
    ∃ handled, packetLoopHandler
        ⟨fun _ => ⟨#v[0, 0, 0]⟩, fun _ => 0, fun _ => 0⟩
        ⟨some ⟨0, 4, #v[10, 0, 0, 1], #v[10, 0, 0, 2]⟩, some ⟨27015, 27005⟩,
          some ⟨[0x6F, 0x0C, 0x83, 0x77, 0x65, 0x2D, 0x8D, 0x5F, 0x44, 0x45, 0x46, 0x47],
            by decide⟩⟩ = .ok handled ∧
      handled.readPacket = some ([0x42, 0x43, 0x44, 0x45, 0x46, 0x47], 6) := by
  have encrypted : (gameKey fun _ => ⟨#v[0, 0, 0]⟩).encrypt IceKey.iceSboxesInit
      #v[0x01, 0xAA, 0, 0, 0, 6, 0x42, 0x43] =
        #v[0x6F, 0x0C, 0x83, 0x77, 0x65, 0x2D, 0x8D, 0x5F] := by decide +kernel
  have carried : Carries (gameKey fun _ => ⟨#v[0, 0, 0]⟩)
      [0x6F, 0x0C, 0x83, 0x77, 0x65, 0x2D, 0x8D, 0x5F, 0x44, 0x45, 0x46, 0x47]
      [0x42, 0x43, 0x44, 0x45, 0x46, 0x47] := by
    refine ⟨[0x01, 0xAA, 0, 0, 0, 6, 0x42, 0x43, 0x44, 0x45, 0x46, 0x47],
      ⟨0x01, [0xAA], by decide, rfl, by simp, by decide⟩, ?_⟩
    have blocks := mapBlocks_block ((gameKey fun _ => ⟨#v[0, 0, 0]⟩).encrypt IceKey.iceSboxesInit)
      #v[0x01, 0xAA, 0, 0, 0, 6, 0x42, 0x43] [0x44, 0x45, 0x46, 0x47]
    rw [encrypted, mapBlocks_short _ [0x44, 0x45, 0x46, 0x47] (by decide)] at blocks
    exact blocks.symm
  obtain ⟨handled, returned, called, _⟩ := datagram_unwrapping_exact
    ⟨fun _ => ⟨#v[0, 0, 0]⟩, fun _ => 0, fun _ => 0⟩ ⟨0, 4, #v[10, 0, 0, 1], #v[10, 0, 0, 2]⟩
    ⟨27015, 27005⟩
    ⟨[0x6F, 0x0C, 0x83, 0x77, 0x65, 0x2D, 0x8D, 0x5F, 0x44, 0x45, 0x46, 0x47], by decide⟩ rfl
    (by simp) (by decide)
  exact ⟨handled, returned, (called _ 6).mpr ⟨rfl, carried⟩⟩

/-- Every PDU but an IP/UDP packet from port 27015 is passed over. -/
theorem handler_other (fresh : FreshMemory) (eth : PDU)
    (other : ∀ ip udp, eth.ip = some ip → eth.udp = some udp → udp.sport ≠ 27015) :
    packetLoopHandler fresh eth = .ok ⟨[], none, true⟩ := by
  unfold packetLoopHandler
  cases network : eth.ip with
  | none => rfl
  | some ip =>
    cases transport : eth.udp with
    | none => rfl
    | some udp => simp only [if_neg (other ip udp network transport)]

/-- The branch for game packets is safe exactly on a nonempty payload layer. -/
theorem handleGamePacket_safe (fresh : FreshMemory) (ice : IceKey) (ip : IP) (udp : UDP)
    (found : Option RawPDU) :
    Safe (handleGamePacket fresh ice ip udp found) ↔
      ∃ raw, found = some raw ∧ raw.payload ≠ [] := by
  constructor
  · rintro ⟨handled, returned⟩
    cases found with
    | none =>
      rw [handleGamePacket_absent] at returned
      cases returned
    | some raw =>
      refine ⟨raw, rfl, ?_⟩
      intro empty
      rw [handleGamePacket_empty fresh ice ip udp raw empty] at returned
      cases returned
  · rintro ⟨raw, rfl, nonempty⟩
    obtain ⟨_, handled, _, returned, _⟩ := handleGamePacket_nonempty fresh ice ip udp raw nonempty
    exact ⟨handled, returned⟩

/-- The callback returns normally, with every access inside a buffer it owns,
    exactly when the PDU is not an IP/UDP packet from port 27015 or has a
    payload layer with at least one byte. -/
theorem handler_safe_iff (fresh : FreshMemory) (eth : PDU) :
    Safe (packetLoopHandler fresh eth) ↔
      ((∃ ip udp, eth.ip = some ip ∧ eth.udp = some udp ∧ udp.sport = 27015) →
        ∃ raw, eth.raw = some raw ∧ raw.payload ≠ []) := by
  by_cases game : ∃ ip udp, eth.ip = some ip ∧ eth.udp = some udp ∧ udp.sport = 27015
  · obtain ⟨ip, udp, network, transport, port⟩ := game
    have branch : packetLoopHandler fresh eth =
        handleGamePacket fresh (gameKey fresh.keysched) ip udp eth.raw := by
      simp only [packetLoopHandler, network, transport, if_pos port]
    rw [branch, handleGamePacket_safe]
    constructor
    · intro present _
      exact present
    · intro present
      exact present ⟨ip, udp, network, transport, port⟩
  · constructor
    · intro _ present
      exact absurd present game
    · intro _
      refine ⟨_, handler_other fresh eth ?_⟩
      intro ip udp network transport port
      exact game ⟨ip, udp, network, transport, port⟩

/-- A game packet without a payload layer is a PDU on which the callback faults. -/
theorem absent_payload_faults :
    ¬ ∀ (fresh : FreshMemory) (eth : PDU), Safe (packetLoopHandler fresh eth) := by
  intro safe
  obtain ⟨handled, returned⟩ := safe ⟨fun _ => ⟨#v[0, 0, 0]⟩, fun _ => 0, fun _ => 0⟩
    ⟨some ⟨0, 4, #v[10, 0, 0, 1], #v[10, 0, 0, 2]⟩, some ⟨27015, 27005⟩, none⟩
  simp only [packetLoopHandler, if_true, handleGamePacket_absent] at returned
  cases returned

end Sniffles.CaptureCallback
