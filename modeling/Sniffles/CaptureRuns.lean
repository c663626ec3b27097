import Sniffles.PacketCalls
import Sniffles.Foundations.HeapBlocks

/-!
# Runs of the capture loop

`sniff_loop` calls `packet_loop_handler` on every captured PDU until it returns false. Here
the callback works on an explicit heap: the copy of the payload, the key schedule, the
decrypted copy and the unwrapped packet are blocks that are allocated, read through their
addresses and released where the source releases them. `ReadPacket` is called with the
bytes that its argument points to at that moment. It may fail to come back, and then
nothing behind the call is done.

The vector and the key release their blocks at the end of the scope. The decrypted copy is
released only on the way to `ReadPacket`, so every game datagram that does not wrap a
packet leaves one block behind.
-/

namespace Sniffles.CaptureCallback

open BitSequences MachineIntegers CheckedMemory BlockMode HeapBlocks ReadPacket

/-- A block of bytes or the memory of a key schedule. -/
inductive Block where
  | bytes (cells : List Byte)
  | subkeys (keys : List IceSubkey)
  deriving DecidableEq

/-- The bytes of a block. A key schedule is never read as such. -/
def Block.cells : Block → List Byte
  | .bytes cells => cells
  | .subkeys _ => []

@[simp] theorem bytes_cells (cells : List Byte) : (Block.bytes cells).cells = cells := rfl

/-- The schedule memory of a key. -/
def schedule (ice : IceKey) : List IceSubkey := (List.range ice.rounds).map ice.keysched

/-- The schedule memory as the destructor leaves it. -/
def clearedSchedule (ice : IceKey) : List IceSubkey := List.replicate ice.rounds ⟨#v[0#32, 0#32, 0#32]⟩

/-- The decryption of one block into another. -/
def decryptOnHeap (ice : IceKey) (payload pDataOut : Nat) : HeapM Block Unit := do
  let pData ← load payload
  let out ← load pDataOut
  let copy ← check (decryptPayload ice pData.cells out.cells)
  store pDataOut (.bytes copy)

/-- What a recorded call of `ReadPacket` prints; nothing if there is none. -/
def printedBy (readPacket : List Byte → Int → Checked (List NetMessage)) :
    Option (List Byte × Int) → Checked (List NetMessage)
  | none => .ok []
  | some call => readPacket call.1 call.2

section Handler

variable (readPacket : List Byte → Int → Checked (List NetMessage))

/-- `malloc`, `memcpy`, `free(pDataOut)`, `ReadPacket` and `free(packetData)`: the arguments
    of the call and what it prints. -/
def readPacketOnHeap (packetMemory : Nat → Byte) (pDataOut offset dataFinalSize : Nat) :
    HeapM Block ((List Byte × Int) × List NetMessage) := do
  let packetData ← malloc (.bytes (allocate packetMemory dataFinalSize))
  let data ← load pDataOut
  let copied ← check (readRange data.cells offset dataFinalSize)
  let target ← load packetData
  let written ← check (writeRange target.cells 0 copied)
  store packetData (.bytes written)
  free pDataOut
  let packet ← load packetData
  let printed ← check (readPacket packet.cells (int32 dataFinalSize))
  free packetData
  pure ((packet.cells, int32 dataFinalSize), printed)

/-- From `deltaOffset` to the call of `ReadPacket`: the lines, the call and what it prints. -/
def unwrapOnHeap (packetMemory : Nat → Byte) (pDataOut size : Nat) :
    HeapM Block ((List String × Option (List Byte × Int)) × List NetMessage) := do
  let data ← load pDataOut
  let deltaOffset ← check (readCell data.cells 0)
  if deltaOffset.toNat > 0 ∧ uint32 (deltaOffset.toNat + 5) < size then do
    let stored ← check (readVector 4 data.cells (deltaOffset.toNat + 1))
    let dataFinalSize := byteswapUlong (loadUlong stored)
    let lines := [deltaOffsetLine deltaOffset, dataFinalSizeLine dataFinalSize]
    if uint32 (dataFinalSize.toNat + deltaOffset.toNat + 5) = size then do
      let result ← readPacketOnHeap readPacket packetMemory pDataOut (deltaOffset.toNat + 5)
        dataFinalSize.toNat
      pure ((lines, some result.1), result.2)
    else pure ((lines, none), [])
  else pure (([deltaOffsetLine deltaOffset], none), [])

/-- The end of the scope: the key clears and releases its schedule, the vector its block. -/
def leaveScope (ice : IceKey) (keysched payload : Nat) : HeapM Block Unit := do
  store keysched (.subkeys (clearedSchedule ice))
  free keysched
  free payload

/-- The body of the branch for source port 27015: what the handler does, and what
    `ReadPacket` prints for it. -/
def handleGamePacketOnHeap (fresh : FreshMemory) (ip : IP) (udp : UDP) (found : Option RawPDU) :
    HeapM Block (Handled × List NetMessage) := do
  let raw ← check (dereference found)
  let payload ← malloc (.bytes raw.payload)
  let size := raw.payload.length
  let keysched ← malloc (.subkeys (schedule (IceKey.create 2 gameLevel_fits fresh.keysched)))
  let ice := gameKey fresh.keysched
  store keysched (.subkeys (schedule ice))
  let pDataOut ← malloc (.bytes (allocate fresh.pDataOut size))
  decryptOnHeap ice payload pDataOut
  let result ← unwrapOnHeap readPacket fresh.packetData pDataOut size
  leaveScope ice keysched payload
  pure (⟨banner ip udp ++ [payloadSizeLine size] ++ result.1.1, result.1.2, true⟩, result.2)

def packetLoopHandlerOnHeap (fresh : FreshMemory) (eth : PDU) :
    HeapM Block (Handled × List NetMessage) :=
  match eth.ip with
  | none => pure (⟨[], none, true⟩, [])
  | some ip =>
    match eth.udp with
    | none => pure (⟨[], none, true⟩, [])
    | some udp =>
      if udp.sport = 27015 then handleGamePacketOnHeap readPacket fresh ip udp eth.raw
      else pure (⟨[], none, true⟩, [])

end Handler

/-- A captured PDU, with the contents of the memory and of the stack that its call of the
    handler is given. -/
structure Captured where
  fresh : FreshMemory
  stack : StackMemory
  eth : PDU

/-- `sniff_loop` over the captured PDUs. -/
def sniffLoop (reader : TagReader) (tests turns : Nat) :
    List Captured → HeapM Block (List (Handled × List NetMessage))
  | [] => pure []
  | entry :: captured => do
    let handled ← packetLoopHandlerOnHeap (callReadPacket reader tests turns entry.stack)
      entry.fresh entry.eth
    if handled.1.returned then do
      let others ← sniffLoop reader tests turns captured
      pure (handled :: others)
    else pure [handled]

/-- The decrypted copy, if the payload is decrypted. -/
def decryptedCopy (fresh : FreshMemory) (raw : RawPDU) : List Block :=
  (decryptPayload (gameKey fresh.keysched) raw.payload
    (allocate fresh.pDataOut raw.payload.length)).toOption.toList.map .bytes

/-- The payload layer of a game datagram. -/
def gamePayload (eth : PDU) : Option RawPDU :=
  match eth.ip, eth.udp with
  | some _, some udp => if udp.sport = 27015 then eth.raw else none
  | _, _ => none

/-- The block that a call leaves behind: the decrypted copy of a game datagram that is not
    handed to `ReadPacket`. -/
def leftBehind (fresh : FreshMemory) (eth : PDU) : List Block :=
  match gamePayload eth, packetLoopHandler fresh eth with
  | some raw, .ok handled => if handled.readPacket = none then decryptedCopy fresh raw else []
  | _, _ => []

section Calls

variable {heap : Heap Block} {cells : List (Option Block)} {index : Nat} {data : List Byte}
  {readPacket : List Byte → Int → Checked (List NetMessage)}

/-- The cells that unwrapping leaves: both blocks are gone if `ReadPacket` was called. -/
def unwrappedCells (cells : List (Option Block)) (index : Nat) (called : Bool) :
    List (Option Block) :=
  if called then cells.set index none ++ [none] else cells

/-- The packet is copied to a block of its own and the decrypted copy released; then
    `ReadPacket` is called. -/
theorem readPacketOnHeap_called (packetMemory : Nat → Byte) (offset dataFinalSize : Nat)
    {copied written : List Byte} (stored : cells[index]? = some (some (.bytes data)))
    (read : readRange data offset dataFinalSize = .ok copied)
    (wrote : writeRange (allocate packetMemory dataFinalSize) 0 copied = .ok written) :
    (readPacketOnHeap readPacket packetMemory (heap.blocks.length + index) offset
        dataFinalSize).run (heap.grow cells) =
      (check (readPacket written (int32 dataFinalSize)) >>= fun printed =>
        free (heap.blocks.length + cells.length) >>= fun _ =>
          pure ((written, int32 dataFinalSize), printed)).run
        (heap.grow (cells.set index none ++ [some (.bytes written)])) := by
  have inside : index < cells.length := (List.getElem?_eq_some_iff.mp stored).1
  have kept : (cells ++ [some (Block.bytes (allocate packetMemory dataFinalSize))])[index]? =
      some (some (.bytes data)) := by
    rw [List.getElem?_append_left inside, stored]
  have length : (cells.set index none).length = cells.length := List.length_set
  have last (block : Block) :
      (cells.set index none ++ [some block])[cells.length]? = some (some block) := by
    rw [← length]
    exact List.getElem?_concat_length
  rw [readPacketOnHeap, run_bind (run_malloc heap cells _), run_bind (run_load kept),
    bytes_cells, run_bind (run_check read _), run_bind (run_load List.getElem?_concat_length),
    bytes_cells, run_bind (run_check wrote _), run_bind (run_store List.getElem?_concat_length _),
    List.set_append_right _ _ (Nat.le_refl _), Nat.sub_self, List.set_cons_zero]
  have stillKept : (cells ++ [some (Block.bytes written)])[index]? = some (some (.bytes data)) := by
    rw [List.getElem?_append_left inside, stored]
  rw [run_bind (run_free stillKept), List.set_append_left _ _ inside,
    run_bind (run_load (last _)), bytes_cells]

/-- If `ReadPacket` comes back, both blocks are released. -/
theorem readPacketOnHeap_run (packetMemory : Nat → Byte) (offset dataFinalSize : Nat)
    {copied written : List Byte} {printed : List NetMessage}
    (stored : cells[index]? = some (some (.bytes data)))
    (read : readRange data offset dataFinalSize = .ok copied)
    (wrote : writeRange (allocate packetMemory dataFinalSize) 0 copied = .ok written)
    (shown : readPacket written (int32 dataFinalSize) = .ok printed) :
    (readPacketOnHeap readPacket packetMemory (heap.blocks.length + index) offset
        dataFinalSize).run (heap.grow cells) =
      .ok (((written, int32 dataFinalSize), printed),
        heap.grow (unwrappedCells cells index true)) := by
  have length : (cells.set index none).length = cells.length := List.length_set
  have last : (cells.set index none ++ [some (Block.bytes written)])[cells.length]? =
      some (some (.bytes written)) := by
    rw [← length]
    exact List.getElem?_concat_length
  rw [readPacketOnHeap_called packetMemory offset dataFinalSize stored read wrote,
    run_bind (run_check shown _), run_bind (run_free last),
    List.set_append_right _ _ (Nat.le_of_eq length), length, Nat.sub_self, List.set_cons_zero]
  rfl

/-- Unwrapping on the heap gives what it gives on the buffer alone, and what `ReadPacket`
    prints. If `ReadPacket` does not come back, neither does the unwrapping. -/
theorem unwrapOnHeap_run (packetMemory : Nat → Byte) (size : Nat) {lines : List String}
    {call : Option (List Byte × Int)} (stored : cells[index]? = some (some (.bytes data)))
    (returned : unwrapPacket packetMemory data size = .ok (lines, call)) :
    (∀ printed, printedBy readPacket call = .ok printed →
      (unwrapOnHeap readPacket packetMemory (heap.blocks.length + index) size).run
          (heap.grow cells) =
        .ok (((lines, call), printed), heap.grow (unwrappedCells cells index call.isSome))) ∧
      ∀ fault, printedBy readPacket call = .error fault →
        (unwrapOnHeap readPacket packetMemory (heap.blocks.length + index) size).run
          (heap.grow cells) = .error (.access fault) := by
  rw [unwrapPacket] at returned
  obtain ⟨deltaOffset, first, returned⟩ := bind_returned returned
  rw [unwrapOnHeap, run_bind (run_load stored), bytes_cells, run_bind (run_check first _)]
  split at returned
  case isTrue room =>
    obtain ⟨word, second, returned⟩ := bind_returned returned
    rw [if_pos room, run_bind (run_check second _)]
    dsimp only at returned ⊢
    split at returned
    case isTrue fits =>
      obtain ⟨copied, read, returned⟩ := bind_returned returned
      obtain ⟨written, wrote, returned⟩ := bind_returned returned
      cases returned
      rw [if_pos fits]
      refine ⟨fun printed shown => ?_, fun fault failed => ?_⟩
      · rw [printedBy] at shown
        rw [run_bind (readPacketOnHeap_run packetMemory _ _ stored read wrote shown)]
        rfl
      · rw [printedBy] at failed
        have calls := @readPacketOnHeap_called heap cells index data readPacket packetMemory
          _ _ _ _ stored read wrote
        exact run_fault (calls.trans (run_fault (check_fault failed _)))
    case isFalse misfit =>
      cases returned
      rw [if_neg misfit]
      exact ⟨fun printed shown => by cases shown; rfl, fun fault failed => by cases failed⟩
  case isFalse short =>
    cases returned
    rw [if_neg short]
    exact ⟨fun printed shown => by cases shown; rfl, fun fault failed => by cases failed⟩

/-- The decrypted copy takes the place of the fresh block. -/
theorem decryptOnHeap_run (ice : IceKey) {payload : Nat} {pData copy : List Byte}
    (source : cells[payload]? = some (some (.bytes pData)))
    (target : cells[index]? = some (some (.bytes data)))
    (decrypted : decryptPayload ice pData data = .ok copy) :
    (decryptOnHeap ice (heap.blocks.length + payload) (heap.blocks.length + index)).run
        (heap.grow cells) = .ok ((), heap.grow (cells.set index (some (.bytes copy)))) := by
  rw [decryptOnHeap, run_bind (run_load source), run_bind (run_load target), bytes_cells, bytes_cells,
    run_bind (run_check decrypted _), run_store target]

end Calls

section Scope

variable (readPacket : List Byte → Int → Checked (List NetMessage)) (fresh : FreshMemory)
  (ip : IP) (udp : UDP) (heap : Heap Block)

/-- The first three blocks of a call: the vector, the schedule and the decrypted copy. -/
def scopeCells (fresh : FreshMemory) (payload copy : List Byte) : List (Option Block) :=
  [some (.bytes payload), some (.subkeys (schedule (gameKey fresh.keysched))), some (.bytes copy)]

/-- Up to the unwrapping, a call allocates these blocks and fills them. -/
theorem handleGamePacketOnHeap_decrypted (raw : RawPDU) {copy : List Byte}
    (decrypted : decryptPayload (gameKey fresh.keysched) raw.payload
      (allocate fresh.pDataOut raw.payload.length) = .ok copy) :
    (handleGamePacketOnHeap readPacket fresh ip udp (some raw)).run heap =
      (unwrapOnHeap readPacket fresh.packetData (heap.blocks.length + 2)
          raw.payload.length >>= fun result =>
        leaveScope (gameKey fresh.keysched) (heap.blocks.length + 1) heap.blocks.length >>= fun _ =>
          pure (⟨banner ip udp ++ [payloadSizeLine raw.payload.length] ++ result.1.1, result.1.2,
            true⟩, result.2)).run
        (heap.grow (scopeCells fresh raw.payload copy)) := by
  have first : (malloc (Block.bytes raw.payload)).run heap =
      .ok (heap.blocks.length, heap.grow [some (.bytes raw.payload)]) := by
    have allocated := run_malloc heap [] (Block.bytes raw.payload)
    rw [grow_nil] at allocated
    exact allocated
  have second (keys : List IceSubkey) :
      (malloc (Block.subkeys keys)).run (heap.grow [some (.bytes raw.payload)]) =
        .ok (heap.blocks.length + 1, heap.grow [some (.bytes raw.payload), some (.subkeys keys)]) :=
    run_malloc heap _ _
  have scheduled (keys other : List IceSubkey) :
      (store (heap.blocks.length + 1) (Block.subkeys other)).run
          (heap.grow [some (.bytes raw.payload), some (.subkeys keys)]) =
        .ok ((), heap.grow [some (.bytes raw.payload), some (.subkeys other)]) :=
    run_store rfl _
  have third (keys : List IceSubkey) (cells : List Byte) :
      (malloc (Block.bytes cells)).run
          (heap.grow [some (.bytes raw.payload), some (.subkeys keys)]) =
        .ok (heap.blocks.length + 2,
          heap.grow [some (.bytes raw.payload), some (.subkeys keys), some (.bytes cells)]) :=
    run_malloc heap _ _
  have copied :
      (decryptOnHeap (gameKey fresh.keysched) (heap.blocks.length + 0)
          (heap.blocks.length + 2)).run
        (heap.grow (scopeCells fresh raw.payload
          (allocate fresh.pDataOut raw.payload.length))) =
        .ok ((), heap.grow (scopeCells fresh raw.payload copy)) :=
    decryptOnHeap_run _ rfl rfl decrypted
  rw [Nat.add_zero] at copied
  have present : dereference (some raw) = .ok raw := rfl
  rw [handleGamePacketOnHeap, run_bind (run_check present heap), run_bind first,
    run_bind (second _)]
  dsimp only
  rw [run_bind (scheduled _ _), run_bind (third _ _)]
  exact run_bind copied

/-- The end of the scope releases the schedule and the vector, whatever stands behind. -/
theorem leaveScope_run (ice : IceKey) (payload : List Byte) (keys : List IceSubkey)
    (rest : List (Option Block)) :
    (leaveScope ice (heap.blocks.length + 1) heap.blocks.length).run
        (heap.grow (some (.bytes payload) :: some (.subkeys keys) :: rest)) =
      .ok ((), heap.grow (none :: none :: rest)) := by
  have cleared (other : List IceSubkey) :
      (store (heap.blocks.length + 1) (Block.subkeys other)).run
          (heap.grow (some (.bytes payload) :: some (.subkeys keys) :: rest)) =
        .ok ((), heap.grow (some (.bytes payload) :: some (.subkeys other) :: rest)) :=
    run_store rfl _
  have keyFreed (other : List IceSubkey) :
      (free (heap.blocks.length + 1)).run
          (heap.grow (some (.bytes payload) :: some (.subkeys other) :: rest)) =
        .ok ((), heap.grow (some (.bytes payload) :: none :: rest)) :=
    run_free rfl
  have vectorFreed :
      (free (heap.blocks.length + 0)).run
          (heap.grow (some (Block.bytes payload) :: none :: rest)) =
        .ok ((), heap.grow (none :: none :: rest)) :=
    run_free rfl
  rw [leaveScope, run_bind (cleared _), run_bind (keyFreed _)]
  exact vectorFreed

/-- The cells of a call for a game datagram: the vector and the key are gone, and the
    decrypted copy with them only if `ReadPacket` was called. -/
def calledCells (copy : List Byte) (called : Bool) : List (Option Block) :=
  none :: none :: if called then [none, none] else [some (.bytes copy)]

theorem calledCells_left (copy : List Byte) (call : Option (List Byte × Int)) :
    (calledCells copy call.isSome).reduceOption = if call = none then [.bytes copy] else [] := by
  cases call <;> rfl

theorem decryptedCopy_found (raw : RawPDU) {copy : List Byte}
    (decrypted : decryptPayload (gameKey fresh.keysched) raw.payload
      (allocate fresh.pDataOut raw.payload.length) = .ok copy) :
    decryptedCopy fresh raw = [.bytes copy] := by
  rw [decryptedCopy, decrypted]
  rfl

/-- The steps of a call that returns: what is decrypted and unwrapped, and what the handler
    makes of it. -/
theorem handleGamePacket_steps {found : Option RawPDU} {handled : Handled}
    (returned : handleGamePacket fresh (gameKey fresh.keysched) ip udp found = .ok handled) :
    ∃ raw copy lines call, found = some raw ∧
      decryptPayload (gameKey fresh.keysched) raw.payload
        (allocate fresh.pDataOut raw.payload.length) = .ok copy ∧
      unwrapPacket fresh.packetData copy raw.payload.length = .ok (lines, call) ∧
      handled = ⟨banner ip udp ++ [payloadSizeLine raw.payload.length] ++ lines, call, true⟩ := by
  rw [handleGamePacket] at returned
  obtain ⟨raw, present, returned⟩ := bind_returned returned
  obtain ⟨copy, decrypted, returned⟩ := bind_returned returned
  obtain ⟨⟨lines, call⟩, unwrapped, returned⟩ := bind_returned returned
  cases returned
  have same : found = some raw := by
    cases found with
    | none => cases present
    | some other =>
      cases present
      rfl
  exact ⟨raw, copy, lines, call, same, decrypted, unwrapped, rfl⟩

/-- A call that returns does the same on the heap, if `ReadPacket` comes back. If it does
    not, neither does the handler. -/
theorem handleGamePacketOnHeap_run {found : Option RawPDU} {handled : Handled}
    (returned : handleGamePacket fresh (gameKey fresh.keysched) ip udp found = .ok handled) :
    handled.returned = true ∧ ∃ raw copy, found = some raw ∧
      decryptPayload (gameKey fresh.keysched) raw.payload
        (allocate fresh.pDataOut raw.payload.length) = .ok copy ∧
      (∀ printed, printedBy readPacket handled.readPacket = .ok printed →
        (handleGamePacketOnHeap readPacket fresh ip udp found).run heap =
          .ok ((handled, printed), heap.grow (calledCells copy handled.readPacket.isSome))) ∧
      ∀ fault, printedBy readPacket handled.readPacket = .error fault →
        (handleGamePacketOnHeap readPacket fresh ip udp found).run heap =
          .error (.access fault) := by
  obtain ⟨raw, copy, lines, call, rfl, decrypted, unwrapped, rfl⟩ :=
    handleGamePacket_steps fresh ip udp returned
  have stored : (scopeCells fresh raw.payload copy)[2]? = some (some (Block.bytes copy)) := rfl
  obtain ⟨back, stuck⟩ := @unwrapOnHeap_run heap _ 2 copy readPacket fresh.packetData
    raw.payload.length _ _ stored unwrapped
  refine ⟨rfl, raw, copy, rfl, decrypted, fun printed shown => ?_, fun fault failed => ?_⟩
  · rw [handleGamePacketOnHeap_decrypted readPacket fresh ip udp heap raw decrypted,
      run_bind (back printed shown)]
    cases call with
    | none =>
      have left := leaveScope_run heap (gameKey fresh.keysched) raw.payload
        (schedule (gameKey fresh.keysched)) [some (Block.bytes copy)]
      exact run_bind left
    | some packet =>
      have left := leaveScope_run heap (gameKey fresh.keysched) raw.payload
        (schedule (gameKey fresh.keysched)) [none, none]
      exact run_bind left
  · rw [handleGamePacketOnHeap_decrypted readPacket fresh ip udp heap raw decrypted]
    exact run_fault (stuck fault failed)

/-- Nothing is decrypted to nothing. -/
theorem decryptPayload_empty (ice : IceKey) (memory : Nat → Byte) :
    decryptPayload ice [] (allocate memory 0) = .ok [] := by
  rw [decryptPayload_cleartext ice [] _ (by simp) (by decide), cleartext,
    mapBlocks_short _ _ (by decide)]

/-- Without a payload layer the null pointer is followed before anything is allocated. -/
theorem handleGamePacketOnHeap_absent :
    (handleGamePacketOnHeap readPacket fresh ip udp none).run heap =
      .error (.access .nullDereference) := by
  rw [handleGamePacketOnHeap]
  exact run_fault (check_fault rfl heap)

/-- With an empty payload the first byte of the empty copy is read. -/
theorem handleGamePacketOnHeap_empty (raw : RawPDU) (empty : raw.payload = []) :
    (handleGamePacketOnHeap readPacket fresh ip udp (some raw)).run heap =
      .error (.access .outOfBounds) := by
  have decrypted : decryptPayload (gameKey fresh.keysched) raw.payload
      (allocate fresh.pDataOut raw.payload.length) = .ok [] := by
    rw [empty]
    exact decryptPayload_empty _ _
  have stored : (scopeCells fresh raw.payload [])[2]? = some (some (Block.bytes [])) := rfl
  have unwrapped : (unwrapOnHeap readPacket fresh.packetData (heap.blocks.length + 2)
      raw.payload.length).run (heap.grow (scopeCells fresh raw.payload [])) =
        .error (.access .outOfBounds) := by
    rw [unwrapOnHeap, run_bind (run_load stored), bytes_cells]
    exact run_fault (check_fault (readCell_empty 0) _)
  rw [handleGamePacketOnHeap_decrypted readPacket fresh ip udp heap raw decrypted]
  exact run_fault unwrapped

end Scope

/-- A game datagram must bring a payload layer with at least one byte. -/
def HasPayload (eth : PDU) : Prop :=
  ∀ ip udp, eth.ip = some ip → eth.udp = some udp → udp.sport = 27015 →
    ∃ raw, eth.raw = some raw ∧ raw.payload ≠ []

section Steps

variable (readPacket : List Byte → Int → Checked (List NetMessage)) (fresh : FreshMemory)
  (eth : PDU) (heap : Heap Block)

/-- One call on a PDU that brings what it must: if `ReadPacket` comes back, the handler
    returns on the heap what it returns without one, the blocks that were there are as
    before, and the call leaves exactly its decrypted copy if it had no packet to read.
    If not, the call does not come back either. -/
theorem packetLoopHandlerOnHeap_run (present : HasPayload eth) :
    ∃ handled, packetLoopHandler fresh eth = .ok handled ∧ handled.returned = true ∧
      (∀ printed, printedBy readPacket handled.readPacket = .ok printed →
        ∃ cells, (packetLoopHandlerOnHeap readPacket fresh eth).run heap =
            .ok ((handled, printed), heap.grow cells) ∧
          cells.reduceOption = leftBehind fresh eth) ∧
      ∀ fault, printedBy readPacket handled.readPacket = .error fault →
        (packetLoopHandlerOnHeap readPacket fresh eth).run heap = .error (.access fault) := by
  have passed (other : ∀ ip udp, eth.ip = some ip → eth.udp = some udp → udp.sport ≠ 27015) :
      gamePayload eth = none ∧ (packetLoopHandlerOnHeap readPacket fresh eth).run heap =
        .ok ((⟨[], none, true⟩, []), heap.grow []) := by
    rw [grow_nil]
    unfold packetLoopHandlerOnHeap gamePayload
    cases network : eth.ip with
    | none => exact ⟨rfl, rfl⟩
    | some ip =>
      cases transport : eth.udp with
      | none => exact ⟨rfl, rfl⟩
      | some udp =>
        simp only [if_neg (other ip udp network transport)]
        exact ⟨trivial, rfl⟩
  by_cases game : ∃ ip udp, eth.ip = some ip ∧ eth.udp = some udp ∧ udp.sport = 27015
  case neg =>
    have other : ∀ ip udp, eth.ip = some ip → eth.udp = some udp → udp.sport ≠ 27015 := by
      intro ip udp network transport port
      exact game ⟨ip, udp, network, transport, port⟩
    refine ⟨_, handler_other fresh eth other, rfl, fun printed shown => ?_, fun fault failed => ?_⟩
    · cases shown
      refine ⟨[], (passed other).2, ?_⟩
      rw [leftBehind, (passed other).1]
      rfl
    · cases failed
  case pos =>
    obtain ⟨ip, udp, network, transport, port⟩ := game
    have branch : packetLoopHandler fresh eth =
        handleGamePacket fresh (gameKey fresh.keysched) ip udp eth.raw := by
      simp only [packetLoopHandler, network, transport, if_pos port]
    have heapBranch : packetLoopHandlerOnHeap readPacket fresh eth =
        handleGamePacketOnHeap readPacket fresh ip udp eth.raw := by
      simp only [packetLoopHandlerOnHeap, network, transport, if_pos port]
    have payload : gamePayload eth = eth.raw := by
      simp only [gamePayload, network, transport, if_pos port]
    obtain ⟨handled, returned⟩ := (handleGamePacket_safe fresh (gameKey fresh.keysched) ip udp
      eth.raw).mpr (present ip udp network transport port)
    obtain ⟨again, raw, copy, found, decrypted, back, stuck⟩ :=
      handleGamePacketOnHeap_run readPacket fresh ip udp heap returned
    refine ⟨handled, branch.trans returned, again, fun printed shown => ?_, fun fault failed => ?_⟩
    · have heapRun := (congrArg (fun call => call.run heap) heapBranch).trans (back printed shown)
      refine ⟨_, heapRun, ?_⟩
      have left : leftBehind fresh eth =
          if handled.readPacket = none then decryptedCopy fresh raw else [] := by
        simp only [leftBehind, payload, found, branch.trans returned]
      rw [left, calledCells_left, decryptedCopy_found fresh raw decrypted]
    · rw [heapBranch]
      exact stuck fault failed

/-- On any other PDU the call ends in a fault of an access, not of an address. -/
theorem packetLoopHandlerOnHeap_fault (missing : ¬ HasPayload eth) :
    ∃ fault, (packetLoopHandlerOnHeap readPacket fresh eth).run heap =
      .error (.access fault) := by
  rw [HasPayload] at missing
  push Not at missing
  obtain ⟨ip, udp, network, transport, port, lacks⟩ := missing
  have heapBranch : packetLoopHandlerOnHeap readPacket fresh eth =
      handleGamePacketOnHeap readPacket fresh ip udp eth.raw := by
    simp only [packetLoopHandlerOnHeap, network, transport, if_pos port]
  rw [heapBranch]
  cases found : eth.raw with
  | none => exact ⟨_, handleGamePacketOnHeap_absent readPacket fresh ip udp heap⟩
  | some raw =>
    exact ⟨_, handleGamePacketOnHeap_empty readPacket fresh ip udp heap raw (lacks raw found)⟩

end Steps

/-- A captured PDU is handled to its end if it brings a payload where it must and
    `ReadPacket` comes back for the packet that it carries. -/
structure Completes (reader : TagReader) (tests turns : Nat) (entry : Captured) : Prop where
  payload : HasPayload entry.eth
  returns : ∀ raw packet, gamePayload entry.eth = some raw →
    Carries (gameKey entry.fresh.keysched) raw.payload packet →
      Safe (callReadPacket reader tests turns entry.stack packet packet.length)

/-- The result of the handler, and what `ReadPacket` prints for it. -/
def HandledAs (reader : TagReader) (tests turns : Nat) (entry : Captured)
    (result : Handled × List NetMessage) : Prop :=
  packetLoopHandler entry.fresh entry.eth = .ok result.1 ∧
    printedBy (callReadPacket reader tests turns entry.stack) result.1.readPacket = .ok result.2

/-- The `int` sizes of the payloads are not negative. -/
def Measured (eth : PDU) : Prop := ∀ raw, eth.raw = some raw → raw.payload.length < 2147483648

/-- The layers of a game datagram. -/
theorem gamePayload_some {eth : PDU} {raw : RawPDU} (game : gamePayload eth = some raw) :
    ∃ ip udp, eth.ip = some ip ∧ eth.udp = some udp ∧ udp.sport = 27015 ∧ eth.raw = some raw := by
  unfold gamePayload at game
  split at game
  case h_1 ip udp network transport =>
    split at game
    case isTrue port => exact ⟨ip, udp, network, transport, port, game⟩
    case isFalse => cases game
  case h_2 => cases game

/-- The handler calls `ReadPacket` exactly for the packet that a game datagram carries. -/
theorem packetLoopHandler_calls (fresh : FreshMemory) (eth : PDU) (handled : Handled)
    (present : HasPayload eth) (measured : Measured eth)
    (returned : packetLoopHandler fresh eth = .ok handled) (packet : List Byte) (size : Int) :
    handled.readPacket = some (packet, size) ↔ size = packet.length ∧
      ∃ raw, gamePayload eth = some raw ∧ Carries (gameKey fresh.keysched) raw.payload packet := by
  by_cases game : ∃ ip udp, eth.ip = some ip ∧ eth.udp = some udp ∧ udp.sport = 27015
  case pos =>
    obtain ⟨ip, udp, network, transport, port⟩ := game
    obtain ⟨raw, found, nonempty⟩ := present ip udp network transport port
    have payload : gamePayload eth = some raw := by
      simp only [gamePayload, network, transport, if_pos port, found]
    obtain ⟨other, handledThere, called⟩ := handleGamePacket_carries fresh
      (gameKey fresh.keysched) ip udp raw nonempty (measured raw found)
    have same : other = handled := by
      simp only [packetLoopHandler, network, transport, if_pos port, found, handledThere] at returned
      exact Except.ok.inj returned
    rw [← same, called, payload]
    constructor
    · rintro ⟨length, carries⟩
      exact ⟨length, raw, rfl, carries⟩
    · rintro ⟨length, carrier, found, carries⟩
      obtain rfl := Option.some.inj found
      exact ⟨length, carries⟩
  case neg =>
    have other : ∀ ip udp, eth.ip = some ip → eth.udp = some udp → udp.sport ≠ 27015 := by
      intro ip udp network transport port
      exact game ⟨ip, udp, network, transport, port⟩
    rw [handler_other fresh eth other] at returned
    cases returned
    constructor
    · intro call
      cases call
    · rintro ⟨-, raw, payload, -⟩
      obtain ⟨ip, udp, network, transport, port, -⟩ := gamePayload_some payload
      exact absurd ⟨ip, udp, network, transport, port⟩ game

section Runs

variable (reader : TagReader) (tests turns : Nat)

/-- Where `ReadPacket` comes back for what a PDU carries, it does so for what the handler
    calls it with. -/
theorem completes_printed (entry : Captured) (measured : Measured entry.eth)
    (present : HasPayload entry.eth) (handled : Handled)
    (returned : packetLoopHandler entry.fresh entry.eth = .ok handled) :
    Completes reader tests turns entry ↔
      Safe (printedBy (callReadPacket reader tests turns entry.stack) handled.readPacket) := by
  have calls := packetLoopHandler_calls entry.fresh entry.eth handled present measured returned
  constructor
  · intro completes
    cases call : handled.readPacket with
    | none => exact ⟨[], rfl⟩
    | some packet =>
      obtain ⟨size, raw, game, carries⟩ := (calls packet.1 packet.2).mp call
      have back := completes.returns raw packet.1 game carries
      rw [← size] at back
      exact back
  · intro back
    refine ⟨present, fun raw packet game carries => ?_⟩
    rw [(calls packet packet.length).mpr ⟨rfl, raw, game, carries⟩] at back
    exact back

/-- A capture whose PDUs complete is handled to its end. -/
theorem sniffLoop_run (captured : List Captured)
    (measured : ∀ entry ∈ captured, Measured entry.eth)
    (complete : ∀ entry ∈ captured, Completes reader tests turns entry) (heap : Heap Block) :
    ∃ results cells, (sniffLoop reader tests turns captured).run heap =
        .ok (results, heap.grow cells) ∧
      List.Forall₂ (HandledAs reader tests turns) captured results ∧
      cells.reduceOption = captured.flatMap fun entry => leftBehind entry.fresh entry.eth := by
  induction captured generalizing heap with
  | nil =>
    refine ⟨[], [], ?_, .nil, rfl⟩
    rw [grow_nil]
    rfl
  | cons entry captured inductionHypothesis =>
    obtain ⟨sized, sizes⟩ := List.forall_mem_cons.mp measured
    obtain ⟨completes, others⟩ := List.forall_mem_cons.mp complete
    obtain ⟨handled, returned, again, back, -⟩ := packetLoopHandlerOnHeap_run
      (callReadPacket reader tests turns entry.stack) entry.fresh entry.eth heap completes.payload
    obtain ⟨printed, shown⟩ := (completes_printed reader tests turns entry sized
      completes.payload handled returned).mp completes
    obtain ⟨cells, run, left⟩ := back printed shown
    obtain ⟨results, more, rest, handledRest, leftRest⟩ :=
      inductionHypothesis sizes others (heap.grow cells)
    refine ⟨(handled, printed) :: results, cells ++ more, ?_,
      .cons ⟨returned, shown⟩ handledRest, ?_⟩
    · rw [sniffLoop, run_bind run, if_pos again, run_bind rest, grow_grow]
      rfl
    · rw [List.reduceOption_append, List.flatMap_cons, left, leftRest]

/-- One PDU that does not complete ends the run in a fault of an access. -/
theorem sniffLoop_fault (captured : List Captured)
    (measured : ∀ entry ∈ captured, Measured entry.eth)
    (missing : ∃ entry ∈ captured, ¬ Completes reader tests turns entry) (heap : Heap Block) :
    ∃ fault, (sniffLoop reader tests turns captured).run heap = .error (.access fault) := by
  induction captured generalizing heap with
  | nil => simp at missing
  | cons entry captured inductionHypothesis =>
    obtain ⟨sized, sizes⟩ := List.forall_mem_cons.mp measured
    by_cases present : HasPayload entry.eth
    case neg =>
      obtain ⟨fault, run⟩ := packetLoopHandlerOnHeap_fault
        (callReadPacket reader tests turns entry.stack) entry.fresh entry.eth heap present
      exact ⟨fault, run_fault run⟩
    case pos =>
      obtain ⟨handled, returned, again, back, stuck⟩ := packetLoopHandlerOnHeap_run
        (callReadPacket reader tests turns entry.stack) entry.fresh entry.eth heap present
      have completes := completes_printed reader tests turns entry sized present handled returned
      cases shown : printedBy (callReadPacket reader tests turns entry.stack)
          handled.readPacket with
      | error fault => exact ⟨fault, run_fault (stuck fault shown)⟩
      | ok printed =>
        have later : ∃ other ∈ captured, ¬ Completes reader tests turns other := by
          obtain ⟨other, among, lacks⟩ := missing
          cases among with
          | head => exact absurd (completes.mpr ⟨printed, shown⟩) lacks
          | tail _ among => exact ⟨other, among, lacks⟩
        obtain ⟨cells, run, -⟩ := back printed shown
        obtain ⟨fault, rest⟩ := inductionHypothesis sizes later (heap.grow cells)
        refine ⟨fault, ?_⟩
        rw [sniffLoop, run_bind run, if_pos again]
        exact run_fault rest

end Runs

open Classical in
/-- What a datagram should cost: nothing, unless it is a game datagram that carries no
    packet. The cleartext of such a one is never released. -/
noncomputable def unreadCleartext (fresh : FreshMemory) (eth : PDU) : List Block :=
  (gamePayload eth).toList.flatMap fun raw =>
    if ∃ packet, Carries (gameKey fresh.keysched) raw.payload packet then []
    else [.bytes (cleartext (gameKey fresh.keysched) raw.payload)]

theorem unreadCleartext_carried {fresh : FreshMemory} {eth : PDU} {raw : RawPDU}
    (game : gamePayload eth = some raw)
    (carries : ∃ packet, Carries (gameKey fresh.keysched) raw.payload packet) :
    unreadCleartext fresh eth = [] := by
  rw [unreadCleartext, game, Option.toList_some, List.flatMap_cons, List.flatMap_nil,
    if_pos carries]
  rfl

theorem unreadCleartext_unread {fresh : FreshMemory} {eth : PDU} {raw : RawPDU}
    (game : gamePayload eth = some raw)
    (unread : ¬ ∃ packet, Carries (gameKey fresh.keysched) raw.payload packet) :
    unreadCleartext fresh eth = [.bytes (cleartext (gameKey fresh.keysched) raw.payload)] := by
  rw [unreadCleartext, game, Option.toList_some, List.flatMap_cons, List.flatMap_nil,
    if_neg unread]
  rfl

/-- The block that the handler leaves behind is the cleartext that nothing reads. -/
theorem leftBehind_unread (fresh : FreshMemory) (eth : PDU) (present : HasPayload eth)
    (measured : Measured eth) : leftBehind fresh eth = unreadCleartext fresh eth := by
  cases game : gamePayload eth with
  | none => simp only [leftBehind, unreadCleartext, game, Option.toList_none, List.flatMap_nil]
  | some raw =>
    obtain ⟨ip, udp, network, transport, port, found⟩ := gamePayload_some game
    have short := measured raw found
    obtain ⟨handled, returned⟩ : Safe (packetLoopHandler fresh eth) := by
      simp only [packetLoopHandler, network, transport, if_pos port]
      exact (handleGamePacket_safe fresh _ ip udp eth.raw).mpr
        (present ip udp network transport port)
    have called := packetLoopHandler_calls fresh eth handled present measured returned
    have left : leftBehind fresh eth =
        if handled.readPacket = none then decryptedCopy fresh raw else [] := by
      simp only [leftBehind, game, returned]
    rw [left, decryptedCopy_found fresh raw
      (decryptPayload_cleartext _ _ _ (allocate_length _ _) short)]
    by_cases carries : ∃ packet, Carries (gameKey fresh.keysched) raw.payload packet
    case pos =>
      obtain ⟨packet, carried⟩ := carries
      have call := (called packet packet.length).mpr ⟨rfl, raw, game, carried⟩
      rw [if_neg (by rw [call]; exact Option.some_ne_none _),
        unreadCleartext_carried game ⟨packet, carried⟩]
    case neg =>
      have uncalled : handled.readPacket = none := by
        cases call : handled.readPacket with
        | none => rfl
        | some packet =>
          obtain ⟨-, other, same, carried⟩ := (called packet.1 packet.2).mp call
          obtain rfl := Option.some.inj (game.symm.trans same)
          exact absurd ⟨packet.1, carried⟩ carries
      rw [if_pos uncalled, unreadCleartext_unread game carries]

/-- A whole capture on a heap. If every game datagram brings a payload and `ReadPacket`
    comes back for each packet, each PDU is handled as it would be alone, no block is used
    after it was freed, the blocks that were there stay as they were, and exactly the
    cleartexts that carry no packet are still live in the end. One game datagram without a
    payload, or one packet for which `ReadPacket` does not come back, ends the run. The
    length bound says that an `int` can hold the payload sizes. -/
theorem capture_memory_exact (reader : TagReader) (tests turns : Nat) (captured : List Captured)
    (heap : Heap Block) (measured : ∀ entry ∈ captured, Measured entry.eth) :
    ((∀ entry ∈ captured, Completes reader tests turns entry) →
      ∃ results cells, (sniffLoop reader tests turns captured).run heap =
          .ok (results, heap.grow cells) ∧
        List.Forall₂ (HandledAs reader tests turns) captured results ∧
        (heap.grow cells).live =
          heap.live ++ captured.flatMap fun entry => unreadCleartext entry.fresh entry.eth) ∧
    ((∃ entry ∈ captured, ¬ Completes reader tests turns entry) →
      ∃ fault, (sniffLoop reader tests turns captured).run heap = .error (.access fault)) := by
  constructor
  · intro complete
    obtain ⟨results, cells, run, handled, left⟩ :=
      sniffLoop_run reader tests turns captured measured complete heap
    refine ⟨results, cells, run, handled, ?_⟩
    have unread : (captured.flatMap fun entry => leftBehind entry.fresh entry.eth) =
        captured.flatMap fun entry => unreadCleartext entry.fresh entry.eth := by
      refine List.flatMap_congr ?_
      intro entry among
      exact leftBehind_unread entry.fresh entry.eth (complete entry among).payload
        (measured entry among)
    rw [live_grow, left, unread]
  · intro missing
    exact sniffLoop_fault reader tests turns captured measured missing heap

/-- Two datagrams that are too short to be encrypted. The first one wraps a packet of one
    byte, the second one is a single zero byte, whose copy is never released. -/
theorem zero_byte_left_behind :
    ∃ results after, (sniffLoop .plain 1 1
        [⟨⟨fun _ => ⟨#v[0, 0, 0]⟩, fun _ => 0, fun _ => 0⟩,
          ⟨fun _ => 0xEE, ⟨0, 0, 0, 0, false, false, 0, 0⟩⟩,
          ⟨some ⟨0, 4, #v[10, 0, 0, 1], #v[10, 0, 0, 2]⟩, some ⟨27015, 27005⟩,
            some ⟨[0x01, 0xaa, 0, 0, 0, 1, 0x42], by decide⟩⟩⟩,
          ⟨⟨fun _ => ⟨#v[0, 0, 0]⟩, fun _ => 0, fun _ => 0⟩,
          ⟨fun _ => 0xEE, ⟨0, 0, 0, 0, false, false, 0, 0⟩⟩,
          ⟨some ⟨0, 4, #v[10, 0, 0, 1], #v[10, 0, 0, 2]⟩, some ⟨27015, 27005⟩,
            some ⟨[0x00], by decide⟩⟩⟩]).run ⟨[]⟩ = .ok (results, after) ∧
      after.live = [.bytes [0x00]] := by
  have nothing (ice : IceKey) : ¬ ∃ packet, Carries ice [0x00] packet := by
    rintro ⟨packet, text, ⟨count, padding, _, _, _, rfl⟩, same⟩
    have length := congrArg List.length same
    simp [ciphertext, bigEndian] at length
  have clear (ice : IceKey) : cleartext ice [0x00] = [0x00] := by
    rw [cleartext, mapBlocks_short _ _ (by decide)]
  have carried (ice : IceKey) :
      ∃ packet, Carries ice [0x01, 0xaa, 0, 0, 0, 1, 0x42] packet := by
    refine ⟨[0x42], [0x01, 0xaa, 0, 0, 0, 1, 0x42],
      ⟨0x01, [0xaa], by decide, rfl, by simp, by decide⟩, ?_⟩
    rw [ciphertext, mapBlocks_short _ _ (by decide)]
  have tiny (stack : StackMemory) (ice : IceKey) (packet : List Byte)
      (carries : Carries ice [0x01, 0xaa, 0, 0, 0, 1, 0x42] packet) :
      Safe (callReadPacket .plain 1 1 stack packet packet.length) := by
    have shorter := carries_length ice _ packet carries
    rw [List.length_cons, List.length_cons, List.length_cons, List.length_cons, List.length_cons,
      List.length_cons, List.length_singleton] at shorter
    exact ⟨[], if_pos (by omega)⟩
  obtain ⟨results, cells, run, -, live⟩ := (capture_memory_exact .plain 1 1
    [⟨⟨fun _ => ⟨#v[0, 0, 0]⟩, fun _ => 0, fun _ => 0⟩,
      ⟨fun _ => 0xEE, ⟨0, 0, 0, 0, false, false, 0, 0⟩⟩,
      ⟨some ⟨0, 4, #v[10, 0, 0, 1], #v[10, 0, 0, 2]⟩, some ⟨27015, 27005⟩,
        some ⟨[0x01, 0xaa, 0, 0, 0, 1, 0x42], by decide⟩⟩⟩,
      ⟨⟨fun _ => ⟨#v[0, 0, 0]⟩, fun _ => 0, fun _ => 0⟩,
      ⟨fun _ => 0xEE, ⟨0, 0, 0, 0, false, false, 0, 0⟩⟩,
      ⟨some ⟨0, 4, #v[10, 0, 0, 1], #v[10, 0, 0, 2]⟩, some ⟨27015, 27005⟩,
        some ⟨[0x00], by decide⟩⟩⟩] ⟨[]⟩ (by simp [Measured])).1 (by
      intro entry among
      rcases List.mem_cons.mp among with rfl | among
      · exact ⟨by simp [HasPayload], fun raw packet game carries => by
          obtain rfl := Option.some.inj game
          exact tiny _ _ packet carries⟩
      · obtain rfl := List.mem_singleton.mp among
        exact ⟨by simp [HasPayload], fun raw packet game carries => by
          obtain rfl := Option.some.inj game
          exact absurd ⟨packet, carries⟩ (nothing _)⟩)
  refine ⟨results, _, run, ?_⟩
  rw [live, List.flatMap_cons, List.flatMap_cons, List.flatMap_nil,
    unreadCleartext_carried rfl (carried _), unreadCleartext_unread rfl (nothing _), clear]
  rfl

end Sniffles.CaptureCallback
