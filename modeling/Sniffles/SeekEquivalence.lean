import Sniffles.BitCounts

/-!
# Seeking and reading to a position

A ready reader is determined by its buffer and its position: the balance of
pointer and bits in hand has a single solution with a bit in hand, and the word
holds the bits between the two. A seek and a run of single bits that lead to the
same position therefore lead to the same reader, and no later call can tell
them apart.

A seek does not leave a bit in hand in one case. In a buffer shorter than a word
every position belongs to the partial head, and at its end the rebuilt word is
empty. Reading to that end refills the word with the fake one instead. The next
single bit then raises the flag in the one reader and not in the other.

The other case is a position that the stored bit count does not admit. Below 2^28
bytes there is none in the buffer. From there on the count wraps: a negative one
raises the flag when the buffer is opened, and a smaller one refuses seeks to
positions that reads still reach.
-/

namespace Sniffles.CBitRead

open BitSequences MachineIntegers

/-- A later call that compares two readers. -/
inductive Probe where
  | read (request : Request)
  | getNumBitsRead

/-- The value of a call and the reader behind it. -/
def probe (memory : Int → Byte) (r : CBitRead) : Probe → Int × CBitRead
  | .read request => r.serve memory request
  | .getNumBitsRead => (r.getNumBitsRead, r)

/-- The value and the overflow flag after each call of a sequence. -/
def probed (memory : Int → Byte) : CBitRead → List Probe → List (Int × Bool)
  | _, [] => []
  | r, call :: rest =>
    let (answer, next) := r.probe memory call
    (answer, next.isOverflowed) :: probed memory next rest

/-- A reader that seeks a position cannot be told from a fresh one that reads as
    many bits one at a time. -/
def SeekEqualsReading (memory : Int → Byte) (storage : CBitRead) (bytes : Nat) (r : CBitRead)
    (position : Nat) : Prop :=
  ∀ calls : List Probe,
    probed memory (r.seek memory position).2 calls =
      probed memory (run memory (construct memory storage bytes)
        (List.replicate position .readOneBit)) calls

/-- Two readers that cannot be told apart have the same flag, now and after any request. -/
theorem probed_flags {memory : Int → Byte} {first second : CBitRead}
    (same : ∀ calls, probed memory first calls = probed memory second calls) (request : Request) :
    first.overflow = second.overflow ∧
      (first.serve memory request).2.overflow = (second.serve memory request).2.overflow := by
  have now := same [.getNumBitsRead]
  have later := same [.read request]
  simp only [probed, probe, isOverflowed, List.cons.injEq, Prod.mk.injEq, and_true] at now later
  exact ⟨now.2, later.2⟩

/-- Without a bit in hand a single bit is read from the empty word, and the flag
    is left alone. -/
theorem readOneBit_drained (memory : Int → Byte) (r : CBitRead) (drained : r.bitsAvail = 0) :
    (r.readOneBit memory).2.overflow = r.overflow := by
  have negative : int32 (0 - 1) ≠ 0 := by decide
  simp only [readOneBit, drained, negative, if_false]

/-- A seek to the end of a buffer shorter than a word empties the word. -/
theorem seek_short_end (memory : Int → Byte) (bytes : Nat) (r : CBitRead)
    (opened : Opened bytes r) (nonempty : 1 ≤ bytes) (short : bytes < 4) :
    (r.seek memory ((8 * bytes : Nat) : Int)).2.bitsAvail = 0 ∧
      (r.seek memory ((8 * bytes : Nat) : Int)).2.overflow = r.overflow := by
  have whole : bytes % 4 = bytes := Nat.mod_eq_of_lt short
  rw [seek_head memory bytes r (8 * bytes) opened (Nat.le_refl _) (by omega) (.inl short), whole]
  constructor
  · simp only
    omega
  · rfl

/-- A fresh reader that reads bits one at a time gets ready behind them, under the count that
    it has been opened with. -/
theorem single_bits_whole (memory : Int → Byte) (storage : CBitRead) (bytes position : Nat)
    (nonempty : 1 ≤ bytes) (natural : 0 ≤ int32 (8 * bytes)) (inside : position ≤ 8 * bytes) :
    ∃ whole, Ready memory bytes whole position ∧
      run memory (construct memory storage bytes) (List.replicate position .readOneBit) =
        whole.withBits (int32 (8 * bytes)) := by
  obtain ⟨first, ready, opened⟩ := construct_whole memory storage bytes nonempty natural
  have reached := run_within memory bytes first 0 (List.replicate position .readOneBit) ready
    (by rwa [asked_single_bits, Nat.zero_add])
  rw [asked_single_bits, Nat.zero_add] at reached
  exact ⟨_, reached, by rw [opened, run_withBits]⟩

/-- A seek that the count admits leads there too, unless it drains a short buffer. -/
theorem seek_whole (memory : Int → Byte) (bytes : Nat) (r : CBitRead) (position : Nat)
    (counted : Counted bytes r) (clear : r.overflow = false) (inside : position ≤ 8 * bytes)
    (admitted : (position : Int) ≤ int32 (8 * bytes)) (room : position < 8 * bytes ∨ 4 ≤ bytes) :
    ∃ whole, Ready memory bytes whole position ∧
      (r.seek memory position).2 = whole.withBits (int32 (8 * bytes)) := by
  have opened : Opened bytes (r.withBits (8 * bytes)) :=
    ⟨counted.data, counted.dataBytes, rfl, counted.bufferEnd⟩
  have same : r = (r.withBits (8 * bytes)).withBits (int32 (8 * bytes)) := by
    rw [← counted.dataBits]
    rfl
  refine ⟨_, seek_ready memory bytes _ position opened clear inside room, ?_⟩
  have moved := seek_withBits memory (r.withBits (8 * bytes)) (int32 (8 * bytes)) position opened.data
    (by omega) (by rw [opened.dataBits]; omega) admitted
  rwa [← same] at moved

/-- A position that the count does not admit raises the flag, which reading up to it does not. -/
theorem seek_refused_differs (memory : Int → Byte) (storage : CBitRead) (bytes : Nat) (r : CBitRead)
    (position : Nat) (nonempty : 1 ≤ bytes) (counted : Counted bytes r) (clear : r.overflow = false)
    (inside : position ≤ 8 * bytes) (refused : int32 (8 * bytes) < position) :
    ¬ SeekEqualsReading memory storage bytes r position := by
  intro same
  obtain ⟨whole, ready, reads⟩ := single_bits_whole memory storage bytes position nonempty
    (counted.natural clear) inside
  have raised := seek_outside memory r position (.inr (counted.dataBits ▸ refused))
  have flags := (probed_flags same .readOneBit).1
  rw [reads, withBits_overflow, raised, ready.standing.flag] at flags
  exact Bool.noConfusion flags

/-- Seeking a position equals reading up to it exactly when the stored bit count admits the
    position and it is not the end of a buffer shorter than a word. The reader that seeks may
    be in any state with a clear flag. Below 2^28 bytes the stored count is that of all bits of
    the buffer; from there on it is wrapped. -/
theorem seek_equals_reading_iff (memory : Int → Byte) (storage : CBitRead) (bytes : Nat)
    (r : CBitRead) (position : Nat) (nonempty : 1 ≤ bytes) (counted : Counted bytes r)
    (clear : r.overflow = false) (inside : position ≤ 8 * bytes) :
    SeekEqualsReading memory storage bytes r position ↔
      (position : Int) ≤ int32 (8 * bytes) ∧ (4 ≤ bytes ∨ position < 8 * bytes) := by
  obtain ⟨whole, ready, reads⟩ := single_bits_whole memory storage bytes position nonempty
    (counted.natural clear) inside
  constructor
  · intro same
    refine ⟨?_, ?_⟩
    · by_contra refused
      exact seek_refused_differs memory storage bytes r position nonempty counted clear inside
        (Int.not_le.mp refused) same
    · by_contra excluded
      have short : bytes < 4 := by omega
      have finished : position = 8 * bytes := by omega
      subst finished
      have stored : int32 (8 * (bytes : Int)) = 8 * bytes := int32_of_fits (by omega) (by omega)
      have opened : Opened bytes r :=
        ⟨counted.data, counted.dataBytes, counted.dataBits.trans stored, counted.bufferEnd⟩
      obtain ⟨drained, kept⟩ := seek_short_end memory bytes r opened nonempty short
      have raised := (serve_crossing memory bytes _ _ .readOneBit ready
        (Nat.lt_add_of_pos_right (by decide))).2.flag
      have flags := (probed_flags same .readOneBit).2
      rw [reads, serve_withBits, withBits_overflow, raised, serve, readOneBit_drained memory _ drained,
        kept, clear] at flags
      exact Bool.noConfusion flags
  · rintro ⟨admitted, room⟩ calls
    obtain ⟨sought, there, moved⟩ :=
      seek_whole memory bytes r position counted clear inside admitted room.symm
    rw [moved, reads, there.unique ready]

/-- Seeking the middle of the partial head of a five-byte buffer, after a read and a seek,
    equals reading three bits. -/
theorem five_bytes_seek_equals_reading :
    SeekEqualsReading (fun _ => 0xA5#8) ⟨0, 0, 0, 0, false, false, 0, 0⟩ 5
      (called (fun _ => 0xA5#8) (construct (fun _ => 0xA5#8) ⟨0, 0, 0, 0, false, false, 0, 0⟩ 5)
        [.read (.readUBitLong 17 (by decide) (by decide)), .seek 30]) 3 :=
  (seek_equals_reading_iff _ _ 5 _ 3 (by decide)
    ((construct_counted _ _ 5).kept (called_kept _ _ _)) (by decide +kernel) (by decide)).mpr
    ⟨by decide, .inl (by decide)⟩

/-- At the end of a one-byte buffer the two readers can be told apart. -/
theorem one_byte_end_differs :
    ¬ SeekEqualsReading (fun _ => 0) ⟨0, 0, 0, 0, false, false, 0, 0⟩ 1
      (construct (fun _ => 0) ⟨0, 0, 0, 0, false, false, 0, 0⟩ 1) 8 := by
  intro same
  have flags := same [.read .readOneBit]
  exact absurd flags (by decide +kernel)

end Sniffles.CBitRead
