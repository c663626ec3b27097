import Sniffles.EncoderTurns

/-!
# Compression inside its buffers

`CompressNoAlloc` tests its output pointer once for each token, against a limit 16
bytes before the end of a buffer as long as the input. A turn writes at most a
command byte and a reference, and what follows the last turn is at most a command
byte and the terminator, three bytes in either case. The first turn starts behind
the header of an input of more than 16 bytes, every later one below the limit; so
no write leaves the buffer, and whatever is returned leaves 14 bytes of it unused.

All accesses are checked against the input, the nodes and a buffer of that length,
so a run without a fault has read and written nothing else, also where it gives up.
From windows of 2^28 bytes on the block of the nodes is empty, since its size in
bytes wraps, and the first byte of any longer input is added behind it.
-/

namespace Sniffles.CLZSS

open BitSequences CheckedMemory

/-- Compression returns without a fault. It returns nothing for up to 16 bytes, and otherwise
    nothing or a text at least 14 bytes shorter than the input. -/
def ShrinksInside (source : Source) (pOutputBuf : List Byte) : Prop :=
  Safe (compressNoAlloc source pOutputBuf) ∧
    (source.bytes.length ≤ 16 → compressNoAlloc source pOutputBuf = .ok none) ∧
    ∀ buffer outputSize, compressNoAlloc source pOutputBuf = .ok (some (buffer, outputSize)) →
      outputSize ≤ buffer.length ∧ outputSize + 14 ≤ source.bytes.length

/-- As long as the nodes are allocated, compression shrinks inside its buffers. -/
theorem shrinksInside_allocated {source : Source} (window : source.PowerWindow)
    (nonNull : 0 < source.bytes.length → source.base ≠ 0)
    (fits : source.bytes.length < 2147483648) (pOutputBuf : List Byte)
    (allocated : pOutputBuf.length = source.bytes.length) : ShrinksInside source pOutputBuf := by
  obtain ⟨result, returned, short, written⟩ :=
    compressNoAlloc_written window nonNull fits pOutputBuf allocated
  refine ⟨⟨result, returned⟩, ?_, ?_⟩
  · intro few
    rw [returned, short few]
  · intro buffer outputSize compressed
    obtain rfl : result = some (buffer, outputSize) := Except.ok.inj (returned.symm.trans compressed)
    obtain ⟨_, rest, _, reported, spared, _⟩ := written buffer outputSize rfl
    exact ⟨by omega, spared⟩

/-- Up to 16 bytes are given up before anything is allocated. -/
theorem shrinksInside_short {source : Source} (short : source.bytes.length ≤ 16)
    (pOutputBuf : List Byte) : ShrinksInside source pOutputBuf := by
  have returned : compressNoAlloc source pOutputBuf = .ok none := by
    rw [compressNoAlloc]
    exact if_pos short
  refine ⟨⟨none, returned⟩, fun _ => returned, ?_⟩
  intro buffer outputSize compressed
  cases returned.symm.trans compressed

/-- Without nodes no longer input is compressed without a fault. -/
theorem compressNoAlloc_unsafe {source : Source} {power : Nat}
    (size : source.windowSize = 2 ^ power) (wide : 268435456 ≤ source.windowSize)
    (long : 16 < source.bytes.length) (pOutputBuf : List Byte) :
    ¬ Safe (compressNoAlloc source pOutputBuf) := by
  rintro ⟨result, returned⟩
  rw [compressNoAlloc_turns] at returned
  obtain ⟨steps, taken, _⟩ := bind_returned returned
  exact compressTurns_nodes taken long (source.unallocated size wide)

/-- For every input, every power-of-two window and every content of the output buffer,
    compression shrinks inside its buffers exactly when the window is below 2^28 bytes or the
    input has at most 16 bytes. -/
theorem compression_shrinks_iff (source : Source) (power : Nat)
    (size : source.windowSize = 2 ^ power) (nonNull : 0 < source.bytes.length → source.base ≠ 0)
    (fits : source.bytes.length < 2147483648) (pOutputBuf : List Byte)
    (allocated : pOutputBuf.length = source.bytes.length) :
    ShrinksInside source pOutputBuf ↔
      source.windowSize < 268435456 ∨ source.bytes.length ≤ 16 := by
  constructor
  · rintro ⟨returns, _⟩
    by_contra neither
    obtain ⟨wide, long⟩ := not_or.mp neither
    exact compressNoAlloc_unsafe size (Nat.le_of_not_lt wide) (Nat.lt_of_not_le long) pOutputBuf
      returns
  · rintro (narrow | short)
    · exact shrinksInside_allocated (Source.powerWindow size narrow) nonNull fits pOutputBuf allocated
    · exact shrinksInside_short short pOutputBuf

/-- Thirty-one equal bytes in a window of eight are compressed to 16 bytes, one less
    than the most that could be returned. -/
theorem equal_bytes_shrink :
    ∃ buffer outputSize, compressNoAlloc ⟨8, 23, List.replicate 31 0x41⟩ (List.replicate 31 0xCC) =
        .ok (some (buffer, outputSize)) ∧ outputSize = 16 ∧ outputSize + 14 ≤ 31 := by
  have compressed : compressNoAlloc ⟨8, 23, List.replicate 31 0x41⟩ (List.replicate 31 0xCC) =
      .ok (some ([0x4C, 0x5A, 0x53, 0x53, 0x1F, 0x00, 0x00, 0x00, 0x0E, 0x41, 0x00, 0x0F, 0x00,
        0x0D, 0x00, 0x00] ++ List.replicate 15 0xCC, 16)) := by decide +kernel
  obtain ⟨-, -, spared⟩ := (compression_shrinks_iff ⟨8, 23, List.replicate 31 0x41⟩ 3 rfl
    (fun _ => by decide) (by decide) (List.replicate 31 0xCC) (by decide)).mpr (.inl (by decide))
  exact ⟨_, 16, compressed, rfl, (spared _ 16 compressed).2⟩

/-- In a window of 2^28 bytes the same bytes are not compressed without a fault. -/
theorem equal_bytes_overrun :
    ¬ ShrinksInside ⟨268435456, 23, List.replicate 31 0x41⟩ (List.replicate 31 0xCC) := by
  have size : (Source.mk 268435456 23 (List.replicate 31 0x41)).windowSize = 2 ^ 28 := by decide
  exact fun shrinks => compressNoAlloc_unsafe size (Nat.le_refl _) (by decide)
    (List.replicate 31 0xCC) shrinks.1

end Sniffles.CLZSS
