import Sniffles.LzssEncoding

/-!
# The round trip through the codec

With a window of at most 4096 bytes every distance fits its twelve bits, so the
bytes that `Compress` returns hold exactly the tokens that it chose. These
expand to the input, and so does what `Uncompress` writes.
-/

namespace Sniffles.CLZSS

open BitSequences CheckedMemory BackReferences FlaggedGroups

/-- In a window of at most 4096 bytes the chosen tokens can be encoded. -/
theorem Choosable.encodable {source : Source} {position : Nat} {token : Token Byte}
    (choosable : Choosable source position token) (narrow : source.windowSize ≤ 4096) :
    Encodable token := by
  cases token with
  | literal => trivial
  | copy back count =>
    obtain ⟨low, high, near, _⟩ := choosable
    exact ⟨Nat.lt_of_lt_of_le near narrow, Nat.le_of_succ_le low, high⟩

/-- Compression always returns; what it returns states the input's size and is
    decompressed to the input, all of its reported bytes being consumed. -/
theorem compressed_round_trip (source : Source) (power : Nat) (narrow : power ≤ 12)
    (size : source.windowSize = 2 ^ power) (nonNull : source.base ≠ 0)
    (fits : source.bytes.length < 2147483648) (fresh : Nat → Byte) :
    Safe (compress source fresh) ∧
      ∀ buffer outputSize, compress source fresh = .ok (some (buffer, outputSize)) →
        ∀ pOutput : List Byte, source.bytes.length ≤ pOutput.length →
          ∃ actualSize, getActualSize (some buffer) = .ok actualSize ∧
            actualSize.toNat = source.bytes.length ∧
            uncompress (some buffer) pOutput =
              .ok ⟨actualSize, source.bytes ++ pOutput.drop source.bytes.length, outputSize⟩ := by
  have window : source.PowerWindow := ⟨power, by omega, size⟩
  have limited : source.windowSize ≤ 4096 := by
    rw [size]
    exact Nat.pow_le_pow_right (by decide) narrow
  obtain ⟨result, returned, written⟩ := compress_written window nonNull fits fresh
  refine ⟨⟨result, returned⟩, ?_⟩
  intro buffer outputSize compressed pOutput room
  obtain rfl : result = some (buffer, outputSize) := Except.ok.inj (returned.symm.trans compressed)
  obtain ⟨tokens, rest, rfl, reported, expanded, choosable⟩ := written buffer outputSize rfl
  have stored : (BitVec.ofNat 32 source.bytes.length).toNat = source.bytes.length := by
    rw [BitVec.toNat_ofNat, Nat.mod_eq_of_lt (by omega)]
  have nonempty : ∀ token ∈ tokens, 0 < token.size := by
    intro token member
    obtain ⟨start, chosen⟩ := choosable token member
    exact chosen.expands.1
  have encodable : ∀ token ∈ tokens, Encodable token := by
    intro token member
    obtain ⟨start, chosen⟩ := choosable token member
    exact chosen.encodable limited
  have references := expand_references tokens [] source.bytes nonempty expanded
  obtain ⟨text, expandedText, length⟩ := expand_exists tokens [] references
  obtain rfl : text = source.bytes := Option.some.inj (expandedText.symm.trans expanded)
  rw [List.length_nil, Nat.zero_add] at length
  have stream := packed_stream tokens 0 0 rest encodable (by decide) (absurd rfl)
  have recognized : BitVec.ofNat 32 source.bytes.length ≠ 0 := by
    intro zero
    have short : source.bytes.length ≤ headerSize + 8 := by
      have none := congrArg BitVec.toNat zero
      rw [stored] at none
      exact none ▸ Nat.zero_le _
    rw [compress, compressNoAlloc, if_pos short] at compressed
    cases compressed
  obtain ⟨text, expandedText, decoded⟩ := uncompress_stream (BitVec.ofNat 32 source.bytes.length) _ rest
    pOutput tokens stream recognized references (length ▸ room)
  obtain rfl : text = source.bytes := Option.some.inj (expandedText.symm.trans expanded)
  refine ⟨_, getActualSize_header _ _, stored, ?_⟩
  rw [decoded, if_pos rfl, ← length, ← reported, Nat.add_sub_cancel]

/-- Thirty-one equal bytes at address 23, in a window of eight bytes: a literal and two
    references, the longer one into the bytes it produces itself. -/
theorem equal_bytes_round_trip :
    ∃ actualSize, actualSize.toNat = 31 ∧
      uncompress (some ([0x4C, 0x5A, 0x53, 0x53, 0x1F, 0x00, 0x00, 0x00, 0x0E, 0x41, 0x00, 0x0F, 0x00,
          0x0D, 0x00, 0x00] ++ List.replicate 15 0xCC)) (List.replicate 32 0xDD) =
        .ok ⟨actualSize, List.replicate 31 0x41 ++ [0xDD], 16⟩ := by
  have compressed : compress ⟨8, 23, List.replicate 31 0x41⟩ (fun _ => 0xCC) =
      .ok (some ([0x4C, 0x5A, 0x53, 0x53, 0x1F, 0x00, 0x00, 0x00, 0x0E, 0x41, 0x00, 0x0F, 0x00,
        0x0D, 0x00, 0x00] ++ List.replicate 15 0xCC, 16)) := by decide +kernel
  obtain ⟨_, restored⟩ := compressed_round_trip ⟨8, 23, List.replicate 31 0x41⟩ 3 (by decide) rfl
    (by decide) (by decide) fun _ => 0xCC
  obtain ⟨actualSize, _, stated, decoded⟩ :=
    restored _ 16 compressed (List.replicate 32 0xDD) (by decide)
  exact ⟨actualSize, stated, decoded⟩

end Sniffles.CLZSS
