import Sniffles.LzssDecoding

/-!
# When decoding stays inside its buffer

`Uncompress` checks nothing before it writes: the size in the header is compared
with the number of produced bytes only after the last token. Into a buffer of
the size that the header states it therefore decodes safely exactly the streams
whose references start inside the produced bytes and whose tokens fit, and
buffers that state the size zero, which it does not decode.
-/

namespace Sniffles.CLZSS

open BitSequences CheckedMemory BackReferences

/-- No token reads before the start of the output or writes behind its end. -/
def Fits (actualSize : BitVec 32) (tokens : List (Token Byte)) : Prop :=
  References 0 tokens ∧ total tokens ≤ actualSize.toNat

instance (actualSize : BitVec 32) (tokens : List (Token Byte)) :
    Decidable (Fits actualSize tokens) := inferInstanceAs (Decidable (_ ∧ _))

/-- `Uncompress` into a buffer of the stated size touches nothing outside it, and it
    rejects a stream that would. -/
def Contained (actualSize : BitVec 32) (body : List Byte) (tokens : List (Token Byte))
    (fresh : Nat → Byte) : Prop :=
  ∃ result, uncompress (some (header actualSize ++ body)) (allocate fresh actualSize.toNat) =
      .ok result ∧ (¬ Fits actualSize tokens → result.returned = 0)

/-- Decoding a stream that reaches its terminator is contained exactly when the stated
    size is zero or the stream fits it. -/
theorem contained_iff_fits (actualSize : BitVec 32) (body rest : List Byte)
    (tokens : List (Token Byte)) (fresh : Nat → Byte) (stream : TokenStream 0 0 body tokens rest) :
    Contained actualSize body tokens fresh ↔ actualSize = 0 ∨ Fits actualSize tokens := by
  have capacity := allocate_length fresh actualSize.toNat
  constructor
  · rintro ⟨result, returned, _⟩
    by_contra neither
    obtain ⟨recognized, unfit⟩ := not_or.mp neither
    have outside := uncompress_outside actualSize body rest (allocate fresh actualSize.toNat) tokens
      stream recognized (by rwa [capacity])
    rw [outside] at returned
    cases returned
  · rintro (zero | fits)
    · refine ⟨⟨0, allocate fresh actualSize.toNat, 0⟩, ?_, fun _ => rfl⟩
      rw [uncompress, getActualSize_header, ok_bind, if_pos zero]
    · by_cases zero : actualSize = 0
      · refine ⟨⟨0, allocate fresh actualSize.toNat, 0⟩, ?_, fun _ => rfl⟩
        rw [uncompress, getActualSize_header, ok_bind, if_pos zero]
      · obtain ⟨text, _, decoded⟩ := uncompress_stream actualSize body rest
          (allocate fresh actualSize.toNat) tokens stream zero fits.1 (by rw [capacity]; exact fits.2)
        exact ⟨_, decoded, fun unfit => absurd fits unfit⟩

/-- Three bytes, the last two a reference to the first, in a buffer of three bytes. -/
theorem three_bytes_contained :
    Contained 3 [0x06, 0x61, 0x00, 0x01, 0x00, 0x00] [.literal 0x61, .copy 0 2] fun _ => 0 := by
  have stream : TokenStream 0 0 [0x06, 0x61, 0x00, 0x01, 0x00, 0x00] [.literal 0x61, .copy 0 2] [] :=
    .literal 0 0 6 _ _ [] 0x61 _ (.command 0 0x06 _) rfl
      (.reference 1 3 3 _ _ [] 0x00 0x01 _ (.kept 1 3 _ (by decide)) rfl (by decide)
        (.terminator 2 1 1 _ [] 0x00 0x00 (.kept 2 1 _ (by decide)) rfl rfl))
  exact (contained_iff_fits 3 _ [] _ _ stream).mpr (.inr (by decide))

/-- Two literals behind a header that states the size one are written into and behind a
    buffer of one byte. -/
theorem two_literals_escape :
    ¬ ∀ (actualSize : BitVec 32) (body rest : List Byte) (tokens : List (Token Byte))
      (fresh : Nat → Byte), TokenStream 0 0 body tokens rest →
        Contained actualSize body tokens fresh := by
  intro contained
  have stream : TokenStream 0 0 [0x04, 0x61, 0x62, 0x00, 0x00] [.literal 0x61, .literal 0x62] [] :=
    .literal 0 0 4 _ _ [] 0x61 _ (.command 0 0x04 _) rfl
      (.literal 1 2 2 _ _ [] 0x62 _ (.kept 1 2 _ (by decide)) rfl
        (.terminator 2 1 1 _ [] 0x00 0x00 (.kept 2 1 _ (by decide)) rfl rfl))
  obtain ⟨result, returned, _⟩ := contained 1 _ [] _ (fun _ => 0) stream
  have escaped : uncompress (some (header 1 ++ [0x04, 0x61, 0x62, 0x00, 0x00])) (allocate (fun _ => 0) 1) =
      .error .outOfBounds := by decide
  cases escaped.symm.trans returned

end Sniffles.CLZSS
