import Sniffles.ReachedReaders

/-!
# One read or two

A read of `a + b` bits is compared with a read of `a` bits followed by one of
`b`. Inside the word both take the same bits and leave the same reader. Across
a word boundary they agree as long as the flag is clear, since both then end at
the same position.

With the flag raised by an earlier failure the merging path answers zero. It
has already stepped over the next word and leaves the count of bits in hand as
it was, so the two readers stand at different positions. The one exception is a
request for a whole word whose first part empties the word in hand: both ways
step over one word, and they agree if all 32 bits happen to be zero.
-/

namespace Sniffles.CBitRead

open BitSequences MachineIntegers

/-- One read of `a + b` bits answers like the two reads joined, and reports the
    same position behind it. -/
def SplitAgrees (memory : Int → Byte) (r : CBitRead) (a b : Nat) : Prop :=
  let whole := r.readUBitLong memory (a + b)
  let first := r.readUBitLong memory a
  let second := first.2.readUBitLong memory b
  whole.1 = first.1 ||| (second.1 <<< a) ∧ whole.2.getNumBitsRead = second.2.getNumBitsRead

/-- The only straddling request that a raised flag leaves intact: a word's worth
    of zero bits whose first part is the word in hand. -/
def ZeroWord (memory : Int → Byte) (r : CBitRead) (a b : Nat) : Prop :=
  r.bitsAvail = a ∧ a + b = 32 ∧ r.inBufWord &&& maskTable a = 0 ∧
    loadWord memory r.dataIn &&& maskTable b = 0

/-- A pointer inside the buffer balances the reported position exactly. -/
theorem Framed.position {bytes : Nat} {r : CBitRead} (framed : Framed bytes r)
    (fits : 8 * bytes < 2147483648) (inside : r.dataIn ≤ bytes) :
    r.getNumBitsRead = 8 * r.dataIn - r.bitsAvail := by
  obtain ⟨opened, ⟨lower, upper⟩, aligned, covered, high⟩ := framed
  rw [getNumBitsRead_balance bytes r opened fits aligned (by omega) high (by omega) upper (.inr lower),
    int32_of_fits (by omega) (by omega)]
  split <;> omega

/-- A pointer behind the end reports the end, or wraps. -/
theorem Framed.behind {bytes : Nat} {r : CBitRead} (framed : Framed bytes r)
    (fits : 8 * bytes < 2147483648) (past : r.dataIn = bytes + 4) :
    r.getNumBitsRead = 8 * bytes ∨ r.getNumBitsRead < 0 ∧ r.getNumBitsLeft ≤ 0 := by
  obtain ⟨opened, ⟨lower, upper⟩, aligned, covered, high⟩ := framed
  have position := getNumBitsRead_balance bytes r opened fits aligned (by omega) high (by omega) upper
    (.inr lower)
  rw [past] at position
  by_cases reported : 8 * (bytes : Int) + 32 - r.bitsAvail < 2147483648
  · left
    rw [position, int32_of_fits (by omega) (by omega)]
    split <;> omega
  · right
    have wrapped : int32 (8 * ((bytes : Int) + 4) - r.bitsAvail) =
        8 * (bytes : Int) + 32 - r.bitsAvail - 4294967296 := by
      unfold int32
      omega
    rw [wrapped, if_pos (by omega)] at position
    refine ⟨by omega, ?_⟩
    have left : int32 (8 * (bytes : Int) - (8 * (bytes : Int) + 32 - r.bitsAvail - 4294967296)) =
        r.bitsAvail - 32 := by
      unfold int32
      omega
    rw [getNumBitsLeft, tell, position, opened.dataBits, left]
    omega

/-- As long as bits are reported to be left, the pointer is inside the buffer and
    the bits exist. -/
theorem Framed.left {bytes count : Nat} {r : CBitRead} (framed : Framed bytes r)
    (fits : 8 * bytes < 2147483648) (positive : 1 ≤ count) (left : (count : Int) ≤ r.getNumBitsLeft) :
    r.dataIn ≤ bytes ∧ 8 * r.dataIn - r.bitsAvail + count ≤ 8 * bytes := by
  by_cases inside : r.dataIn ≤ bytes
  · refine ⟨inside, ?_⟩
    have lower := framed.available.1
    have upper := framed.available.2
    have covered := framed.covered
    rw [getNumBitsLeft, tell, framed.position fits inside, framed.opened.dataBits,
      int32_of_fits (by omega) (by omega)] at left
    omega
  · have past : r.dataIn = bytes + 4 := by
      have := framed.aligned
      have := framed.high
      omega
    rcases framed.behind fits past with ended | ⟨-, none⟩
    · rw [getNumBitsLeft, tell, ended, framed.opened.dataBits, Int.sub_self,
        int32_of_fits (by decide) (by decide)] at left
      omega
    · omega

/-- Masking a word in two steps takes the same bits as masking it once. -/
theorem mask_split (word : BitVec 32) (a b : Nat) (width : a + b ≤ 32) :
    word &&& maskTable (a + b) =
      (word &&& maskTable a) ||| (((word >>> a) &&& maskTable b) <<< a) := by
  apply BitVec.eq_of_getLsbD_eq
  intro index inside
  simp only [BitVec.getLsbD_or, BitVec.getLsbD_and, BitVec.getLsbD_shiftLeft,
    BitVec.getLsbD_ushiftRight, maskTable_bit _ _ width, maskTable_bit a _ (Nat.le_trans (Nat.le_add_right a b) width),
    maskTable_bit b _ (Nat.le_trans (Nat.le_add_left b a) width)]
  by_cases low : index < a
  · simp [low, Nat.lt_add_right b low]
  · have place : a + (index - a) = index := by omega
    have bound : index - a < b ↔ index < a + b := by omega
    simp [low, inside, place, bound]

/-- A refill forgets the word and the bits counted in it. -/
theorem fetchNext_forgets (memory : Int → Byte) (r : CBitRead) (avail : Int) (word : BitVec 32) :
    fetchNext memory { r with bitsAvail := avail, inBufWord := word } = fetchNext memory r := by
  simp only [fetchNext, grabNextDWord]

/-- Bits that the word holds are split without a trace, whatever the flag. -/
theorem split_in_word (memory : Int → Byte) (r : CBitRead) (a b : Nat) (second : 1 ≤ b)
    (width : a + b ≤ 32) (held : ((a + b : Nat) : Int) ≤ r.bitsAvail) : SplitAgrees memory r a b := by
  have part : (a : Int) < r.bitsAvail := by omega
  have same := mask_split r.inBufWord a b width
  simp only [SplitAgrees]
  rw [readUBitLong_held memory r a part]
  rcases Int.lt_or_eq_of_le held with more | emptied
  · rw [readUBitLong_held memory r (a + b) more, readUBitLong_held memory _ b (by simp only; omega)]
    refine ⟨same, congrArg getNumBitsRead ?_⟩
    simp only [CBitRead.mk.injEq, and_true, true_and, ← BitVec.shiftRight_add]
    omega
  · rw [readUBitLong_emptied memory r (a + b) emptied.symm,
      readUBitLong_emptied memory _ b (by simp only; omega)]
    refine ⟨same, congrArg getNumBitsRead ?_⟩
    rw [fetchNext_forgets memory r 0 (r.inBufWord >>> a)]
    exact fetchNext_forgets memory r 0 r.inBufWord

/-- A ready reader reads the window in one part or in two, and is ready at the
    same position in the end. -/
theorem split_ready (memory : Int → Byte) (bytes : Nat) (r : CBitRead) (position a b : Nat)
    (ready : Ready memory bytes r position) (first : 1 ≤ a) (second : 1 ≤ b) (width : a + b ≤ 32)
    (inside : position + (a + b) ≤ 8 * bytes) : SplitAgrees memory r a b := by
  have whole := serve_within memory bytes r position
    (.readUBitLong (a + b) (by omega) width) ready inside
  have low := serve_within memory bytes r position (.readUBitLong a first (by omega)) ready
    (by simp only [Request.numbits]; omega)
  have high := serve_within memory bytes _ _ (.readUBitLong b second (by omega)) low.2
    (by simp only [Request.numbits]; omega)
  simp only [serve, Request.numbits, Nat.cast_inj, Nat.add_assoc] at whole low high
  refine ⟨?_, congrArg getNumBitsRead (whole.2.unique high.2)⟩
  apply BitVec.eq_of_toNat_eq
  rw [joined_value _ _ a b (by rw [low.1]; exact window_bound _ _ _)
    (by rw [high.1]; exact window_bound _ _ _) width, whole.1, low.1, high.1]
  exact window_split _ position a b (by rw [bitList_length]; omega)

/-- A read from inside the buffer changes the reported position.

Either the pointer gets behind the end, which no position inside reports, or the
balance of pointer and bits in hand grows by the bits read or by a whole word. -/
theorem Framed.moves {bytes : Nat} {r : CBitRead} (memory : Int → Byte) (count : Nat)
    (framed : Framed bytes r) (fits : 8 * bytes < 2147483648) (inside : r.dataIn ≤ bytes)
    (positive : 1 ≤ count) (width : count ≤ 32) :
    (r.readUBitLong memory count).2.getNumBitsRead ≠ r.getNumBitsRead := by
  have next := readUBitLong_framed memory bytes r count framed width
  rw [framed.position fits inside]
  obtain ⟨opened, ⟨lower, upper⟩, aligned, covered, high⟩ := framed
  have limit := opened.bufferEnd
  by_cases within : (r.readUBitLong memory count).2.dataIn ≤ bytes
  · rw [next.position fits within]
    rcases lt_trichotomy r.bitsAvail count with short | emptied | more
    · rcases lt_trichotomy r.dataIn r.bufferEnd with before | finished | past
      · cases raised : r.overflow with
        | true =>
          rw [readUBitLong_stuck memory r count short raised before]
          simp only
          omega
        | false =>
          have positive : 0 ≤ r.bitsAvail := by omega
          obtain ⟨avail, counted⟩ := Int.eq_ofNat_of_zero_le positive
          rw [readUBitLong_merged memory r count avail counted (by omega) raised before]
          simp only
          omega
      · rw [readUBitLong_finished memory r count short finished] at within
        simp only at within
        omega
      · omega
    · rw [readUBitLong_emptied memory r count emptied, fetchNext] at within ⊢
      rcases lt_or_eq_of_le inside with before | finished
      · rw [grabNextDWord_inside memory _ false (by simp only; omega)]
        simp only
        omega
      · rw [grabNextDWord_end memory _ false (by simp only; omega)] at within
        simp only at within
        omega
    · rw [readUBitLong_held memory r count more]
      simp only
      omega
  · have past : (r.readUBitLong memory count).2.dataIn = bytes + 4 := by
      have := next.aligned
      have := next.high
      omega
    rcases next.behind fits past with ended | ⟨negative, -⟩ <;> omega

/-- Masked low bits shifted inside the word are zero only if they were. -/
theorem shifted_zero (word : BitVec 32) (a b : Nat) (width : a + b ≤ 32) :
    (word &&& maskTable b) <<< a = 0 ↔ word &&& maskTable b = 0 := by
  constructor
  · intro zero
    apply BitVec.eq_of_getLsbD_eq
    intro index inside
    by_cases low : index < b
    · have reached : a + index < 32 := by omega
      have above : ¬ a + index < a := by omega
      have bit := congrArg (fun shifted : BitVec 32 => shifted.getLsbD (a + index)) zero
      simp only [BitVec.getLsbD_shiftLeft, reached, above, decide_true, decide_false, Bool.not_false,
        Bool.true_and, Nat.add_sub_cancel_left] at bit
      rw [bit]
      simp
    · rw [BitVec.getLsbD_and, maskTable_bit b index (by omega)]
      simp [low]
  · intro zero
    rw [zero]
    exact BitVec.zero_shiftLeft a

/-- Across a word boundary a raised flag breaks the law, up to one exception.

The single read answers zero with the pointer one word on and the bits in hand
unchanged. If the first part fits the word in hand, the second one does the same
from fewer bits. If it empties that word, the second is read from the next word.
If it does not fit, it behaves like the single read and the second part moves on. -/
theorem split_flagged (memory : Int → Byte) (bytes : Nat) (r : CBitRead) (a b : Nat)
    (framed : Framed bytes r) (fits : 8 * bytes < 2147483648) (raised : r.overflow = true)
    (before : r.dataIn < bytes) (first : 1 ≤ a) (second : 1 ≤ b) (width : a + b ≤ 32)
    (short : r.bitsAvail < ((a + b : Nat) : Int)) : SplitAgrees memory r a b ↔ ZeroWord memory r a b := by
  have whole := readUBitLong_framed memory bytes r (a + b) framed width
  have part := readUBitLong_framed memory bytes r a framed (by omega)
  have apart := readUBitLong_framed memory bytes _ b part (by omega)
  have limit := framed.opened.bufferEnd
  have lower := framed.available.1
  have aligned := framed.aligned
  have stored : r.dataIn < r.bufferEnd := by omega
  simp only [SplitAgrees, ZeroWord]
  rw [readUBitLong_stuck memory r (a + b) short raised stored] at whole ⊢
  have position := whole.position fits (by simp only; omega)
  rcases lt_trichotomy r.bitsAvail a with missing | emptied | more
  · rw [readUBitLong_stuck memory r a missing raised stored] at part ⊢
    constructor
    · rintro ⟨-, same⟩
      exact absurd same.symm (part.moves memory b fits (by simp only; omega) second (by omega))
    · rintro ⟨emptied, -⟩
      omega
  · rw [readUBitLong_emptied memory r a emptied, fetchNext,
      grabNextDWord_inside memory { r with bitsAvail := 32 } false stored,
      readUBitLong_held memory _ b (by simp only; omega)] at apart ⊢
    have behind := apart.position fits (by simp only; omega)
    constructor
    · rintro ⟨answered, same⟩
      have balance := position.symm.trans (same.trans behind)
      simp only at balance
      obtain ⟨low, high⟩ := BitVec.or_eq_zero_iff.mp answered.symm
      exact ⟨emptied, by omega, low, (shifted_zero _ a b width).mp high⟩
    · rintro ⟨-, full, low, high⟩
      refine ⟨(BitVec.or_eq_zero_iff.mpr ⟨low, (shifted_zero _ a b width).mpr high⟩).symm, ?_⟩
      refine position.trans (Eq.trans ?_ behind.symm)
      simp only
      omega
  · rw [readUBitLong_held memory r a more,
      readUBitLong_stuck memory { r with
        bitsAvail := r.bitsAvail - a
        inBufWord := r.inBufWord >>> a } b (by simp only; omega) raised stored] at apart ⊢
    have behind := apart.position fits (by simp only; omega)
    constructor
    · rintro ⟨-, same⟩
      have balance := position.symm.trans (same.trans behind)
      simp only at balance
      omega
    · rintro ⟨emptied, -⟩
      omega

/-- In every reader that calls can reach, and wherever enough bits are reported
    to be left, one read agrees with two exactly if the flag is clear, or the word
    holds all the bits, or the bits are the one word of zeros that is exempt. -/
theorem split_agrees_iff (memory : Int → Byte) (storage : CBitRead) (bytes : Nat)
    (calls : List Call) (a b : Nat) (large : 4 ≤ bytes) (fits : 8 * bytes < 2147483648)
    (first : 1 ≤ a) (second : 1 ≤ b) (width : a + b ≤ 32)
    (left : ((a + b : Nat) : Int) ≤
      (called memory (construct memory storage bytes) calls).getNumBitsLeft) :
    SplitAgrees memory (called memory (construct memory storage bytes) calls) a b ↔
      ((called memory (construct memory storage bytes) calls).overflow = false ∨
        ((a + b : Nat) : Int) ≤ (called memory (construct memory storage bytes) calls).bitsAvail ∨
        ZeroWord memory (called memory (construct memory storage bytes) calls) a b) := by
  obtain ⟨framed, ready⟩ := called_reached memory bytes _ calls
    (construct_reached memory storage bytes (by omega) fits) large
  generalize called memory (construct memory storage bytes) calls = r at left framed ready ⊢
  obtain ⟨inside, stored⟩ := framed.left fits (by omega) left
  by_cases held : ((a + b : Nat) : Int) ≤ r.bitsAvail
  · exact ⟨fun _ => .inr (.inl held), fun _ => split_in_word memory r a b second width held⟩
  · cases raised : r.overflow with
    | false =>
      obtain ⟨position, standing⟩ := ready raised
      have balance : 8 * r.dataIn - r.bitsAvail = position := by
        obtain ⟨-, -, loaded | spent⟩ := standing.standing
        · have := loaded.balance
          omega
        · have := spent.pointer
          omega
      have agrees := split_ready memory bytes r position a b standing first second width (by omega)
      exact ⟨fun _ => .inl rfl, fun _ => agrees⟩
    | true =>
      have aligned := framed.aligned
      rw [split_flagged memory bytes r a b framed fits raised (by omega) first second width (by omega)]
      constructor
      · intro zeros
        exact .inr (.inr zeros)
      · rintro (clear | enough | zeros)
        · exact absurd clear (by decide)
        · exact absurd enough held
        · exact zeros

/-- Eight bits across the second word boundary, asked for after a failed seek. -/
def flaggedStraddle : List Call := [.seek (-1), .seek 28]

/-- The law holds for four bits behind a failed seek, which the word still holds. -/
theorem flagged_word_agrees :
    SplitAgrees (fun _ => 0xFF#8) (called (fun _ => 0xFF#8)
      (construct (fun _ => 0xFF#8) ⟨0, 0, 0, 0, false, false, 0, 0⟩ 8) flaggedStraddle) 1 3 :=
  (split_agrees_iff _ _ 8 flaggedStraddle 1 3 (by decide) (by decide) (by decide) (by decide)
    (by decide) (by decide +kernel)).mpr (.inr (.inl (by decide +kernel)))

/-- Eight set bits across a word boundary are read as zero behind a failed seek. -/
theorem flagged_straddle_differs :
    ¬ SplitAgrees (fun _ => 0xFF#8) (called (fun _ => 0xFF#8)
      (construct (fun _ => 0xFF#8) ⟨0, 0, 0, 0, false, false, 0, 0⟩ 8) flaggedStraddle) 4 4 := by
  rintro ⟨values, -⟩
  exact absurd values (by decide +kernel)

end Sniffles.CBitRead
