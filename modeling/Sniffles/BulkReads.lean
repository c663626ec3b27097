import Sniffles.ReaderRuns

/-!
# Bulk reads

`ReadBits` stores single bytes until its destination is aligned, then words, then
single bytes again and last the bits that do not fill one. Each of the three
loops appends the bytes that follow in the bit sequence, one or four at a time.
The invariant does not mention the alignment: so many bytes have been stored from
the address on, and the reader stands as many bits further, or it has been asked
for more than remained. Where a loop stops only decides how the bytes are divided
among the loops.

The stored bytes and the last state of the reader are thus functions of the reader
and the number of bits. `ReadBytes` takes its number of bytes times eight as an
`int`, and tells exactly whether that many bits were left.
-/

namespace Sniffles.CBitRead

open BitSequences MachineIntegers WhileLoops

/-- The bytes stored so far are those from the position on, and the reader is behind
    them. Before the first one it is the reader at the start. -/
structure Copied (memory : Int → Byte) (bytes position : Nat) (address : Int) (r : CBitRead)
    (s : BulkRead) (count : Nat) : Prop where
  pointer : s.pOut = address + count
  stores : s.stores = storedFrom address (bytesFrom (bitList memory bytes) position count)
  first : count = 0 → s.reader = r
  later : count ≠ 0 → Ready memory bytes s.reader (position + 8 * count)

/-- The invariant of the loops: so many bytes have been read, and copied unless more
    bits were asked for than remained. -/
structure Copying (memory : Int → Byte) (bytes position : Nat) (address : Int) (r : CBitRead)
    (nBits : Nat) (s : BulkRead) (count : Nat) : Prop where
  left : s.nBitsLeft = nBits - 8 * count
  within : 8 * count ≤ nBits
  place : Copied memory bytes position address r s count ∨
    (8 * bytes < position + nBits ∧ Beyond bytes s.reader)

/-- The bytes of the next bits. -/
def copyBytes (memory : Int → Byte) (bytes position nBits : Nat) : List Byte :=
  bytesFrom (bitList memory bytes) position (nBits / 8) ++
    if nBits % 8 = 0 then []
    else [BitVec.ofNat 8 (value (window (bitList memory bytes) (position + 8 * (nBits / 8)) (nBits % 8)))]

/-- What a bulk read leaves behind. Either the bytes of the next bits are stored and the
    reader is behind them, or it has been asked for more than remained. -/
def Delivered (memory : Int → Byte) (bytes position : Nat) (address : Int) (r : CBitRead)
    (nBits : Nat) (outcome : List (Int × Byte) × CBitRead) : Prop :=
  (position + nBits ≤ 8 * bytes ∧
      outcome.1 = storedFrom address (copyBytes memory bytes position nBits) ∧
      (nBits = 0 → outcome.2 = r) ∧
      (nBits ≠ 0 → Ready memory bytes outcome.2 (position + nBits))) ∨
    (8 * bytes < position + nBits ∧ Beyond bytes outcome.2)

/-- The bytes of a bit copy, with the reader behind it. -/
structure BitCopy (memory : Int → Byte) (bytes position nBits : Nat) (text : List Byte)
    (final : CBitRead) : Prop where
  size : text.length = (nBits + 7) / 8
  bits : textBits text = window (bitList memory bytes) position nBits ++
    List.replicate (8 * text.length - nBits) false
  placed : Placed memory bytes final (position + nBits)

/-- `ReadBytes` has a result, which tells whether so many bytes were left. -/
def BytesReported (memory : Int → Byte) (bytes position : Nat) (r : CBitRead) (address : Int)
    (k : Nat) : Prop :=
  ∃ outcome, r.readBytes memory address k = some outcome ∧
    (outcome.1 = true ↔ position + 8 * k ≤ 8 * bytes)

section Loops

variable {memory : Int → Byte} {bytes position : Nat} {address : Int} {r : CBitRead} {nBits : Nat}
  {s : BulkRead} {count : Nat}

/-- The reader behind the copied bytes is placed there. -/
theorem Copied.placed (copied : Copied memory bytes position address r s count)
    (placed : Placed memory bytes r position) :
    Placed memory bytes s.reader (position + 8 * count) := by
  by_cases none : count = 0
  · rw [copied.first none, none]
    exact placed
  · exact .inl (copied.later none)

/-- A round that reads some bytes at once and stores them keeps the invariant. -/
theorem Copying.step (copying : Copying memory bytes position address r nBits s count)
    (placed : Placed memory bytes r position) (width : Nat) (positive : 1 ≤ width)
    (small : width ≤ 4) (enough : ((8 * width : Nat) : Int) ≤ s.nBitsLeft) (next : BulkRead)
    (reader : next.reader = (s.reader.readUBitLong memory (8 * width)).2)
    (pointer : next.pOut = s.pOut + width) (left : next.nBitsLeft = s.nBitsLeft - (8 * width : Nat))
    (stores : position + 8 * count + 8 * width ≤ 8 * bytes →
      (s.reader.readUBitLong memory (8 * width)).1.toNat =
        value (window (bitList memory bytes) (position + 8 * count) (8 * width)) →
      next.stores = s.stores ++
        storedFrom s.pOut (bytesFrom (bitList memory bytes) (position + 8 * count) width)) :
    Copying memory bytes position address r nBits next (count + width) := by
  obtain ⟨remaining, within, place⟩ := copying
  refine ⟨by omega, by omega, ?_⟩
  rcases place with copied | ⟨crossing, beyond⟩
  · rcases (copied.placed placed).read (8 * width) (by omega) (by omega) with
      ⟨inside, result, ready⟩ | ⟨crossing, beyond⟩
    · left
      refine ⟨?_, ?_, ?_, ?_⟩
      · have := copied.pointer
        omega
      · rw [stores inside result, copied.stores, copied.pointer, bytesFrom_add, storedFrom_append,
          bytesFrom_length]
      · intro none
        omega
      · intro _
        have behind : position + 8 * (count + width) = position + 8 * count + 8 * width := by ring
        rw [reader, behind]
        exact ready
    · right
      rw [reader]
      exact ⟨by omega, beyond⟩
  · right
    rw [reader]
    exact ⟨crossing, (serve_beyond memory bytes s.reader
      (.readUBitLong (8 * width) (by omega) (by omega)) beyond).2⟩

/-- A single byte keeps the invariant. -/
theorem Copying.readByte (copying : Copying memory bytes position address r nBits s count)
    (placed : Placed memory bytes r position) (enough : s.nBitsLeft ≥ 8) :
    Copying memory bytes position address r nBits (s.readByte memory) (count + 1) := by
  apply copying.step placed 1 (Nat.le_refl 1) (by decide) enough _ rfl rfl rfl
  intro inside result
  have byte : (s.reader.readUBitLong memory 8).1.setWidth 8 =
      byteAt (bitList memory bytes) (position + 8 * count) := by
    rw [byteAt, ← result, BitVec.ofNat_toNat]
  simp only [BulkRead.readByte, bytesFrom, storedFrom, byte]

/-- A word keeps the invariant. -/
theorem Copying.readDword (copying : Copying memory bytes position address r nBits s count)
    (placed : Placed memory bytes r position) (enough : s.nBitsLeft ≥ 32) :
    Copying memory bytes position address r nBits (s.readDword memory) (count + 4) := by
  apply copying.step placed 4 (by decide) (Nat.le_refl 4) enough _ rfl rfl rfl
  intro inside result
  have word := wordBytes_window (bitList memory bytes) (position + 8 * count) _
    (by rwa [bitList_length]) result
  simp only [BulkRead.readDword]
  rw [← word]

/-- The three loops end with less than a byte left to read.

Every round of every loop is one of the two kinds of rounds, so the invariant goes
through all of them; the test of the last loop bounds what is left. -/
theorem loops_copying (address : Int) (nBits : Nat) (placed : Placed memory bytes r position) :
    ∃ count, Copying memory bytes position address r nBits
      ((byteLoop memory).run ((dwordLoop memory).run
        ((alignLoop memory).run ⟨address, nBits, [], r⟩))) count ∧ nBits < 8 * count + 8 := by
  have start : ∃ count, Copying memory bytes position address r nBits ⟨address, nBits, [], r⟩ count :=
    ⟨0, by simp, by omega, .inl ⟨by simp, rfl, fun _ => rfl, fun none => absurd rfl none⟩⟩
  have single (s : BulkRead) (enough : s.nBitsLeft ≥ 8)
      (kept : ∃ count, Copying memory bytes position address r nBits s count) :
      ∃ count, Copying memory bytes position address r nBits (s.readByte memory) count := by
    obtain ⟨count, copying⟩ := kept
    exact ⟨count + 1, copying.readByte placed enough⟩
  have word (s : BulkRead) (enough : s.nBitsLeft ≥ 32)
      (kept : ∃ count, Copying memory bytes position address r nBits s count) :
      ∃ count, Copying memory bytes position address r nBits (s.readDword memory) count := by
    obtain ⟨count, copying⟩ := kept
    exact ⟨count + 4, copying.readDword placed enough⟩
  obtain ⟨aligned, -⟩ := (alignLoop memory).run_keeps
    (fun s => ∃ count, Copying memory bytes position address r nBits s count)
    (fun s passed => single s (of_decide_eq_true passed).2) _ start
  obtain ⟨words, -⟩ := (dwordLoop memory).run_keeps
    (fun s => ∃ count, Copying memory bytes position address r nBits s count)
    (fun s passed => word s (of_decide_eq_true passed)) _ aligned
  obtain ⟨⟨count, copying⟩, failed⟩ := (byteLoop memory).run_keeps
    (fun s => ∃ count, Copying memory bytes position address r nBits s count)
    (fun s passed => single s (of_decide_eq_true passed)) _ words
  have rest := of_decide_eq_false failed
  have left := copying.left
  exact ⟨count, copying, by omega⟩

/-- Behind whole bytes nothing remains to be read. -/
theorem Copying.readRest_whole (copying : Copying memory bytes position address r nBits s count)
    (placed : Placed memory bytes r position) (whole : 8 * count = nBits) :
    ∃ outcome, s.readRest memory = some outcome ∧
      Delivered memory bytes position address r nBits outcome := by
  obtain ⟨left, within, place⟩ := copying
  have done : s.nBitsLeft = 0 := by omega
  refine ⟨(s.stores, s.reader), by rw [BulkRead.readRest, if_pos done], ?_⟩
  rcases place with copied | ⟨crossing, beyond⟩
  · have behind := copied.placed placed
    have none : nBits % 8 = 0 := by omega
    have bytesRead : nBits / 8 = count := by omega
    rw [whole] at behind
    refine .inl ⟨behind.bound, ?_, ?_, ?_⟩
    · rw [copied.stores, copyBytes, if_pos none, List.append_nil, bytesRead]
    · intro empty
      exact copied.first (by omega)
    · intro more
      have ready := copied.later (by omega)
      rwa [whole] at ready
  · exact .inr ⟨crossing, beyond⟩

/-- Up to seven remaining bits are read into a last byte. -/
theorem Copying.readRest_last (copying : Copying memory bytes position address r nBits s count)
    (placed : Placed memory bytes r position) (more : 8 * count < nBits)
    (last : nBits < 8 * count + 8) :
    ∃ outcome, s.readRest memory = some outcome ∧
      Delivered memory bytes position address r nBits outcome := by
  obtain ⟨left, within, place⟩ := copying
  have bytesRead : nBits / 8 = count := by omega
  have unfilled : nBits % 8 ≠ 0 := by omega
  have remain : s.nBitsLeft ≠ 0 := by omega
  have counted : ¬ s.nBitsLeft < 0 := by omega
  have rest : s.nBitsLeft.toNat = nBits % 8 := by omega
  have behind : position + 8 * count + nBits % 8 = position + nBits := by omega
  refine ⟨_, by rw [BulkRead.readRest, if_neg remain, if_neg counted, rest], ?_⟩
  rcases place with copied | ⟨crossing, beyond⟩
  · rcases (copied.placed placed).read (nBits % 8) (by omega) (by omega) with
      ⟨inside, result, ready⟩ | ⟨crossing, beyond⟩
    · rw [behind] at inside ready
      refine .inl ⟨inside, ?_, ?_, fun _ => ready⟩
      · have byte : (s.reader.readUBitLong memory (nBits % 8)).1.setWidth 8 =
            BitVec.ofNat 8 (value (window (bitList memory bytes) (position + 8 * count)
              (nBits % 8))) := by
          rw [← result, BitVec.ofNat_toNat]
        rw [copyBytes, if_neg unfilled, bytesRead, storedFrom_append, bytesFrom_length,
          ← copied.stores, ← copied.pointer, ← byte]
        rfl
      · intro empty
        omega
    · rw [behind] at crossing
      exact .inr ⟨crossing, beyond⟩
  · exact .inr ⟨crossing, (serve_beyond memory bytes s.reader
      (.readUBitLong (nBits % 8) (by omega) (by omega)) beyond).2⟩

/-- A bulk read of a number of bits has a result. Either it stored their bytes and
    the reader is behind them, or more bits were asked for than remained. -/
theorem readBits_result (placed : Placed memory bytes r position) (address : Int) (nBits : Nat) :
    ∃ outcome, r.readBits memory address nBits = some outcome ∧
      Delivered memory bytes position address r nBits outcome := by
  obtain ⟨count, copying, last⟩ := loops_copying address nBits placed
  rcases Nat.eq_or_lt_of_le copying.within with whole | more
  · exact copying.readRest_whole placed whole
  · exact copying.readRest_last placed more last

end Loops

/-- A last byte is stored only if the bits do not fill the others. -/
theorem copyBytes_size (memory : Int → Byte) (bytes position nBits : Nat) :
    (copyBytes memory bytes position nBits).length = (nBits + 7) / 8 := by
  rw [copyBytes, List.length_append, bytesFrom_length]
  split_ifs with whole
  · rw [List.length_nil]
    omega
  · rw [List.length_singleton]
    omega

/-- The stored bytes list the window, with zeros behind it up to a whole byte. -/
theorem copyBytes_bits (memory : Int → Byte) (bytes position nBits : Nat)
    (inside : position + nBits ≤ 8 * bytes) :
    textBits (copyBytes memory bytes position nBits) =
      window (bitList memory bytes) position nBits ++
        List.replicate (8 * (copyBytes memory bytes position nBits).length - nBits) false := by
  have whole := textBits_bytesFrom (bitList memory bytes) position (nBits / 8)
    (by rw [bitList_length]; omega)
  rw [copyBytes_size, copyBytes]
  by_cases none : nBits % 8 = 0
  · have filled : 8 * (nBits / 8) = nBits := by omega
    have padding : 8 * ((nBits + 7) / 8) - nBits = 0 := by omega
    rw [if_pos none, padding, List.append_nil, List.replicate_zero, List.append_nil, whole, filled]
  · have divided : nBits = 8 * (nBits / 8) + nBits % 8 := by omega
    have length : (window (bitList memory bytes) (position + 8 * (nBits / 8)) (nBits % 8)).length =
        nBits % 8 := by
      simp only [window, List.length_take, List.length_drop, bitList_length]
      omega
    have padding : 8 * ((nBits + 7) / 8) - nBits = 8 - nBits % 8 := by omega
    have parts : window (bitList memory bytes) position nBits =
        window (bitList memory bytes) position (8 * (nBits / 8)) ++
          window (bitList memory bytes) (position + 8 * (nBits / 8)) (nBits % 8) := by
      rw [← window_add, ← divided]
    have last := byteBits_padded
      (window (bitList memory bytes) (position + 8 * (nBits / 8)) (nBits % 8)) (by omega)
    rw [length] at last
    rw [if_neg none, textBits, List.flatMap_append, List.flatMap_singleton, last, padding, parts,
      List.append_assoc, ← whole]
    rfl

/-- A bulk read of a negative number of bits has no defined result. -/
theorem readBits_negative (memory : Int → Byte) (r : CBitRead) (address nBits : Int)
    (negative : nBits < 0) : r.readBits memory address nBits = none := by
  have aligned : (alignLoop memory).run ⟨address, nBits, [], r⟩ = ⟨address, nBits, [], r⟩ :=
    Loop.run_idle _ _ (decide_eq_false (by simp only; omega))
  have words : (dwordLoop memory).run ⟨address, nBits, [], r⟩ = ⟨address, nBits, [], r⟩ :=
    Loop.run_idle _ _ (decide_eq_false (by simp only; omega))
  have single : (byteLoop memory).run ⟨address, nBits, [], r⟩ = ⟨address, nBits, [], r⟩ :=
    Loop.run_idle _ _ (decide_eq_false (by simp only; omega))
  have other : ¬ nBits = 0 := by omega
  simp only [readBits, BulkRead.readRest, aligned, words, single, other, if_false, negative, if_true]

/-- Where a bulk read within the buffer leaves a placed reader. -/
theorem Placed.behind {memory : Int → Byte} {bytes position nBits : Nat} {r final : CBitRead}
    (placed : Placed memory bytes r position) (first : nBits = 0 → final = r)
    (later : nBits ≠ 0 → Ready memory bytes final (position + nBits)) :
    Placed memory bytes final (position + nBits) := by
  by_cases none : nBits = 0
  · rw [first none, none]
    exact placed
  · exact .inl (later none)

/-- A bulk read within the buffer copies its bits, to every address alike. -/
theorem readBits_copies (memory : Int → Byte) (bytes position : Nat) (r : CBitRead)
    (placed : Placed memory bytes r position) (nBits : Nat) (inside : position + nBits ≤ 8 * bytes) :
    ∃ text final, BitCopy memory bytes position nBits text final ∧
      ∀ address : Int, r.readBits memory address nBits = some (storedFrom address text, final) := by
  have result (address : Int) : ∃ outcome, r.readBits memory address nBits = some outcome ∧
      outcome.1 = storedFrom address (copyBytes memory bytes position nBits) ∧
      (nBits = 0 → outcome.2 = r) ∧
      (nBits ≠ 0 → Ready memory bytes outcome.2 (position + nBits)) := by
    obtain ⟨outcome, returned, ⟨-, copied⟩ | ⟨crossing, -⟩⟩ := readBits_result placed address nBits
    · exact ⟨outcome, returned, copied⟩
    · omega
  obtain ⟨⟨_, final⟩, -, -, first, later⟩ := result 0
  refine ⟨copyBytes memory bytes position nBits, final,
    ⟨copyBytes_size .., copyBytes_bits _ _ _ _ inside, placed.behind first later⟩, ?_⟩
  · intro address
    obtain ⟨⟨stores, behind⟩, returned, rfl, first', later'⟩ := result address
    have same : behind = final := by
      by_cases none : nBits = 0
      · exact (first' none).trans (first none).symm
      · exact (later' none).unique (later none)
    rw [returned, same]

/-- Within the buffer `ReadBytes` has the result that so many bits were left. -/
theorem readBytes_result (memory : Int → Byte) (bytes position : Nat) (r : CBitRead)
    (placed : Placed memory bytes r position) (address : Int) (k nBits : Nat)
    (wrapped : int32 (8 * k) = nBits) :
    ∃ outcome, r.readBytes memory address k = some outcome ∧
      (outcome.1 = true ↔ position + nBits ≤ 8 * bytes) := by
  obtain ⟨⟨stores, behind⟩, returned, within | ⟨crossing, beyond⟩⟩ :=
    readBits_result placed address nBits
  · obtain ⟨inside, -, first, later⟩ := within
    have clear : behind.overflow = false := (placed.behind first later).clear
    refine ⟨(!behind.isOverflowed, stores, behind), ?_, ?_⟩
    · rw [readBytes, wrapped, returned]
      rfl
    · simp [isOverflowed, clear, inside]
  · refine ⟨(!behind.isOverflowed, stores, behind), ?_, ?_⟩
    · rw [readBytes, wrapped, returned]
      rfl
    · have raised : behind.overflow = true := beyond.flag
      simp [isOverflowed, raised, Nat.not_le_of_lt crossing]

/-- Bulk reads are plain bit copies, whatever the alignment of their destination;
    and the result of `ReadBytes` says whether so many bytes were left exactly if
    their bits fit an `int`, or wrap to a number of bits that is itself more than
    were left. -/
theorem bulk_reads_exact (memory : Int → Byte) (bytes position : Nat) (r : CBitRead)
    (fits : 8 * bytes < 2147483648) (placed : Placed memory bytes r position) :
    (∀ nBits : Nat, position + nBits ≤ 8 * bytes →
      ∃ text final, BitCopy memory bytes position nBits text final ∧
        ∀ address : Int, r.readBits memory address nBits = some (storedFrom address text, final)) ∧
      ∀ (address : Int) (k : Nat), BytesReported memory bytes position r address k ↔
        (8 * k < 2147483648 ∨ ((8 * bytes - position : Nat) : Int) < int32 (8 * k)) := by
  have bound := placed.bound
  refine ⟨readBits_copies memory bytes position r placed, ?_⟩
  intro address k
  constructor
  · rintro ⟨outcome, returned, exact⟩
    by_contra wraps
    rcases lt_or_ge (int32 (8 * k)) 0 with negative | counted
    · rw [readBytes, readBits_negative memory r address _ negative] at returned
      cases returned
    · obtain ⟨nBits, wrapped⟩ := Int.eq_ofNat_of_zero_le counted
      obtain ⟨other, same, judged⟩ := readBytes_result memory bytes position r placed address k nBits
        wrapped
      rw [returned] at same
      obtain rfl := Option.some.inj same
      have agree := exact.symm.trans judged
      omega
  · rintro (small | more)
    · exact readBytes_result memory bytes position r placed address k (8 * k)
        (int32_of_fits (by omega) (by omega))
    · have counted : 0 ≤ int32 (8 * k) := by omega
      obtain ⟨nBits, wrapped⟩ := Int.eq_ofNat_of_zero_le counted
      obtain ⟨outcome, returned, judged⟩ := readBytes_result memory bytes position r placed address k
        nBits wrapped
      refine ⟨outcome, returned, judged.trans ?_⟩
      have above : nBits ≤ 8 * k := by
        unfold int32 at wrapped
        omega
      constructor
      · intro inside
        omega
      · intro inside
        omega

/-- Twenty bits behind the third of a six-byte buffer are copied to any address, and
    four bytes are reported to be left there. -/
theorem twenty_bits_copied :
    (∃ text final, BitCopy (fun _ => 0xA5#8) 6 3 20 text final ∧ ∀ address : Int,
        (((construct (fun _ => 0xA5#8) ⟨0, 0, 0, 0, false, false, 0, 0⟩ 6).seek (fun _ => 0xA5#8)
          ((3 : Nat) : Int)).2).readBits (fun _ => 0xA5#8) address ((20 : Nat) : Int) =
            some (storedFrom address text, final)) ∧
      BytesReported (fun _ => 0xA5#8) 6 3
        ((construct (fun _ => 0xA5#8) ⟨0, 0, 0, 0, false, false, 0, 0⟩ 6).seek (fun _ => 0xA5#8)
          ((3 : Nat) : Int)).2 1 4 := by
  have opened := construct_at (fun _ => 0xA5#8) ⟨0, 0, 0, 0, false, false, 0, 0⟩ 6 (by decide)
    (by decide)
  have standing := (seek_at (fun _ => 0xA5#8) 6 false _ 3 opened.opened opened.flag (by decide)
    (by decide)).2
  obtain ⟨copies, reported⟩ := bulk_reads_exact _ 6 3 _ (by decide) standing.placed
  exact ⟨copies 20 (by decide), (reported 1 4).mpr (.inl (by decide))⟩

/-- The bits of 2^29 bytes wrap to none, which are left in every buffer. -/
theorem no_bits_reported :
    ¬ BytesReported (fun _ => 0) 1 0 (construct (fun _ => 0) ⟨0, 0, 0, 0, false, false, 0, 0⟩ 1) 0
      536870912 := by
  rintro ⟨outcome, returned, left⟩
  have standing := construct_at (fun _ => 0) ⟨0, 0, 0, 0, false, false, 0, 0⟩ 1 (by decide) (by decide)
  obtain ⟨other, same, judged⟩ := readBytes_result (fun _ => 0) 1 0 _ standing.placed 0 536870912 0
    (by decide)
  rw [returned] at same
  obtain rfl := Option.some.inj same
  have agree := left.symm.trans judged
  exact absurd (agree.mpr (by decide)) (by decide)

end Sniffles.CBitRead
