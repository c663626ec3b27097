import Sniffles.ReachedReaders

/-!
# Two ways to read a bit

`ReadBit` repeats `ReadOneBit` with the refill written out. The traced versions
of both also list the addresses of the words they load, and forgetting the list
gives the functions back.

The copies agree while bits are left in the word and while the refill finds a
complete word. At the end they part: `ReadOneBit` installs the fake word, whereas
`ReadBit` runs on through the remaining branches, raises the flag and loads a
word from behind the buffer.
-/

namespace Sniffles.CBitRead

open BitSequences MachineIntegers

/-- `GrabNextDWord` with the addresses of the words it loads. -/
def grabNextDWordTraced (memory : Int → Byte) (r : CBitRead) (bOverFlowImmediately : Bool) :
    CBitRead × List Int :=
  if r.dataIn = r.bufferEnd then
    ({ r with
      bitsAvail := 1
      inBufWord := 0
      dataIn := r.dataIn + 4
      overflow := r.overflow || bOverFlowImmediately }, [])
  else if r.dataIn > r.bufferEnd then
    ({ r with overflow := true, inBufWord := 0 }, [])
  else
    ({ r with inBufWord := loadWord memory r.dataIn, dataIn := r.dataIn + 4 }, [r.dataIn])

def fetchNextTraced (memory : Int → Byte) (r : CBitRead) : CBitRead × List Int :=
  grabNextDWordTraced memory { r with bitsAvail := 32 } false

def readOneBitTraced (memory : Int → Byte) (r : CBitRead) : (Int × CBitRead) × List Int :=
  let nRet : Int := (r.inBufWord &&& 1#32).toNat
  let r := { r with bitsAvail := int32 (r.bitsAvail - 1) }
  if r.bitsAvail = 0 then
    let (r, loads) := r.fetchNextTraced memory
    ((nRet, r), loads)
  else ((nRet, { r with inBufWord := r.inBufWord >>> 1 }), [])

def readBitTraced (memory : Int → Byte) (r : CBitRead) : (Int × CBitRead) × List Int :=
  let nRet : Int := (r.inBufWord &&& 1#32).toNat
  let v10 : Bool := r.bitsAvail = 1
  let r := { r with bitsAvail := int32 (r.bitsAvail - 1) }
  if v10 then
    let r := { r with bitsAvail := 32 }
    let r :=
      if r.dataIn = r.bufferEnd then { r with bitsAvail := 1, inBufWord := 0, dataIn := r.dataIn + 4 }
      else r
    let r := if r.dataIn > r.bufferEnd then { r with overflow := true, inBufWord := 0 } else r
    ((nRet, { r with inBufWord := loadWord memory r.dataIn, dataIn := r.dataIn + 4 }), [r.dataIn])
  else ((nRet, { r with inBufWord := r.inBufWord >>> 1 }), [])

/-- Forgetting the loads of a refill gives the refill. -/
theorem fetchNextTraced_fst (memory : Int → Byte) (r : CBitRead) :
    (r.fetchNextTraced memory).1 = r.fetchNext memory := by
  simp only [fetchNextTraced, grabNextDWordTraced, fetchNext, grabNextDWord]
  split_ifs <;> rfl

/-- Forgetting the loads of the traced `ReadOneBit` gives `ReadOneBit`. -/
theorem readOneBitTraced_fst (memory : Int → Byte) (r : CBitRead) :
    (r.readOneBitTraced memory).1 = r.readOneBit memory := by
  by_cases last : int32 (r.bitsAvail - 1) = 0
  · simp only [readOneBitTraced, readOneBit, last, if_true, fetchNextTraced_fst]
  · simp only [readOneBitTraced, readOneBit, last, if_false]

/-- Forgetting the loads of the traced `ReadBit` gives `ReadBit`. -/
theorem readBitTraced_fst (memory : Int → Byte) (r : CBitRead) :
    (r.readBitTraced memory).1 = r.readBit memory := by
  simp only [readBitTraced, readBit]
  split_ifs <;> rfl

/-- A call of any read or of `Seek` with a target inside the buffer. -/
inductive Step (bytes : Nat) where
  | readOneBit
  | readBit
  | readUBitLong (numbits : Nat) (positive : 1 ≤ numbits) (width : numbits ≤ 32)
  | readSBitLong (numbits : Nat) (positive : 1 ≤ numbits) (width : numbits ≤ 32)
  | seek (nPosition : Nat) (inside : nPosition ≤ 8 * bytes)

/-- The reader after a call. -/
def stepped {bytes : Nat} (memory : Int → Byte) (r : CBitRead) : Step bytes → CBitRead
  | .readOneBit => (r.readOneBit memory).2
  | .readBit => (r.readBit memory).2
  | .readUBitLong numbits _ _ => (r.readUBitLong memory numbits).2
  | .readSBitLong numbits _ _ => (r.readSBitLong memory numbits).2
  | .seek nPosition _ => (r.seek memory nPosition).2

/-- The reader after a sequence of calls. -/
def walked {bytes : Nat} (memory : Int → Byte) (r : CBitRead) (steps : List (Step bytes)) : CBitRead :=
  steps.foldl (fun r step => r.stepped memory step) r

/-- Both functions return the same bit and leave the same reader, and neither
    loads a word at or behind the end. -/
structure BitReadsAgree (memory : Int → Byte) (r : CBitRead) : Prop where
  same : r.readBit memory = r.readOneBit memory
  readBitLoads : ∀ address ∈ (r.readBitTraced memory).2, address < r.bufferEnd
  readOneBitLoads : ∀ address ∈ (r.readOneBitTraced memory).2, address < r.bufferEnd

/-- With other bits left in the word both shift it and load nothing. -/
theorem bit_reads_held (memory : Int → Byte) (r : CBitRead) (available : Available r)
    (more : r.bitsAvail ≠ 1) : BitReadsAgree memory r := by
  obtain ⟨lower, upper⟩ := available
  have stored : int32 (r.bitsAvail - 1) = r.bitsAvail - 1 := int32_of_fits (by omega) (by omega)
  have rest : r.bitsAvail - 1 ≠ 0 := by omega
  constructor
  · simp [readBit, readOneBit, stored, rest, more]
  · simp [readBitTraced, more]
  · simp [readOneBitTraced, stored, rest]

/-- With the last bit both load the next complete word. -/
theorem bit_reads_refilled (memory : Int → Byte) (r : CBitRead) (last : r.bitsAvail = 1)
    (before : r.dataIn < r.bufferEnd) : BitReadsAgree memory r := by
  have emptied : int32 (1 - 1) = 0 := by decide
  have notEnd : r.dataIn ≠ r.bufferEnd := by omega
  have notPast : ¬ r.dataIn > r.bufferEnd := by omega
  constructor
  · simp only [readBit, readOneBit, fetchNext, grabNextDWord, last, emptied, notEnd, notPast,
      decide_true, if_true, if_false]
  · simp only [readBitTraced, last, notEnd, notPast, decide_true, if_true, if_false, List.mem_singleton]
    rintro address rfl
    exact before
  · simp only [readOneBitTraced, fetchNextTraced, grabNextDWordTraced, last, emptied, notEnd, notPast,
      if_true, if_false, List.mem_singleton]
    rintro address rfl
    exact before

/-- With the last bit and no word left `ReadBit` loads from behind the buffer. -/
theorem bit_reads_parted (memory : Int → Byte) (r : CBitRead) (last : r.bitsAvail = 1)
    (ended : r.bufferEnd ≤ r.dataIn) : ¬ BitReadsAgree memory r := by
  intro agree
  rcases lt_or_eq_of_le ended with past | finished
  · have outside := agree.readBitLoads r.dataIn (by
      have notEnd : r.dataIn ≠ r.bufferEnd := by omega
      simp [readBitTraced, last, notEnd, past])
    omega
  · have outside := agree.readBitLoads (r.dataIn + 4) (by
      simp [readBitTraced, last, finished])
    omega

/-- A refill changes none of the members that describe the buffer. -/
theorem fetchNext_opened (memory : Int → Byte) (bytes : Nat) (r : CBitRead)
    (opened : Opened bytes r) : Opened bytes (r.fetchNext memory) := by
  obtain ⟨data, dataBytes, dataBits, bufferEnd⟩ := opened
  simp only [fetchNext, grabNextDWord]
  split_ifs <;> exact ⟨data, dataBytes, dataBits, bufferEnd⟩

/-- Neither does an unsigned read. -/
theorem readUBitLong_opened (memory : Int → Byte) (bytes : Nat) (r : CBitRead) (count : Nat)
    (opened : Opened bytes r) : Opened bytes (r.readUBitLong memory count).2 := by
  obtain ⟨data, dataBytes, dataBits, bufferEnd⟩ := opened
  rcases lt_trichotomy r.bitsAvail count with short | emptied | more
  · simp only [readUBitLong, if_neg (Int.not_le.mpr short), grabNextDWord, ge_iff_le]
    split_ifs <;> exact ⟨data, dataBytes, dataBits, bufferEnd⟩
  · rw [readUBitLong_emptied memory r count emptied]
    exact fetchNext_opened memory bytes { r with bitsAvail := 0 } ⟨data, dataBytes, dataBits, bufferEnd⟩
  · rw [readUBitLong_held memory r count more]
    exact ⟨data, dataBytes, dataBits, bufferEnd⟩

/-- The copied refill leaves a bit in hand and the members of the buffer alone. -/
theorem readBit_kept (memory : Int → Byte) (bytes : Nat) (r : CBitRead) (opened : Opened bytes r)
    (available : Available r) :
    Opened bytes (r.readBit memory).2 ∧ Available (r.readBit memory).2 := by
  obtain ⟨data, dataBytes, dataBits, bufferEnd⟩ := opened
  obtain ⟨lower, upper⟩ := available
  have stored : int32 (r.bitsAvail - 1) = r.bitsAvail - 1 := int32_of_fits (by omega) (by omega)
  by_cases last : r.bitsAvail = 1
  · simp only [readBit, last, decide_true, if_true]
    constructor
    · split_ifs <;> exact ⟨data, dataBytes, dataBits, bufferEnd⟩
    · unfold Available
      split_ifs <;> simp
  · simp only [readBit, last, decide_false, Bool.false_eq_true, if_false, stored]
    refine ⟨⟨data, dataBytes, dataBits, bufferEnd⟩, ?_, ?_⟩ <;> simp only <;> omega

/-- Every call keeps the members of the buffer and leaves a bit in hand. -/
theorem stepped_kept (memory : Int → Byte) (bytes : Nat) (r : CBitRead) (step : Step bytes)
    (large : 4 ≤ bytes) (opened : Opened bytes r) (available : Available r) :
    Opened bytes (r.stepped memory step) ∧ Available (r.stepped memory step) := by
  cases step with
  | readOneBit =>
    have single := congrArg Prod.snd (readOneBit_eq memory r available.1 available.2)
    simp only [stepped, single]
    exact ⟨readUBitLong_opened memory bytes r 1 opened,
      readUBitLong_available memory r 1 (by decide) available⟩
  | readBit => exact readBit_kept memory bytes r opened available
  | readUBitLong numbits positive width =>
    exact ⟨readUBitLong_opened memory bytes r numbits opened,
      readUBitLong_available memory r numbits width available⟩
  | readSBitLong numbits positive width =>
    exact ⟨readUBitLong_opened memory bytes r numbits opened,
      readUBitLong_available memory r numbits width available⟩
  | seek nPosition inside =>
    obtain ⟨-, standing⟩ := seek_at memory bytes r.overflow r nPosition opened rfl (by omega) inside
    exact ⟨standing.opened, standing.available (.inr large)⟩

/-- So does every sequence of calls. -/
theorem walked_kept (memory : Int → Byte) (bytes : Nat) (r : CBitRead) (steps : List (Step bytes))
    (large : 4 ≤ bytes) (opened : Opened bytes r) (available : Available r) :
    Opened bytes (walked memory r steps) ∧ Available (walked memory r steps) := by
  induction steps generalizing r with
  | nil => exact ⟨opened, available⟩
  | cons step rest inductionHypothesis =>
    obtain ⟨opened, available⟩ := stepped_kept memory bytes r step large opened available
    exact inductionHypothesis _ opened available

/-- In every reader that reads and seeks can reach, `ReadBit` and `ReadOneBit` are
    the same operation exactly if they do not take the last bit in hand with no
    complete word left behind it. -/
theorem bit_reads_agree_iff (memory : Int → Byte) (storage : CBitRead) (bytes : Nat)
    (steps : List (Step bytes)) (large : 4 ≤ bytes) (fits : 8 * bytes < 2147483648) :
    BitReadsAgree memory (walked memory (construct memory storage bytes) steps) ↔
      ¬ ((walked memory (construct memory storage bytes) steps).bitsAvail = 1 ∧
        (walked memory (construct memory storage bytes) steps).bufferEnd ≤
          (walked memory (construct memory storage bytes) steps).dataIn) := by
  have ready := construct_ready memory storage bytes (by omega) fits
  obtain ⟨-, available⟩ := walked_kept memory bytes _ steps large ready.standing.opened ready.available
  generalize walked memory (construct memory storage bytes) steps = r at available ⊢
  by_cases last : r.bitsAvail = 1
  · by_cases ended : r.bufferEnd ≤ r.dataIn
    · have parted := bit_reads_parted memory r last ended
      exact ⟨fun agree => absurd agree parted, fun other => absurd ⟨last, ended⟩ other⟩
    · have agree := bit_reads_refilled memory r last (by omega)
      exact ⟨fun _ both => ended both.2, fun _ => agree⟩
  · have agree := bit_reads_held memory r available last
    exact ⟨fun _ both => last both.1, fun _ => agree⟩

/-- The two agree behind a read and a seek into the second word. -/
theorem sought_bit_agrees :
    BitReadsAgree (fun _ => 0xA5#8)
      (walked (fun _ => 0xA5#8) (construct (fun _ => 0xA5#8) ⟨0, 0, 0, 0, false, false, 0, 0⟩ 8)
        [(.readUBitLong 7 (by decide) (by decide) : Step 8), .seek 45 (by decide)]) :=
  (bit_reads_agree_iff _ _ 8 _ (by decide) (by decide)).mpr (by decide +kernel)

/-- They do not agree on the last bit of a buffer of one word. -/
theorem last_bit_differs :
    ¬ BitReadsAgree (fun _ => 0xA5#8)
      (walked (fun _ => 0xA5#8) (construct (fun _ => 0xA5#8) ⟨0, 0, 0, 0, false, false, 0, 0⟩ 4)
        [(.readUBitLong 31 (by decide) (by decide) : Step 4)]) := by
  intro agree
  exact absurd agree.same (by decide +kernel)

end Sniffles.CBitRead
