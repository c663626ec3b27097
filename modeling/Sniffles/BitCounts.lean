import Sniffles.ReaderRuns

/-!
# The declared bit count

Only seeks and the reported position consult the number of bits that a reader has
been opened with. Every read, and every seek to a position that two counts admit,
leaves the same reader behind under either of them.
-/

namespace Sniffles.CBitRead

open BitSequences MachineIntegers

/-- The same reader with another bit count. -/
def withBits (r : CBitRead) (nBits : Int) : CBitRead := { r with dataBits := nBits }

@[simp] theorem withBits_overflow (r : CBitRead) (nBits : Int) :
    (r.withBits nBits).overflow = r.overflow := rfl

/-- Loading the next word does not see the bit count. -/
theorem grabNextDWord_withBits (memory : Int → Byte) (r : CBitRead) (nBits : Int)
    (immediately : Bool) :
    (r.withBits nBits).grabNextDWord memory immediately =
      (r.grabNextDWord memory immediately).withBits nBits := by
  rcases lt_trichotomy r.dataIn r.bufferEnd with before | finished | past
  · rw [grabNextDWord_inside memory r immediately before,
      grabNextDWord_inside memory (r.withBits nBits) immediately before]
    rfl
  · rw [grabNextDWord_end memory r immediately finished,
      grabNextDWord_end memory (r.withBits nBits) immediately finished]
    rfl
  · rw [grabNextDWord_past memory r immediately past,
      grabNextDWord_past memory (r.withBits nBits) immediately past]
    rfl

/-- Neither does a refill. -/
theorem fetchNext_withBits (memory : Int → Byte) (r : CBitRead) (nBits : Int) :
    (r.withBits nBits).fetchNext memory = (r.fetchNext memory).withBits nBits :=
  grabNextDWord_withBits memory { r with bitsAvail := 32 } nBits false

/-- Neither does an unsigned read. -/
theorem readUBitLong_withBits (memory : Int → Byte) (r : CBitRead) (nBits : Int) (count : Nat) :
    (r.withBits nBits).readUBitLong memory count =
      ((r.readUBitLong memory count).1, (r.readUBitLong memory count).2.withBits nBits) := by
  rcases lt_trichotomy r.bitsAvail count with short | emptied | more
  · rcases lt_trichotomy r.dataIn r.bufferEnd with before | finished | past
    · have merging : ¬ r.bitsAvail ≥ count := by omega
      have merging' : ¬ (r.withBits nBits).bitsAvail ≥ count := merging
      simp only [readUBitLong, if_neg merging, if_neg merging', grabNextDWord_withBits]
      cases raised : (r.grabNextDWord memory true).overflow <;> simp [withBits, raised]
    · rw [readUBitLong_finished memory r count short finished,
        readUBitLong_finished memory (r.withBits nBits) count short finished]
      rfl
    · rw [readUBitLong_past memory r count short past,
        readUBitLong_past memory (r.withBits nBits) count short past]
      rfl
  · rw [readUBitLong_emptied memory r count emptied,
      readUBitLong_emptied memory (r.withBits nBits) count emptied]
    exact congrArg (Prod.mk _) (fetchNext_withBits memory { r with bitsAvail := 0 } nBits)
  · rw [readUBitLong_held memory r count more,
      readUBitLong_held memory (r.withBits nBits) count more]
    rfl

/-- Neither does any request. -/
theorem serve_withBits (memory : Int → Byte) (r : CBitRead) (nBits : Int) (request : Request) :
    (r.withBits nBits).serve memory request =
      ((r.serve memory request).1, (r.serve memory request).2.withBits nBits) := by
  cases request with
  | readOneBit =>
    by_cases last : int32 (r.bitsAvail - 1) = 0
    · simp only [serve, readOneBit_emptied memory r last,
        readOneBit_emptied memory (r.withBits nBits) last]
      exact congrArg (Prod.mk _) (fetchNext_withBits memory { r with bitsAvail := 0 } nBits)
    · simp only [serve, readOneBit_held memory r last,
        readOneBit_held memory (r.withBits nBits) last]
      rfl
  | readUBitLong numbits positive width =>
    simp only [serve, readUBitLong_withBits]

/-- A whole run is the same run, whatever the bit count. -/
theorem run_withBits (memory : Int → Byte) (r : CBitRead) (nBits : Int) (requests : List Request) :
    run memory (r.withBits nBits) requests = (run memory r requests).withBits nBits := by
  induction requests generalizing r with
  | nil => rfl
  | cons request rest inductionHypothesis =>
    have next := congrArg Prod.snd (serve_withBits memory r nBits request)
    exact (congrArg (fun r => run memory r rest) next).trans (inductionHypothesis _)

/-- An admitted seek beyond the partial head loads the word at the position. -/
theorem seek_loaded (memory : Int → Byte) (r : CBitRead) (position : Int) (data : r.data = true)
    (low : 0 ≤ position) (inside : position ≤ r.dataBits)
    (word : ¬ (r.dataBytes < 4 ∨
      r.dataBytes % 4 ≠ 0 ∧ position.tdiv 8 < ((r.dataBytes % 4 : Nat) : Int))) :
    let nAdjPosition := position - 8 * ((r.dataBytes % 4 : Nat) : Int)
    let loaded := grabNextDWord memory { r with
      dataIn := 4 * nAdjPosition.tdiv 32 + ((r.dataBytes % 4 : Nat) : Int)
      bitsAvail := 32 } false
    (r.seek memory position).2 = { loaded with
      inBufWord := loaded.inBufWord >>> (nAdjPosition % 32).toNat
      bitsAvail := min loaded.bitsAvail (32 - nAdjPosition % 32) } := by
  have admitted : (!(decide (position < 0) || decide (position > r.dataBits))) = true := by
    simp only [Bool.not_eq_true', Bool.or_eq_false_iff, decide_eq_false_iff_not]
    omega
  simp only [seek, admitted, if_true, word, if_false, data]

/-- An admitted seek into the partial head rebuilds its word. -/
theorem seek_short_head (memory : Int → Byte) (r : CBitRead) (position : Int) (data : r.data = true)
    (low : 0 ≤ position) (inside : position ≤ r.dataBits)
    (head : r.dataBytes < 4 ∨
      r.dataBytes % 4 ≠ 0 ∧ position.tdiv 8 < ((r.dataBytes % 4 : Nat) : Int)) :
    (r.seek memory position).2 = { r with
      dataIn := headBytes (r.dataBytes % 4)
      inBufWord := headWord memory (r.dataBytes % 4) >>> (position % 32).toNat
      bitsAvail := 8 * ((r.dataBytes % 4 : Nat) : Int) - position % 32 } := by
  have admitted : (!(decide (position < 0) || decide (position > r.dataBits))) = true := by
    simp only [Bool.not_eq_true', Bool.or_eq_false_iff, decide_eq_false_iff_not]
    omega
  simp only [seek, admitted, if_true, head, data]

/-- A seek that both bit counts admit does not tell them apart either. -/
theorem seek_withBits (memory : Int → Byte) (r : CBitRead) (nBits position : Int)
    (data : r.data = true) (low : 0 ≤ position) (inside : position ≤ r.dataBits)
    (declared : position ≤ nBits) :
    ((r.withBits nBits).seek memory position).2 = (r.seek memory position).2.withBits nBits := by
  by_cases head : r.dataBytes < 4 ∨
      r.dataBytes % 4 ≠ 0 ∧ position.tdiv 8 < ((r.dataBytes % 4 : Nat) : Int)
  · rw [seek_short_head memory r position data low inside head,
      seek_short_head memory (r.withBits nBits) position data low declared head]
    rfl
  · have whole := seek_loaded memory r position data low inside head
    have limited := seek_loaded memory (r.withBits nBits) position data low declared head
    have same := grabNextDWord_withBits memory { r with
      dataIn := 4 * (position - 8 * ((r.dataBytes % 4 : Nat) : Int)).tdiv 32 +
        ((r.dataBytes % 4 : Nat) : Int)
      bitsAvail := 32 } nBits false
    refine limited.trans (Eq.trans ?_ (congrArg (withBits · nBits) whole.symm))
    exact congrArg (fun loaded : CBitRead => { loaded with
        inBufWord := loaded.inBufWord >>> ((position - 8 * ((r.dataBytes % 4 : Nat) : Int)) % 32).toNat
        bitsAvail := min loaded.bitsAvail (32 - (position - 8 * ((r.dataBytes % 4 : Nat) : Int)) % 32) })
      same

/-- The members that opening a buffer sets before its first seek. -/
def opening (storage : CBitRead) (bytes : Nat) (nBits : Int) : CBitRead :=
  { storage with
    data := true, dataIn := 0, dataBytes := bytes, dataBits := nBits, overflow := false,
    bufferEnd := bytes }

/-- The members of a reader opened with the default bit count, which is the number of bits of
    the buffer as an `int`. A count that has wrapped to a negative number has raised the flag
    with the first seek. -/
structure Counted (bytes : Nat) (r : CBitRead) : Prop where
  data : r.data = true
  dataBytes : r.dataBytes = bytes
  dataBits : r.dataBits = int32 (8 * bytes)
  bufferEnd : r.bufferEnd = bytes
  refused : r.dataBits < 0 → r.overflow = true

/-- A call changes none of these members and does not clear the flag. -/
structure Kept (r next : CBitRead) : Prop where
  data : next.data = r.data
  dataBytes : next.dataBytes = r.dataBytes
  dataBits : next.dataBits = r.dataBits
  bufferEnd : next.bufferEnd = r.bufferEnd
  sticky : r.overflow = true → next.overflow = true

/-- What one call keeps another one may keep as well. -/
theorem Kept.trans {first second third : CBitRead} (one : Kept first second)
    (other : Kept second third) : Kept first third :=
  ⟨other.data.trans one.data, other.dataBytes.trans one.dataBytes,
    other.dataBits.trans one.dataBits, other.bufferEnd.trans one.bufferEnd,
    fun raised => other.sticky (one.sticky raised)⟩

/-- The members that a read changes are not among them. -/
theorem kept_moved (r : CBitRead) (word : BitVec 32) (avail pointer : Int) :
    Kept r { r with inBufWord := word, bitsAvail := avail, dataIn := pointer } :=
  ⟨rfl, rfl, rfl, rfl, id⟩

theorem grabNextDWord_kept (memory : Int → Byte) (r : CBitRead) (immediately : Bool) :
    Kept r (r.grabNextDWord memory immediately) := by
  rcases lt_trichotomy r.dataIn r.bufferEnd with before | finished | past
  · rw [grabNextDWord_inside memory r immediately before]
    exact kept_moved r _ _ _
  · rw [grabNextDWord_end memory r immediately finished]
    exact ⟨rfl, rfl, rfl, rfl, fun raised => by simp [raised]⟩
  · rw [grabNextDWord_past memory r immediately past]
    exact ⟨rfl, rfl, rfl, rfl, fun _ => rfl⟩

theorem serve_kept (memory : Int → Byte) (r : CBitRead) (request : Request) :
    Kept r (r.serve memory request).2 := by
  cases request with
  | readOneBit =>
    by_cases last : int32 (r.bitsAvail - 1) = 0
    · simp only [serve, readOneBit_emptied memory r last]
      exact (kept_moved r _ 32 _).trans (grabNextDWord_kept memory _ false)
    · simp only [serve, readOneBit_held memory r last]
      exact kept_moved r _ _ _
  | readUBitLong numbits positive width =>
    simp only [serve]
    rcases lt_trichotomy r.bitsAvail numbits with short | emptied | more
    · have merging : ¬ r.bitsAvail ≥ numbits := by omega
      have loaded := grabNextDWord_kept memory r true
      simp only [readUBitLong, if_neg merging]
      split
      · exact loaded
      · exact loaded.trans (kept_moved _ _ _ _)
    · rw [readUBitLong_emptied memory r numbits emptied]
      exact (kept_moved r _ 32 _).trans (grabNextDWord_kept memory _ false)
    · rw [readUBitLong_held memory r numbits more]
      exact kept_moved r _ _ _

/-- A seek rebuilds the word of the reader, whose flag a position outside the declared bits
    raises first. -/
theorem seek_rebuilt (memory : Int → Byte) (r : CBitRead) (nPosition : Int) :
    Kept (if nPosition < 0 ∨ r.dataBits < nPosition then r.setOverflowFlag else r)
      (r.seek memory nPosition).2 := by
  have refusal : (!(decide (nPosition < 0) || decide (nPosition > r.dataBits))) = true ↔
      ¬ (nPosition < 0 ∨ r.dataBits < nPosition) := by
    simp
  unfold seek
  have moved (chosen : CBitRead) (nAdjPosition : Int) :
      let loaded := if chosen.data then
          grabNextDWord memory { chosen with
            dataIn := 4 * nAdjPosition.tdiv 32 + ((chosen.dataBytes % 4 : Nat) : Int)
            bitsAvail := 32 } false
        else { chosen with
          dataIn := 4 * nAdjPosition.tdiv 32 + ((chosen.dataBytes % 4 : Nat) : Int)
          inBufWord := 0
          bitsAvail := 1 }
      Kept chosen { loaded with
        inBufWord := loaded.inBufWord >>> (nAdjPosition % 32).toNat
        bitsAvail := min loaded.bitsAvail (32 - nAdjPosition % 32) } := by
    dsimp only
    split
    · exact (kept_moved _ chosen.inBufWord 32 _).trans
        ((grabNextDWord_kept memory _ false).trans (kept_moved _ _ _ _))
    · exact kept_moved _ _ _ _
  by_cases outside : nPosition < 0 ∨ r.dataBits < nPosition
  · have refused : (!(decide (nPosition < 0) || decide (nPosition > r.dataBits))) ≠ true :=
      fun admitted => refusal.mp admitted outside
    simp only [if_pos outside, if_neg refused]
    split
    · exact kept_moved _ _ _ _
    · exact moved r.setOverflowFlag _
  · have admitted := refusal.mpr outside
    simp only [if_neg outside, if_pos admitted]
    split
    · exact kept_moved _ _ _ _
    · exact moved r _

/-- A seek keeps what reads keep. -/
theorem seek_kept (memory : Int → Byte) (r : CBitRead) (nPosition : Int) :
    Kept r (r.seek memory nPosition).2 := by
  have rebuilt := seek_rebuilt memory r nPosition
  by_cases outside : nPosition < 0 ∨ r.dataBits < nPosition
  · rw [if_pos outside] at rebuilt
    have flagged : Kept r r.setOverflowFlag := ⟨rfl, rfl, rfl, rfl, fun _ => rfl⟩
    exact flagged.trans rebuilt
  · rwa [if_neg outside] at rebuilt

/-- A seek outside the declared bits raises the flag. -/
theorem seek_outside (memory : Int → Byte) (r : CBitRead) (nPosition : Int)
    (outside : nPosition < 0 ∨ r.dataBits < nPosition) :
    (r.seek memory nPosition).2.overflow = true := by
  have rebuilt := seek_rebuilt memory r nPosition
  rw [if_pos outside] at rebuilt
  exact rebuilt.sticky rfl

/-- Reads and seeks leave an opened reader one with the same count. -/
theorem Counted.kept {bytes : Nat} {r next : CBitRead} (counted : Counted bytes r)
    (kept : Kept r next) : Counted bytes next :=
  ⟨kept.data.trans counted.data, kept.dataBytes.trans counted.dataBytes,
    kept.dataBits.trans counted.dataBits, kept.bufferEnd.trans counted.bufferEnd,
    fun negative => kept.sticky (counted.refused (kept.dataBits ▸ negative))⟩

/-- A clear flag shows that the count is not negative. -/
theorem Counted.natural {bytes : Nat} {r : CBitRead} (counted : Counted bytes r)
    (clear : r.overflow = false) : 0 ≤ int32 (8 * bytes) := by
  by_contra negative
  have raised := counted.refused (by rw [counted.dataBits]; omega)
  exact absurd (clear.symm.trans raised) (by decide)

/-- A call of a read or of `Seek`. -/
inductive Call where
  | read (request : Request)
  | seek (nPosition : Int)

/-- The reader after a call. -/
def call (memory : Int → Byte) (r : CBitRead) : Call → CBitRead
  | .read request => (r.serve memory request).2
  | .seek nPosition => (r.seek memory nPosition).2

/-- The reader after a sequence of calls. -/
def called (memory : Int → Byte) (r : CBitRead) (calls : List Call) : CBitRead :=
  calls.foldl (fun r next => r.call memory next) r

/-- All calls in any order keep the count and a raised flag. -/
theorem called_kept (memory : Int → Byte) (r : CBitRead) (calls : List Call) :
    Kept r (called memory r calls) := by
  induction calls generalizing r with
  | nil => exact ⟨rfl, rfl, rfl, rfl, id⟩
  | cons next rest inductionHypothesis =>
    refine Kept.trans ?_ (inductionHypothesis _)
    cases next with
    | read request => exact serve_kept memory r request
    | seek nPosition => exact seek_kept memory r nPosition

/-- Opening with the default count seeks the first bit. -/
theorem construct_opening (memory : Int → Byte) (storage : CBitRead) (bytes : Nat) :
    construct memory storage bytes =
      ((opening storage bytes (int32 (8 * bytes))).seek memory ((0 : Nat) : Int)).2 := by
  simp only [construct, startReading, if_true, opening, Nat.cast_zero]

/-- A constructed reader is opened with the default count. -/
theorem construct_counted (memory : Int → Byte) (storage : CBitRead) (bytes : Nat) :
    Counted bytes (construct memory storage bytes) := by
  rw [construct_opening]
  have kept := seek_kept memory (opening storage bytes (int32 (8 * bytes))) ((0 : Nat) : Int)
  refine ⟨kept.data, kept.dataBytes, kept.dataBits, kept.bufferEnd, ?_⟩
  intro negative
  rw [kept.dataBits] at negative
  exact seek_outside memory _ _ (.inr negative)

/-- Where the count is not negative, the constructed reader is that of the whole buffer with
    another count. -/
theorem construct_whole (memory : Int → Byte) (storage : CBitRead) (bytes : Nat)
    (nonempty : 1 ≤ bytes) (natural : 0 ≤ int32 (8 * bytes)) :
    ∃ whole, Ready memory bytes whole 0 ∧
      construct memory storage bytes = whole.withBits (int32 (8 * bytes)) := by
  have opened : Opened bytes (opening storage bytes (8 * bytes)) := ⟨rfl, rfl, rfl, rfl⟩
  refine ⟨_, seek_ready memory bytes _ 0 opened rfl (Nat.zero_le _) (.inl (by omega)), ?_⟩
  rw [construct_opening]
  exact seek_withBits memory (opening storage bytes (8 * bytes)) (int32 (8 * bytes)) _ rfl
    (by omega) (by simp only [opening]; omega) natural

end Sniffles.CBitRead
