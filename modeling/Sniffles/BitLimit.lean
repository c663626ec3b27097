import Sniffles.ReachedReaders

/-!
# The declared bit limit

`StartReading` accepts a bit count below the size of the buffer. Seeks and the
reported position consult it. The reads do not: they see only the pointer, the
word and the end of the buffer, so a reader with a limit reads exactly like one
without, and its flag is raised by the bits of the whole buffer.

A run therefore keeps the limit exactly when no read of it ends between the
limit and the end of the buffer. An empty buffer is not even read like that,
because opening it builds a partial head out of no bytes: a single bit then
comes from behind the buffer, while any number raises the flag at once.
-/

namespace Sniffles.CBitRead

open BitSequences MachineIntegers

/-- Once the reads so far cover a bit at the limit or beyond, the flag is set. -/
def LimitEnforced (memory : Int → Byte) (r : CBitRead) (nBits : Nat) (requests : List Request) : Prop :=
  ∀ before, before <+: requests → nBits < asked before →
    (run memory r before).isOverflowed = true

/-- No read ends between the limit and the end of the buffer. -/
def AvoidsTail (bytes nBits : Nat) (requests : List Request) : Prop :=
  ∀ before, before <+: requests → asked before ≤ nBits ∨ 8 * bytes < asked before

/-- Opening with a bit count of its own seeks the first bit. -/
theorem startReading_limit (memory : Int → Byte) (storage : CBitRead) (bytes nBits : Nat) :
    startReading memory storage true bytes 0 nBits =
      ((opening storage bytes nBits).seek memory ((0 : Nat) : Int)).2 := by
  have stated : (nBits : Int) ≠ -1 := by omega
  simp only [startReading, stated, if_false, if_true, opening, Nat.cast_zero]

/-- The reader with a limit is the reader of the whole buffer with another count. -/
theorem limited_ready (memory : Int → Byte) (storage : CBitRead) (bytes nBits : Nat)
    (nonempty : 1 ≤ bytes) :
    ∃ whole, Ready memory bytes whole 0 ∧
      startReading memory storage true bytes 0 nBits = whole.withBits nBits := by
  have opened : Opened bytes (opening storage bytes (8 * bytes)) := ⟨rfl, rfl, rfl, rfl⟩
  refine ⟨_, seek_ready memory bytes _ 0 opened rfl (Nat.zero_le _) (.inl (by omega)), ?_⟩
  rw [startReading_limit]
  exact seek_withBits memory (opening storage bytes (8 * bytes)) nBits _ rfl (by omega)
    (by simp only [opening]; omega) (by omega)

/-- The flag after a run from the first bit says whether the run asked for more
    bits than the whole buffer has. -/
theorem run_flag (memory : Int → Byte) (bytes : Nat) (r : CBitRead) (requests : List Request)
    (ready : Ready memory bytes r 0) :
    (run memory r requests).overflow = decide (8 * bytes < asked requests) := by
  by_cases inside : asked requests ≤ 8 * bytes
  · rw [decide_eq_false (by omega)]
    exact (run_within memory bytes r 0 requests ready (by omega)).standing.flag
  · rw [decide_eq_true (by omega)]
    exact (run_crossing memory bytes r 0 requests ready (by omega)).flag

/-- A raised flag stays raised through a run from any state. -/
theorem run_sticky (memory : Int → Byte) (r : CBitRead) (requests : List Request)
    (raised : r.overflow = true) : (run memory r requests).overflow = true := by
  induction requests generalizing r with
  | nil => exact raised
  | cons request rest inductionHypothesis =>
    apply inductionHypothesis
    cases request with
    | readOneBit =>
      simp only [serve]
      by_cases last : int32 (r.bitsAvail - 1) = 0
      · rw [readOneBit_emptied memory r last]
        exact fetchNext_sticky memory { r with bitsAvail := 0 } raised
      · rw [readOneBit_held memory r last]
        exact raised
    | readUBitLong numbits positive width => exact readUBitLong_sticky memory r numbits raised

/-- An empty buffer is opened with its pointer behind its end and no bit in hand. -/
theorem empty_opened (memory : Int → Byte) (storage : CBitRead) :
    let r := startReading memory storage true 0 0 ((0 : Nat) : Int)
    r.bitsAvail = 0 ∧ r.bufferEnd < r.dataIn ∧ r.overflow = false := by
  have head : 0 < 4 ∨ 0 % 4 ≠ 0 ∧ (0 : Int).tdiv 8 < ((0 % 4 : Nat) : Int) := .inl (by decide)
  have opened := seek_short_head memory (opening storage 0 ((0 : Nat) : Int)) ((0 : Nat) : Int) rfl
    (Int.le_refl 0) (Int.le_refl 0) head
  simp only [startReading_limit, opened]
  exact ⟨rfl, (by decide : (0 : Int) < 1), rfl⟩

/-- Only a run over an empty buffer that starts with a single bit breaks its limit. -/
theorem empty_enforced_iff (memory : Int → Byte) (storage : CBitRead) (requests : List Request) :
    LimitEnforced memory (startReading memory storage true 0 0 ((0 : Nat) : Int)) 0 requests ↔
      requests.head? ≠ some .readOneBit := by
  obtain ⟨drained, past, clear⟩ := empty_opened memory storage
  generalize startReading memory storage true 0 0 ((0 : Nat) : Int) = r at drained past clear ⊢
  cases requests with
  | nil =>
    constructor
    · intro _
      simp
    · intro _ before inside reached
      rw [List.prefix_nil.mp inside, asked_nil] at reached
      exact absurd reached (Nat.lt_irrefl 0)
  | cons request rest =>
    cases request with
    | readOneBit =>
      constructor
      · intro enforced
        have raised := enforced [.readOneBit] (List.prefix_append [.readOneBit] rest) (by decide)
        have kept : (r.readOneBit memory).2.overflow = r.overflow := readOneBit_drained memory r drained
        exact absurd (raised.symm.trans (kept.trans clear)) (by decide)
      · intro other
        exact absurd rfl other
    | readUBitLong numbits positive width =>
      constructor
      · intro _
        simp
      · intro _ before inside reached
        cases before with
        | nil => exact absurd reached (Nat.lt_irrefl 0)
        | cons request tail =>
          obtain ⟨rfl, -⟩ := List.cons_prefix_cons.mp inside
          have crossed := readUBitLong_past memory r numbits (by omega) past
          exact run_sticky memory (r.readUBitLong memory numbits).2 tail
            (congrArg (fun result : BitVec 32 × CBitRead => result.2.overflow) crossed)

/-- The limit declared for a buffer is enforced on a run exactly if no read of the
    run ends between it and the end of the buffer or, where the buffer is empty,
    if the run does not start with a single bit. -/
theorem limit_enforced_iff (memory : Int → Byte) (storage : CBitRead) (bytes nBits : Nat)
    (requests : List Request) (declared : nBits ≤ 8 * bytes) :
    LimitEnforced memory (startReading memory storage true bytes 0 nBits) nBits requests ↔
      if bytes = 0 then requests.head? ≠ some .readOneBit else AvoidsTail bytes nBits requests := by
  by_cases empty : bytes = 0
  · subst empty
    obtain rfl : nBits = 0 := Nat.le_zero.mp declared
    rw [if_pos rfl]
    exact empty_enforced_iff memory storage requests
  · rw [if_neg empty]
    obtain ⟨whole, ready, same⟩ := limited_ready memory storage bytes nBits (by omega)
    have flags (before : List Request) :
        (run memory (startReading memory storage true bytes 0 nBits) before).isOverflowed =
          decide (8 * bytes < asked before) := by
      rw [same, run_withBits]
      exact run_flag memory bytes whole before ready
    apply forall_congr'
    intro before
    rw [flags, decide_eq_true_iff]
    constructor
    · intro enforced inside
      by_cases within : asked before ≤ nBits
      · exact .inl within
      · exact .inr (enforced inside (by omega))
    · intro avoided inside reached
      rcases avoided inside with within | past
      · omega
      · exact past

/-- A limit of 13 bits is kept by a run over two bytes that reads eight of them and
    then asks for more than the buffer has. -/
theorem thirteen_bits_enforced :
    LimitEnforced (fun _ => 0xA5#8) (startReading (fun _ => 0xA5#8)
      ⟨0, 0, 0, 0, false, false, 0, 0⟩ true 2 0 ((13 : Nat) : Int)) 13
      [.readUBitLong 8 (by decide) (by decide), .readUBitLong 9 (by decide) (by decide)] :=
  (limit_enforced_iff _ _ 2 13 _ (by decide)).mpr (by
    rw [if_neg (by decide)]
    intro before inside
    rcases List.prefix_cons_iff.mp inside with rfl | ⟨tail, rfl, more⟩
    · exact .inl (by decide)
    · rcases List.prefix_cons_iff.mp more with rfl | ⟨rest, rfl, last⟩
      · exact .inl (by decide)
      · rw [List.prefix_nil.mp last]
        exact .inr (by decide))

/-- A limit of one bit is not kept when a second bit of the byte is read. -/
theorem second_bit_escapes :
    ¬ LimitEnforced (fun _ => 0xA5#8) (startReading (fun _ => 0xA5#8)
      ⟨0, 0, 0, 0, false, false, 0, 0⟩ true 1 0 ((1 : Nat) : Int)) 1
      [.readUBitLong 2 (by decide) (by decide)] := by
  intro enforced
  have raised := enforced _ (List.prefix_refl _) (by decide)
  exact absurd raised (by decide +kernel)

end Sniffles.CBitRead
