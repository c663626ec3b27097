import Sniffles.BitCursor

/-!
# Runs of reads and seeks

An operation sequence is performed by the concrete reader and, independently,
by a cursor that keeps one position into the bit list and refuses whatever lies
outside it. Both report an answer, the position and the overflow flag after
every operation. The two reports agree exactly when the reported position never
has to be computed past the largest `int`, which happens only at the very end of
a buffer within three bytes of the largest admitted size.
-/

namespace Sniffles.CursorRefinement

open BitSequences MachineIntegers CBitRead

inductive Operation where
  | readOneBit
  | readUBitLong (numbits : Nat)
  | readSBitLong (numbits : Nat)
  | seek (nPosition : Int)
  | seekRelative (nOffset : Int)
  deriving DecidableEq, Repr

/-- Reads return a number, seeks report success. -/
inductive Answer where
  | bits (number : Int)
  | moved (success : Bool)
  deriving DecidableEq, Repr

/-- Everything that is visible after one operation. -/
structure Observation where
  answer : Answer
  position : Int
  overflow : Bool
  deriving DecidableEq, Repr

/-- Perform one operation on the concrete reader. -/
def perform (memory : Int → Byte) (r : CBitRead) : Operation → Answer × CBitRead
  | .readOneBit => let (bit, r) := r.readOneBit memory; (.bits bit, r)
  | .readUBitLong numbits => let (word, r) := r.readUBitLong memory numbits; (.bits word.toNat, r)
  | .readSBitLong numbits => let (number, r) := r.readSBitLong memory numbits; (.bits number, r)
  | .seek nPosition => let (success, r) := r.seek memory nPosition; (.moved success, r)
  | .seekRelative nOffset => let (success, r) := r.seekRelative memory nOffset; (.moved success, r)

/-- Observe the concrete reader after each operation of a sequence. -/
def observe (memory : Int → Byte) : CBitRead → List Operation → List Observation
  | _, [] => []
  | r, operation :: rest =>
    let (answer, next) := perform memory r operation
    ⟨answer, next.getNumBitsRead, next.isOverflowed⟩ :: observe memory next rest

/-- Take the next bits, if the width is admitted and they all exist. -/
def take (bits : List Bool) (position count : Nat) (answer : Nat → Int) : Option (Answer × Nat) :=
  if 1 ≤ count ∧ count ≤ 32 ∧ position + count ≤ bits.length then
    some (.bits (answer (value (window bits position count))), position + count)
  else none

/-- Move to a target inside the bit list or to its end. -/
def move (bits : List Bool) (target : Int) : Option (Answer × Nat) :=
  if 0 ≤ target ∧ target ≤ bits.length then some (.moved true, target.toNat) else none

/-- The reference reader: one position into the bit list. -/
def cursor (bits : List Bool) (position : Nat) : Operation → Option (Answer × Nat)
  | .readOneBit => take bits position 1 Int.ofNat
  | .readUBitLong numbits => take bits position numbits Int.ofNat
  | .readSBitLong numbits => take bits position numbits (twosComplement numbits)
  | .seek nPosition => move bits nPosition
  | .seekRelative nOffset => move bits (position + nOffset)

/-- The reference observations. A sequence with a read past the last bit or a
    target outside the bit list has none. -/
def reference (bits : List Bool) : Nat → List Operation → Option (List Observation)
  | _, [] => some []
  | position, operation :: rest => do
    let (answer, next) ← cursor bits position operation
    let observations ← reference bits next rest
    pure (⟨answer, next, false⟩ :: observations)

/-- The end of the buffer can be reported: the position with the fake word fits. -/
def EndReported (bytes : Nat) : Prop := 8 * bytes + 31 < 2147483648

/-- The cursor takes bits only when they all exist. -/
theorem take_some (memory : Int → Byte) (bytes position count next : Nat)
    (denoted : Nat → Int) (answer : Answer)
    (accepted : take (bitList memory bytes) position count denoted = some (answer, next)) :
    (1 ≤ count ∧ count ≤ 32 ∧ position + count ≤ 8 * bytes) ∧
      answer = .bits (denoted (value (window (bitList memory bytes) position count))) ∧
      next = position + count := by
  simp only [take, bitList_length] at accepted
  split at accepted
  · rename_i bounds
    simp only [Option.some.injEq, Prod.mk.injEq] at accepted
    exact ⟨bounds, accepted.1.symm, accepted.2.symm⟩
  · simp at accepted

/-- The cursor moves only to a position of the bit list or to its end. -/
theorem move_some (memory : Int → Byte) (bytes next : Nat) (target : Int) (answer : Answer)
    (accepted : move (bitList memory bytes) target = some (answer, next)) :
    target = next ∧ next ≤ 8 * bytes ∧ answer = .moved true := by
  simp only [move, bitList_length] at accepted
  split at accepted
  · rename_i bounds
    simp only [Option.some.injEq, Prod.mk.injEq] at accepted
    obtain ⟨moved, arrived⟩ := accepted
    exact ⟨by omega, by omega, moved.symm⟩
  · simp at accepted

/-- A performed operation answers as the cursor does and stands where it stands.
    A relative seek starts from the reported position, which must be exact. -/
theorem perform_refines (memory : Int → Byte) (bytes : Nat) (r : CBitRead)
    (position next : Nat) (operation : Operation) (answer : Answer)
    (standing : At memory bytes false r position) (nonempty : 1 ≤ bytes)
    (fits : 8 * bytes < 2147483648) (room : EndReported bytes ∨ position < 8 * bytes)
    (admitted : cursor (bitList memory bytes) position operation = some (answer, next)) :
    (perform memory r operation).1 = answer ∧ At memory bytes false (perform memory r operation).2 next := by
  cases operation with
  | readOneBit =>
    obtain ⟨⟨-, -, inside⟩, rfl, rfl⟩ := take_some memory bytes position 1 next _ _ admitted
    obtain ⟨result, advanced⟩ := readOneBit_at memory bytes r position standing inside
    exact ⟨congrArg Answer.bits result, advanced⟩
  | readUBitLong numbits =>
    obtain ⟨⟨positive, width, inside⟩, rfl, rfl⟩ :=
      take_some memory bytes position numbits next _ _ admitted
    obtain ⟨result, advanced⟩ :=
      readUBitLong_at memory bytes r position numbits standing positive width inside
    exact ⟨congrArg (fun number : Nat => Answer.bits number) result, advanced⟩
  | readSBitLong numbits =>
    obtain ⟨⟨positive, width, inside⟩, rfl, rfl⟩ :=
      take_some memory bytes position numbits next _ _ admitted
    obtain ⟨result, advanced⟩ :=
      readSBitLong_at memory bytes r position numbits standing positive width inside
    exact ⟨congrArg Answer.bits result, advanced⟩
  | seek nPosition =>
    obtain ⟨rfl, inside, rfl⟩ := move_some memory bytes next nPosition _ admitted
    obtain ⟨success, arrived⟩ :=
      seek_at memory bytes false r next standing.opened standing.flag nonempty inside
    exact ⟨congrArg Answer.moved success, arrived⟩
  | seekRelative nOffset =>
    obtain ⟨same, inside, rfl⟩ := move_some memory bytes next (position + nOffset) _ admitted
    have target : int32 (r.getNumBitsRead + nOffset) = next := by
      rw [getNumBitsRead_at memory bytes false r position standing fits room, same]
      exact int32_of_fits (by omega) (by omega)
    obtain ⟨success, arrived⟩ :=
      seek_at memory bytes false r next standing.opened standing.flag nonempty inside
    simp only [perform, seekRelative, target]
    exact ⟨congrArg Answer.moved success, arrived⟩

/-- Both reports agree from any standing reader exactly when the end is either
    reportable or never reached.

Induct over the sequence. While the position can be reported, one operation
keeps the relation and its observation agrees. The first arrival at an end that
cannot be reported shows a negative position, which no cursor has. -/
theorem observe_iff (memory : Int → Byte) (bytes : Nat) (r : CBitRead) (position : Nat)
    (operations : List Operation) (expected : List Observation)
    (standing : At memory bytes false r position) (nonempty : 1 ≤ bytes)
    (fits : 8 * bytes < 2147483648) (room : EndReported bytes ∨ position < 8 * bytes)
    (admitted : reference (bitList memory bytes) position operations = some expected) :
    observe memory r operations = expected ↔
      (EndReported bytes ∨ ∀ seen ∈ expected, seen.position ≠ 8 * bytes) := by
  induction operations generalizing r position expected with
  | nil =>
    simp only [reference, Option.some.injEq] at admitted
    simp [observe, ← admitted]
  | cons operation rest inductionHypothesis =>
    simp only [reference, Option.bind_eq_bind, Option.bind_eq_some_iff, Prod.exists,
      Option.pure_def, Option.some.injEq] at admitted
    obtain ⟨answer, next, step, observations, tail, rfl⟩ := admitted
    obtain ⟨answered, arrived⟩ :=
      perform_refines memory bytes r position next operation answer standing nonempty fits room step
    have clear : (perform memory r operation).2.isOverflowed = false := arrived.flag
    simp only [observe, answered, clear]
    by_cases reportable : EndReported bytes ∨ next < 8 * bytes
    · rw [getNumBitsRead_at memory bytes false _ next arrived fits reportable]
      have following := inductionHypothesis _ next observations arrived reportable tail
      simp only [List.cons.injEq, true_and, following, List.mem_cons, forall_eq_or_imp]
      constructor
      · rintro (reported | avoided)
        · exact .inl reported
        · refine reportable.imp id (fun before => ⟨?_, avoided⟩)
          omega
      · exact Or.imp id And.right
    · have ending : next = 8 * bytes := by
        have := arrived.bound
        omega
      subst ending
      have wrapped := getNumBitsRead_end_wraps memory bytes false _ arrived fits
        (by unfold EndReported at reportable; omega)
      constructor
      · intro same
        simp only [List.cons.injEq, Observation.mk.injEq] at same
        omega
      · rintro (reported | avoided)
        · exact absurd (.inl reported) reportable
        · exact absurd (by simp) (avoided _ List.mem_cons_self)

/-- A reader opened with the default bit count answers every admitted operation
    sequence exactly as one integer position into the little-endian bit list of
    its buffer, with that position reported, every seek successful and the flag
    clear, if and only if the end of the buffer is reportable or never reached.

The only failing sizes within the stated bound are the three whose bit count
lies within 31 of the largest `int`. -/
theorem reader_refines_cursor_iff (memory : Int → Byte) (storage : CBitRead) (bytes : Nat)
    (operations : List Operation) (expected : List Observation)
    (nonempty : 1 ≤ bytes) (fits : 8 * bytes < 2147483648)
    (admitted : reference (bitList memory bytes) 0 operations = some expected) :
    observe memory (construct memory storage bytes) operations = expected ↔
      (EndReported bytes ∨ ∀ seen ∈ expected, seen.position ≠ 8 * bytes) :=
  observe_iff memory bytes _ 0 operations expected
    (construct_at memory storage bytes nonempty fits) nonempty fits (.inr (by omega)) admitted

/-- A five-byte buffer, with a read across the head bytes, a relative seek, a
    merged signed read and a seek to the end, is reported exactly. -/
theorem reader_refines_cursor_five_bytes :
    observe (fun _ => 0xA5#8) (construct (fun _ => 0xA5#8) ⟨0, 0, 0, 0, false, false, 0, 0⟩ 5)
        [.readUBitLong 3, .seekRelative 9, .readSBitLong 17, .readOneBit, .seek 40] =
      [⟨.bits 5, 3, false⟩, ⟨.moved true, 12, false⟩, ⟨.bits 23130, 29, false⟩,
        ⟨.bits 1, 30, false⟩, ⟨.moved true, 40, false⟩] :=
  (reader_refines_cursor_iff _ _ 5 _ _ (by decide) (by decide) (by decide)).mpr (.inl (by
    unfold EndReported
    decide))

/-- The reference promises an exact position at the end of every buffer whose
    bit count fits an `int`; the reader breaks it in the largest such buffer. -/
theorem end_of_largest_buffer_misreported :
    ¬ ∀ (memory : Int → Byte) (storage : CBitRead) (bytes : Nat) (operations : List Operation)
        (expected : List Observation), 1 ≤ bytes → 8 * bytes < 2147483648 →
        reference (bitList memory bytes) 0 operations = some expected →
        observe memory (construct memory storage bytes) operations = expected := by
  intro promised
  have nonempty : 1 ≤ 268435455 := by decide
  have fits : 8 * 268435455 < 2147483648 := by decide
  have admitted : reference (bitList (fun _ => 0) 268435455) 0 [.seek 2147483640] =
      some [⟨.moved true, 2147483640, false⟩] := by
    simp [reference, cursor, move]
  have agreed := promised (fun _ => 0) ⟨0, 0, 0, 0, false, false, 0, 0⟩ 268435455
    [.seek 2147483640] [⟨.moved true, 2147483640, false⟩] nonempty fits admitted
  have condition := (observe_iff (fun _ => 0) 268435455 _ 0 _ _
    (construct_at (fun _ => 0) _ 268435455 nonempty fits) nonempty fits (.inr (by decide))
    admitted).mp agreed
  rcases condition with reported | avoided
  · unfold EndReported at reported
    omega
  · exact avoided _ List.mem_cons_self rfl

end Sniffles.CursorRefinement
