import Sniffles.CodedInput
import Mathlib.Tactic.Ring

/-!
# Reads of the coded input stream

A stream over a whole array of at most 64 megabytes stands in front of the bytes that
are still to be read. Each operation takes from them what the sequence of tagged records
says, on the fast path, the unrolled path and the slow path alike, and none of them
reads outside the array.
-/

namespace Sniffles

open BitSequences Base128 CheckedMemory TaggedRecords

/-- A pointer into the array stands in front of these bytes. -/
def Stands (window : List Byte) (ptr : Int) (rest : List Byte) : Prop :=
  ∃ before : List Byte, window = before ++ rest ∧ ptr = before.length

namespace Stands

variable {window rest : List Byte} {ptr : Int}

/-- The next byte can be read. -/
theorem read {byte : Byte} (stands : Stands window ptr (byte :: rest)) :
    readAt window ptr = .ok byte := by
  obtain ⟨before, rfl, rfl⟩ := stands
  have inside : before.length < (before ++ byte :: rest).length := by simp
  rw [readAt, if_pos (Int.natCast_nonneg _), Int.toNat_natCast, readCell, dif_pos inside]
  simp

/-- The pointer can move over some of the bytes. -/
theorem skip {head : List Byte} (stands : Stands window ptr (head ++ rest)) :
    Stands window (ptr + head.length) rest := by
  obtain ⟨before, rfl, rfl⟩ := stands
  refine ⟨before ++ head, (List.append_assoc _ _ _).symm, ?_⟩
  rw [List.length_append, Nat.cast_add]

theorem next {byte : Byte} (stands : Stands window ptr (byte :: rest)) :
    Stands window (ptr + 1) rest := by
  have front : Stands window ptr ([byte] ++ rest) := stands
  exact front.skip

/-- The remaining bytes determine the pointer. -/
theorem position (stands : Stands window ptr rest) : ptr = window.length - rest.length := by
  obtain ⟨before, rfl, rfl⟩ := stands
  rw [List.length_append]
  omega

/-- Some of the bytes can be copied. -/
theorem copy {cells : List Byte} (stands : Stands window ptr (cells ++ rest)) :
    0 ≤ ptr ∧ readRange window ptr.toNat cells.length = .ok cells := by
  obtain ⟨before, rfl, rfl⟩ := stands
  refine ⟨Int.natCast_nonneg _, ?_⟩
  rw [Int.toNat_natCast, ← List.append_assoc, readRange_between]

/-- The last byte of the array is the last of the remaining ones. -/
theorem last (stands : Stands window ptr rest) (more : rest ≠ []) :
    readAt window (window.length - 1) = .ok (rest.getLast more) := by
  obtain ⟨before, rfl, rfl⟩ := stands
  have split : before ++ rest = before ++ rest.dropLast ++ [rest.getLast more] := by
    rw [List.append_assoc, List.dropLast_append_getLast]
  have end_ : Stands (before ++ rest) (before ++ rest.dropLast).length [rest.getLast more] :=
    ⟨_, split, rfl⟩
  have place : (((before ++ rest).length : Nat) : Int) - 1 = (before ++ rest.dropLast).length := by
    rw [split, List.length_append, List.length_singleton]
    omega
  rw [place]
  exact end_.read

end Stands

/-- Bits above those that are in use add to them. -/
theorem or_shifted {width : Nat} (part bits : BitVec width) (shift : Nat)
    (low : part.toNat < 2 ^ shift) :
    part ||| bits <<< shift = BitVec.ofNat width (part.toNat + 2 ^ shift * bits.toNat) := by
  apply BitVec.eq_of_toNat_eq
  have apart := Nat.two_pow_add_eq_or_of_lt low bits.toNat
  have kept : part.toNat % 2 ^ width = part.toNat := Nat.mod_eq_of_lt part.isLt
  rw [BitVec.toNat_or, BitVec.toNat_shiftLeft, BitVec.toNat_ofNat, Nat.shiftLeft_eq, Nat.add_comm,
    apart, Nat.or_mod_two_pow, Nat.or_comm, Nat.mul_comm, kept]

/-- The group of a byte. -/
theorem group_toNat (width : Nat) (wide : 8 ≤ width) (byte : Byte) :
    ((byte &&& 0x7F).setWidth width).toNat = byte.toNat % 128 := by
  have mask : byte.toNat &&& 127 = byte.toNat % 128 := Nat.and_two_pow_sub_one_eq_mod byte.toNat 7
  have room : 2 ^ 8 ≤ 2 ^ width := Nat.pow_le_pow_right (by decide) wide
  have small : byte.toNat % 128 < 2 ^ width := by
    have := Nat.mod_lt byte.toNat (show 128 > 0 by decide)
    omega
  rw [BitVec.toNat_setWidth, BitVec.toNat_and]
  show (byte.toNat &&& 127) % 2 ^ width = byte.toNat % 128
  rw [mask, Nat.mod_eq_of_lt small]

/-- A byte below 128 is one without the high bit. -/
theorem below_iff (byte : Byte) : byte < 0x80 ↔ continues byte = false := by
  constructor
  · intro small
    have bound : byte.toNat < 128 := small
    rw [continues, BitVec.getLsbD, Nat.testBit_eq_decide_div_mod_eq, decide_eq_false_iff_not]
    omega
  · intro last
    exact last_small last

namespace CodedInputStream

/-- The shifts of consecutive groups. -/
def spaced (first : Nat) : Nat → List Nat
  | 0 => []
  | count + 1 => first :: spaced (first + 7) count

/-- Unrolled lines take the groups of a number. Induct over the lines; the bits so far lie
    below the next shift. -/
theorem readGroups_taken (window : List Byte) (count : Nat) (shift : Nat) (ptr : Int)
    (part : BitVec 32) (bytes rest : List Byte) (done : Bool) (number : Nat)
    (stands : Stands window ptr bytes) (low : part.toNat < 2 ^ shift)
    (narrow : shift + 7 * count ≤ 32)
    (taken : takeGroups count bytes = some (done, number, rest)) :
    ∃ behind, Stands window behind rest ∧ readGroups window (spaced shift count) ptr part =
      .ok (done, BitVec.ofNat 32 (part.toNat + 2 ^ shift * number), behind) := by
  induction count generalizing shift ptr part bytes number with
  | zero =>
    cases taken
    refine ⟨ptr, stands, ?_⟩
    rw [Nat.mul_zero, Nat.add_zero, BitVec.ofNat_toNat, BitVec.setWidth_eq]
    rfl
  | succ count inductionHypothesis =>
    cases bytes with
    | nil => cases taken
    | cons byte bytes =>
      rw [takeGroups] at taken
      rw [spaced, readGroups, stands.read, ok_bind]
      have joined : part ||| (byte &&& 0x7F).setWidth 32 <<< shift =
          BitVec.ofNat 32 (part.toNat + 2 ^ shift * (byte.toNat % 128)) := by
        rw [or_shifted part _ shift low, group_toNat 32 (by decide)]
      have group : byte.toNat % 128 < 128 := Nat.mod_lt _ (by decide)
      have above : part.toNat + 2 ^ shift * (byte.toNat % 128) < 2 ^ (shift + 7) := by
        have room : 2 ^ shift * (byte.toNat % 128) ≤ 2 ^ shift * 127 :=
          Nat.mul_le_mul_left _ (by omega)
        rw [Nat.pow_add]
        omega
      have whole : 2 ^ (shift + 7) ≤ 2 ^ 32 := Nat.pow_le_pow_right (by decide) (by omega)
      dsimp only
      rw [joined]
      split at taken
      case isTrue another =>
        obtain ⟨⟨_, high, _⟩, inner, whole'⟩ := Option.map_eq_some_iff.mp taken
        cases whole'
        have kept : (BitVec.ofNat 32 (part.toNat + 2 ^ shift * (byte.toNat % 128))).toNat =
            part.toNat + 2 ^ shift * (byte.toNat % 128) := by
          rw [BitVec.toNat_ofNat]
          exact Nat.mod_eq_of_lt (Nat.lt_of_lt_of_le above whole)
        obtain ⟨behind, there, read⟩ := inductionHypothesis (shift + 7) (ptr + 1)
          (BitVec.ofNat 32 (part.toNat + 2 ^ shift * (byte.toNat % 128))) bytes high stands.next
          (by rw [kept]; exact above) (by omega) inner
        have weight : part.toNat + 2 ^ shift * (byte.toNat % 128) + 2 ^ (shift + 7) * high =
            part.toNat + 2 ^ shift * (byte.toNat % 128 + 128 * high) := by
          rw [Nat.pow_add]
          ring
        refine ⟨behind, there, ?_⟩
        rw [if_pos another, read, kept, weight]
      case isFalse last =>
        cases taken
        have small := last_small (Bool.eq_false_iff.mpr last)
        refine ⟨ptr + 1, stands.next, ?_⟩
        rw [if_neg last, Nat.mod_eq_of_lt small]

/-- The discarding loop steps over the groups of a number. -/
theorem discardGroups_taken (window : List Byte) (count : Nat) (ptr : Int)
    (bytes rest : List Byte) (done : Bool) (number : Nat) (stands : Stands window ptr bytes)
    (taken : takeGroups count bytes = some (done, number, rest)) :
    ∃ behind, Stands window behind rest ∧
      discardGroups window count ptr = .ok (if done then some behind else none) := by
  induction count generalizing ptr bytes number with
  | zero =>
    cases taken
    exact ⟨ptr, stands, rfl⟩
  | succ count inductionHypothesis =>
    cases bytes with
    | nil => cases taken
    | cons byte bytes =>
      rw [takeGroups] at taken
      rw [discardGroups, stands.read, ok_bind]
      split at taken
      case isTrue another =>
        obtain ⟨⟨_, high, _⟩, inner, whole⟩ := Option.map_eq_some_iff.mp taken
        cases whole
        obtain ⟨behind, there, read⟩ := inductionHypothesis (ptr + 1) bytes high stands.next inner
        refine ⟨behind, there, ?_⟩
        rw [if_pos another, read]
      case isFalse last =>
        cases taken
        refine ⟨ptr + 1, stands.next, ?_⟩
        rw [if_neg last]
        rfl

/-- The first unrolled lines of a number yield its low groups. -/
theorem readGroups_first (window : List Byte) (count : Nat) (narrow : 7 * count ≤ 32) (ptr : Int)
    (bytes rest : List Byte) (done : Bool) (number : Nat) (stands : Stands window ptr bytes)
    (taken : takeGroups count bytes = some (done, number, rest)) :
    ∃ behind, Stands window behind rest ∧ readGroups window (spaced 0 count) ptr 0 =
      .ok (done, BitVec.ofNat 32 number, behind) := by
  obtain ⟨behind, there, read⟩ := readGroups_taken window count 0 ptr 0 bytes rest done number
    stands (by decide) (by omega) taken
  refine ⟨behind, there, ?_⟩
  rw [read]
  simp

/-- The unrolled path for 32 bits takes a number of up to ten bytes and keeps its low
    bits. -/
theorem readVarint32FromArray_taken (window : List Byte) (ptr : Int) (bytes rest : List Byte)
    (done : Bool) (number : Nat) (stands : Stands window ptr bytes)
    (taken : takeGroups 10 bytes = some (done, number, rest)) :
    ∃ behind, Stands window behind rest ∧ readVarint32FromArray window ptr =
      .ok (if done then some (BitVec.ofNat 32 number, behind) else none) := by
  rw [show 10 = 4 + 6 from rfl, takeGroups_add] at taken
  rcases first : takeGroups 4 bytes with - | ⟨ended, low, remaining⟩
  · rw [first] at taken
    cases taken
  rw [first, Option.bind_some] at taken
  obtain ⟨behind, there, read⟩ :=
    readGroups_first window 4 (by decide) ptr bytes remaining ended low stands first
  have bound := takeGroups_bound 4 bytes remaining ended low first
  have lines : readGroups window [0, 7, 14, 21] ptr 0 = .ok (ended, BitVec.ofNat 32 low, behind) :=
    read
  rw [readVarint32FromArray, lines, ok_bind]
  cases ended with
  | true =>
    cases taken
    exact ⟨behind, there, rfl⟩
  | false =>
    simp only [Bool.false_eq_true, if_false] at taken ⊢
    obtain ⟨⟨done, high, rest⟩, second, whole⟩ := Option.map_eq_some_iff.mp taken
    cases whole
    cases remaining with
    | nil => cases second
    | cons byte remaining =>
      rw [takeGroups] at second
      rw [there.read, ok_bind]
      have small : low < 2 ^ 28 := bound
      have kept : (BitVec.ofNat 32 low).toNat = low := by
        rw [BitVec.toNat_ofNat]
        omega
      have wide : (byte.setWidth 32).toNat = byte.toNat := by
        have := byte.isLt
        rw [BitVec.toNat_setWidth]
        omega
      have joined : BitVec.ofNat 32 low ||| byte.setWidth 32 <<< 28 =
          BitVec.ofNat 32 (low + 2 ^ 28 * byte.toNat) := by
        rw [or_shifted _ _ 28 (by rw [kept]; exact small), kept, wide]
      rw [joined]
      split at second
      case isTrue another =>
        obtain ⟨⟨done, above, rest⟩, third, whole⟩ := Option.map_eq_some_iff.mp second
        cases whole
        obtain ⟨final, beyond, dropped⟩ := discardGroups_taken window 5 (behind + 1) remaining rest
          done above there.next third
        have discarded : discardGroups window (kMaxVarintBytes - kMaxVarint32Bytes) (behind + 1) =
            .ok (if done then some final else none) := dropped
        have cut : BitVec.ofNat 32 (low + 2 ^ 28 * byte.toNat) =
            BitVec.ofNat 32 (low + 128 ^ 4 * (byte.toNat % 128 + 128 * above)) := by
          apply BitVec.eq_of_toNat_eq
          rw [BitVec.toNat_ofNat, BitVec.toNat_ofNat]
          omega
        refine ⟨final, beyond, ?_⟩
        rw [if_pos another, discarded, ok_bind, cut]
        cases done <;> rfl
      case isFalse last =>
        cases second
        refine ⟨behind + 1, there.next, ?_⟩
        rw [if_neg last]
        rfl

/-- The three parts of a number of 64 bits. -/
theorem joined_parts (low middle high : Nat) (lowBound : low < 2 ^ 28) (middleBound : middle < 2 ^ 28)
    (highBound : high < 2 ^ 14) :
    (BitVec.ofNat 32 low).setWidth 64 ||| (BitVec.ofNat 32 middle).setWidth 64 <<< 28 |||
      (BitVec.ofNat 32 high).setWidth 64 <<< 56 =
        BitVec.ofNat 64 (low + 2 ^ 28 * (middle + 2 ^ 28 * high)) := by
  have wide (part : Nat) (small : part < 2 ^ 32) :
      ((BitVec.ofNat 32 part).setWidth 64).toNat = part := by
    rw [BitVec.toNat_setWidth, BitVec.toNat_ofNat]
    omega
  have lower := wide low (by omega)
  have both : ((BitVec.ofNat 32 low).setWidth 64 |||
      (BitVec.ofNat 32 middle).setWidth 64 <<< 28) = BitVec.ofNat 64 (low + 2 ^ 28 * middle) := by
    rw [or_shifted _ _ 28 (by rw [lower]; exact lowBound), lower, wide middle (by omega)]
  have kept : (BitVec.ofNat 64 (low + 2 ^ 28 * middle)).toNat = low + 2 ^ 28 * middle := by
    rw [BitVec.toNat_ofNat]
    omega
  have weight : low + 2 ^ 28 * middle + 2 ^ 56 * high = low + 2 ^ 28 * (middle + 2 ^ 28 * high) := by
    ring
  rw [both, or_shifted _ _ 56 (by rw [kept]; omega), kept, wide high (by omega), weight]

/-- The unrolled path for 64 bits takes a number of up to ten bytes. -/
theorem readVarint64FromArray_taken (window : List Byte) (ptr : Int) (bytes rest : List Byte)
    (done : Bool) (number : Nat) (stands : Stands window ptr bytes)
    (taken : takeGroups 10 bytes = some (done, number, rest)) :
    ∃ behind, Stands window behind rest ∧ readVarint64FromArray window ptr =
      .ok (if done then some (BitVec.ofNat 64 number, behind) else none) := by
  rw [show 10 = 4 + (4 + 2) from rfl, takeGroups_add] at taken
  rcases first : takeGroups 4 bytes with - | ⟨ended, low, remaining⟩
  · rw [first] at taken
    cases taken
  rw [first, Option.bind_some] at taken
  obtain ⟨behind, there, read⟩ :=
    readGroups_first window 4 (by decide) ptr bytes remaining ended low stands first
  have lowBound : low < 2 ^ 28 := takeGroups_bound 4 bytes remaining ended low first
  have lines : readGroups window [0, 7, 14, 21] ptr 0 = .ok (ended, BitVec.ofNat 32 low, behind) :=
    read
  rw [readVarint64FromArray, lines, ok_bind]
  cases ended with
  | true =>
    cases taken
    have whole := joined_parts number 0 0 lowBound (by decide) (by decide)
    refine ⟨behind, there, ?_⟩
    dsimp only
    rw [if_pos rfl, if_pos rfl]
    exact congrArg (fun value => Except.ok (some (value, behind))) whole
  | false =>
    simp only [Bool.false_eq_true, if_false] at taken ⊢
    obtain ⟨⟨done, upper, rest⟩, second, whole⟩ := Option.map_eq_some_iff.mp taken
    cases whole
    rw [takeGroups_add] at second
    rcases middle : takeGroups 4 remaining with - | ⟨ended, centre, further⟩
    · rw [middle] at second
      cases second
    rw [middle, Option.bind_some] at second
    obtain ⟨beyond, later, read⟩ :=
      readGroups_first window 4 (by decide) behind remaining further ended centre there middle
    have centreBound : centre < 2 ^ 28 := takeGroups_bound 4 remaining further ended centre middle
    have lines : readGroups window [0, 7, 14, 21] behind 0 =
        .ok (ended, BitVec.ofNat 32 centre, beyond) := read
    rw [lines, ok_bind]
    cases ended with
    | true =>
      cases second
      have whole := joined_parts low upper 0 lowBound centreBound (by decide)
      refine ⟨beyond, later, ?_⟩
      dsimp only
      rw [if_pos rfl, if_pos rfl]
      exact congrArg (fun value => Except.ok (some (value, beyond))) whole
    | false =>
      simp only [Bool.false_eq_true, if_false] at second ⊢
      obtain ⟨⟨done, high, rest⟩, third, whole⟩ := Option.map_eq_some_iff.mp second
      cases whole
      obtain ⟨final, last, read⟩ :=
        readGroups_first window 2 (by decide) beyond further rest done high later third
      have highBound : high < 2 ^ 14 := takeGroups_bound 2 further rest done high third
      have lines : readGroups window [0, 7] beyond 0 = .ok (done, BitVec.ofNat 32 high, final) :=
        read
      refine ⟨final, last, ?_⟩
      rw [lines, ok_bind]
      dsimp only
      rw [joined_parts low centre high lowBound centreBound highBound]
      cases done <;> rfl

/-- The stream is whole and stands in front of these bytes. -/
structure At (window : List Byte) (input : CodedInputStream) (rest : List Byte) : Prop where
  stands : Stands window input.buffer rest
  bounded : window.length ≤ 67108864
  bufferEnd : input.bufferEnd = window.length
  totalBytesRead : input.totalBytesRead = window.length
  currentLimit : input.currentLimit = window.length
  overflowBytes : input.overflowBytes = 0
  bufferSizeAfterLimit : input.bufferSizeAfterLimit = 0
  totalBytesLimit : input.totalBytesLimit = 67108864
  recursionLimit : input.recursionLimit = 100

/-- The stream with its pointer elsewhere. -/
def moved (input : CodedInputStream) (position : Int) : CodedInputStream :=
  { input with buffer := position }

/-- The stream in front of the last bytes of the array. -/
def before (window : List Byte) (input : CodedInputStream) (rest : List Byte) : CodedInputStream :=
  input.moved (window.length - rest.length)

theorem construct_at (window : List Byte) (bounded : window.length ≤ 67108864) :
    At window (construct window.length) window :=
  ⟨⟨[], rfl, rfl⟩, bounded, rfl, rfl, rfl, rfl, rfl, rfl, rfl⟩

namespace At

variable {window rest : List Byte} {input : CodedInputStream}

theorem moved {position : Int} {behind : List Byte} (here : At window input rest)
    (stands : Stands window position behind) : At window (input.moved position) behind :=
  { here with stands }

/-- The pointer is determined by the bytes that it stands in front of. -/
theorem moved_eq {position : Int} {behind : List Byte} (stands : Stands window position behind) :
    input.moved position = before window input behind := by
  rw [before, stands.position]

theorem before {head : List Byte} (here : At window input (head ++ rest)) :
    At window (CodedInputStream.before window input rest) rest := by
  have there := here.stands.skip
  rw [← moved_eq there]
  exact here.moved there

theorem beforeNext {byte : Byte} (here : At window input (byte :: rest)) :
    At window (CodedInputStream.before window input rest) rest := by
  have front : At window input ([byte] ++ rest) := here
  exact front.before

theorem advance_eq {head : List Byte} (here : At window input (head ++ rest)) :
    input.advance head.length = CodedInputStream.before window input rest :=
  moved_eq here.stands.skip

theorem step {byte : Byte} (here : At window input (byte :: rest)) :
    input.advance 1 = CodedInputStream.before window input rest := by
  have front : At window input ([byte] ++ rest) := here
  exact front.advance_eq

theorem bufferSize (here : At window input rest) : input.bufferSize = rest.length := by
  have place := here.stands.position
  have end_ := here.bufferEnd
  rw [CodedInputStream.bufferSize]
  omega

theorem refresh (here : At window input rest) : input.refresh = .ok () :=
  if_pos (.inr (.inr (here.totalBytesRead.trans here.currentLimit.symm)))

/-- The end of the buffer is the end of the remaining bytes. -/
theorem ended_iff (here : At window input rest) : input.buffer = input.bufferEnd ↔ rest = [] := by
  have size := here.bufferSize
  rw [CodedInputStream.bufferSize] at size
  rw [← List.length_eq_zero_iff]
  omega

theorem started_iff (here : At window input rest) : input.buffer < input.bufferEnd ↔ rest ≠ [] := by
  have size := here.bufferSize
  rw [CodedInputStream.bufferSize] at size
  rw [← List.length_pos_iff]
  omega

/-- The fast path is tried before others. -/
theorem singleByte (here : At window input rest) :
    input.singleByte window =
      .ok (rest.head?.bind fun byte => if continues byte then none else some byte) := by
  rw [CodedInputStream.singleByte]
  cases rest with
  | nil =>
    rw [if_neg fun more => (here.started_iff.mp more) rfl]
    rfl
  | cons byte rest =>
    rw [if_pos (here.started_iff.mpr (List.cons_ne_nil _ _)), here.stands.read, ok_bind]
    cases high : continues byte with
    | true =>
      have large : ¬byte < 0x80 := fun small => by
        rw [(below_iff byte).mp small] at high
        cases high
      rw [if_neg large, List.head?_cons, Option.bind_some, high]
      rfl
    | false =>
      rw [if_pos ((below_iff byte).mpr high), List.head?_cons, Option.bind_some, high]
      rfl

/-- The unrolled path is taken only when the groups of a number lie in the buffer. -/
theorem holdsNumber (here : At window input rest) :
    ∃ sure, input.holdsNumber window = .ok sure ∧
      (sure = true → (takeGroups 10 rest).isSome = true) := by
  rw [CodedInputStream.holdsNumber, here.bufferSize]
  split
  case isTrue room =>
    refine ⟨true, rfl, fun _ => ?_⟩
    by_contra none
    have short := (takeGroups_none 10 rest (by simpa using none)).1
    have limit : kMaxVarintBytes = 10 := rfl
    omega
  case isFalse =>
    split
    case isTrue more =>
      have nonempty := here.started_iff.mp more
      rw [here.bufferEnd, here.stands.last nonempty, ok_bind]
      refine ⟨_, rfl, fun closed => ?_⟩
      by_contra none
      have all := (takeGroups_none 10 rest (by simpa using none)).2
      rw [all _ (List.getLast_mem nonempty)] at closed
      cases closed
    case isFalse => exact ⟨false, rfl, fun impossible => by cases impossible⟩

/-- The slow path takes a number byte by byte. Induct over the bytes that are still allowed;
    the bits so far lie below the next shift. -/
theorem slowGroups_taken (left count low number : Nat) {rest behind : List Byte}
    {input : CodedInputStream} (allowed : left + count = 10) (bound : low < 2 ^ (7 * count))
    (here : At window input rest) (taken : takeNumber left rest = some (number, behind)) :
    slowGroups window left count (BitVec.ofNat 64 low) input =
      .ok (some (BitVec.ofNat 64 (low + 2 ^ (7 * count) * number)),
        CodedInputStream.before window input behind) := by
  induction left generalizing count low number rest input with
  | zero => cases taken
  | succ left inductionHypothesis =>
    cases rest with
    | nil => cases taken
    | cons byte rest =>
      have more : ¬input.buffer = input.bufferEnd := fun ended =>
        List.cons_ne_nil _ _ (here.ended_iff.mp ended)
      have room : 2 ^ (7 * count) ≤ 2 ^ 63 := Nat.pow_le_pow_right (by decide) (by omega)
      have kept : (BitVec.ofNat 64 low).toNat = low := by
        rw [BitVec.toNat_ofNat]
        omega
      have joined : BitVec.ofNat 64 low ||| (byte &&& 0x7F).setWidth 64 <<< (7 * count) =
          BitVec.ofNat 64 (low + 2 ^ (7 * count) * (byte.toNat % 128)) := by
        rw [or_shifted _ _ _ (by rw [kept]; exact bound), kept, group_toNat 64 (by decide)]
      rw [takeNumber] at taken
      rw [slowGroups, if_neg more, here.stands.read, ok_bind]
      dsimp only
      rw [joined, here.step]
      split at taken
      case isTrue another =>
        obtain ⟨⟨high, behind⟩, inner, whole⟩ := Option.map_eq_some_iff.mp taken
        cases whole
        have group : byte.toNat % 128 < 128 := Nat.mod_lt _ (by decide)
        have above : low + 2 ^ (7 * count) * (byte.toNat % 128) < 2 ^ (7 * (count + 1)) := by
          have product : 2 ^ (7 * count) * (byte.toNat % 128) ≤ 2 ^ (7 * count) * 127 :=
            Nat.mul_le_mul_left _ (by omega)
          rw [Nat.mul_succ, Nat.pow_add]
          omega
        have weight : low + 2 ^ (7 * count) * (byte.toNat % 128) + 2 ^ (7 * (count + 1)) * high =
            low + 2 ^ (7 * count) * (byte.toNat % 128 + 128 * high) := by
          rw [Nat.mul_succ, Nat.pow_add]
          ring
        rw [if_pos another, inductionHypothesis (count + 1) _ high (by omega) above
          here.beforeNext inner, weight]
        rfl
      case isFalse last =>
        cases taken
        have small := last_small (Bool.eq_false_iff.mpr last)
        rw [if_neg last, Nat.mod_eq_of_lt small]

/-- The slow path fails inside the array. -/
theorem slowGroups_none (left count : Nat) (result : BitVec 64) {rest : List Byte}
    {input : CodedInputStream} (here : At window input rest) (none : takeNumber left rest = none) :
    ∃ position, slowGroups window left count result input = .ok (.none, input.moved position) := by
  induction left generalizing count result rest input with
  | zero => exact ⟨input.buffer, rfl⟩
  | succ left inductionHypothesis =>
    cases rest with
    | nil =>
      refine ⟨input.buffer, ?_⟩
      rw [slowGroups, if_pos (here.ended_iff.mpr rfl), here.refresh, ok_bind]
      rfl
    | cons byte rest =>
      have more : ¬input.buffer = input.bufferEnd := fun ended =>
        List.cons_ne_nil _ _ (here.ended_iff.mp ended)
      rw [takeNumber] at none
      split at none
      case isTrue another =>
        obtain ⟨position, failed⟩ := inductionHypothesis (count + 1)
          (result ||| (byte &&& 0x7F).setWidth 64 <<< (7 * count)) here.beforeNext
          (Option.map_eq_none_iff.mp none)
        refine ⟨position, ?_⟩
        rw [slowGroups, if_neg more, here.stands.read, ok_bind]
        dsimp only
        rw [if_pos another, here.step, failed]
        rfl
      case isFalse => cases none

/-- A number of 64 bits after its fast path was tried. -/
theorem readVarint64Fallback_taken {behind : List Byte} {number : Nat} (here : At window input rest)
    (taken : takeNumber longest rest = some (number, behind)) :
    input.readVarint64Fallback window =
      .ok (some (BitVec.ofNat 64 number), CodedInputStream.before window input behind) := by
  obtain ⟨sure, test, whole⟩ := here.holdsNumber
  rw [readVarint64Fallback, test, ok_bind]
  cases sure with
  | true =>
    obtain ⟨position, there, read⟩ := readVarint64FromArray_taken window input.buffer rest behind
      true number here.stands (takeGroups_number (whole rfl) taken)
    rw [if_pos rfl, read, ok_bind, ← moved_eq there]
    show Except.ok (_, input.advance (position - input.buffer)) = _
    rw [advance, add_sub_cancel]
    rfl
  | false =>
    rw [if_neg Bool.false_ne_true, readVarint64Slow]
    have slow := slowGroups_taken longest 0 0 number rfl (by decide) here taken
    rw [Nat.mul_zero, Nat.pow_zero, Nat.one_mul, Nat.zero_add] at slow
    exact slow

theorem readVarint64Fallback_none (here : At window input rest)
    (none : takeNumber longest rest = none) :
    ∃ position, input.readVarint64Fallback window = .ok (.none, input.moved position) := by
  obtain ⟨sure, test, whole⟩ := here.holdsNumber
  rw [readVarint64Fallback, test, ok_bind]
  cases sure with
  | true =>
    obtain ⟨groups, beyond, lines⟩ := takeGroups_overlong (whole rfl) none
    obtain ⟨position, there, read⟩ := readVarint64FromArray_taken window input.buffer rest beyond
      false groups here.stands lines
    refine ⟨input.buffer, ?_⟩
    rw [if_pos rfl, read, ok_bind]
    rfl
  | false =>
    rw [if_neg Bool.false_ne_true, readVarint64Slow]
    exact slowGroups_none longest 0 0 here none

/-- A number of 32 bits after its fast path was tried. The unrolled path and the slow path
    drop the same bits. -/
theorem readVarint32Fallback_taken {behind : List Byte} {number : Nat} (here : At window input rest)
    (taken : takeNumber longest rest = some (number, behind)) :
    input.readVarint32Fallback window =
      .ok (some (BitVec.ofNat 32 number), CodedInputStream.before window input behind) := by
  obtain ⟨sure, test, whole⟩ := here.holdsNumber
  rw [readVarint32Fallback, test, ok_bind]
  cases sure with
  | true =>
    obtain ⟨position, there, read⟩ := readVarint32FromArray_taken window input.buffer rest behind
      true number here.stands (takeGroups_number (whole rfl) taken)
    rw [if_pos rfl, read, ok_bind, ← moved_eq there]
    rfl
  | false =>
    have cut : (BitVec.ofNat 64 number).setWidth 32 = BitVec.ofNat 32 number :=
      BitVec.setWidth_ofNat_of_le (by decide) number
    rw [if_neg Bool.false_ne_true, readVarint32Slow, here.readVarint64Fallback_taken taken, ok_bind]
    dsimp only
    rw [Option.map_some, cut]

theorem readVarint32Fallback_none (here : At window input rest)
    (none : takeNumber longest rest = none) :
    ∃ position, input.readVarint32Fallback window = .ok (.none, input.moved position) := by
  obtain ⟨sure, test, whole⟩ := here.holdsNumber
  rw [readVarint32Fallback, test, ok_bind]
  cases sure with
  | true =>
    obtain ⟨groups, beyond, lines⟩ := takeGroups_overlong (whole rfl) none
    obtain ⟨position, there, read⟩ := readVarint32FromArray_taken window input.buffer rest beyond
      false groups here.stands lines
    refine ⟨input.buffer, ?_⟩
    rw [if_pos rfl, read, ok_bind]
    rfl
  | false =>
    obtain ⟨position, failed⟩ := here.readVarint64Fallback_none none
    refine ⟨position, ?_⟩
    rw [if_neg Bool.false_ne_true, readVarint32Slow, failed, ok_bind]
    rfl

/-- A byte that the fast path accepts is a whole number. -/
theorem singleByte_number {byte : Byte}
    (single : (rest.head?.bind fun byte => if continues byte then none else some byte) = some byte) :
    ∃ behind, rest = byte :: behind ∧ takeNumber longest rest = some (byte.toNat, behind) := by
  cases rest with
  | nil => cases single
  | cons first behind =>
    rw [List.head?_cons, Option.bind_some] at single
    split at single
    case isTrue => cases single
    case isFalse last =>
      cases single
      refine ⟨behind, rfl, ?_⟩
      rw [longest, takeNumber, if_neg last]

/-- A number of 32 bits is taken from the remaining bytes. -/
theorem readVarint32_taken {behind : List Byte} {number : Nat} (here : At window input rest)
    (taken : takeNumber longest rest = some (number, behind)) :
    input.readVarint32 window =
      .ok (some (BitVec.ofNat 32 number), CodedInputStream.before window input behind) := by
  rw [readVarint32, here.singleByte, ok_bind]
  split
  case h_1 byte single =>
    obtain ⟨further, rfl, whole⟩ := singleByte_number single
    rw [taken] at whole
    cases whole
    rw [here.step, BitVec.ofNat_toNat]
  case h_2 => exact here.readVarint32Fallback_taken taken

theorem readVarint32_none (here : At window input rest) (none : takeNumber longest rest = none) :
    ∃ position, input.readVarint32 window = .ok (.none, input.moved position) := by
  rw [readVarint32, here.singleByte, ok_bind]
  split
  case h_1 byte single =>
    obtain ⟨further, rfl, whole⟩ := singleByte_number single
    rw [none] at whole
    cases whole
  case h_2 => exact here.readVarint32Fallback_none none

/-- A number of 64 bits is taken from the remaining bytes. -/
theorem readVarint64_taken {behind : List Byte} {number : Nat} (here : At window input rest)
    (taken : takeNumber longest rest = some (number, behind)) :
    input.readVarint64 window =
      .ok (some (BitVec.ofNat 64 number), CodedInputStream.before window input behind) := by
  rw [readVarint64, here.singleByte, ok_bind]
  split
  case h_1 byte single =>
    obtain ⟨further, rfl, whole⟩ := singleByte_number single
    rw [taken] at whole
    cases whole
    rw [here.step, BitVec.ofNat_toNat]
  case h_2 => exact here.readVarint64Fallback_taken taken

theorem readVarint64_none (here : At window input rest) (none : takeNumber longest rest = none) :
    ∃ position, input.readVarint64 window = .ok (.none, input.moved position) := by
  rw [readVarint64, here.singleByte, ok_bind]
  split
  case h_1 byte single =>
    obtain ⟨further, rfl, whole⟩ := singleByte_number single
    rw [none] at whole
    cases whole
  case h_2 => exact here.readVarint64Fallback_none none

/-- A tag is taken from the remaining bytes and remembered. -/
theorem readTag_taken {behind : List Byte} {number : Nat} (here : At window input rest)
    (taken : takeNumber longest rest = some (number, behind)) :
    input.readTag window = .ok (BitVec.ofNat 32 number,
      { CodedInputStream.before window input behind with lastTag := BitVec.ofNat 32 number }) := by
  have cut : (BitVec.ofNat 64 number).setWidth 32 = BitVec.ofNat 32 number :=
    BitVec.setWidth_ofNat_of_le (by decide) number
  rw [readTag, here.singleByte, ok_bind]
  split
  case h_1 byte single =>
    obtain ⟨further, rfl, whole⟩ := singleByte_number single
    rw [taken] at whole
    cases whole
    rw [here.step, BitVec.ofNat_toNat]
  case h_2 =>
    have fallback : input.readTagFallback window =
        .ok (BitVec.ofNat 32 number, CodedInputStream.before window input behind) := by
      obtain ⟨sure, test, whole⟩ := here.holdsNumber
      rw [readTagFallback, test, ok_bind]
      cases sure with
      | true =>
        obtain ⟨position, there, read⟩ := readVarint32FromArray_taken window input.buffer rest behind
          true number here.stands (takeGroups_number (whole rfl) taken)
        rw [if_pos rfl, read, ok_bind, ← moved_eq there]
        rfl
      | false =>
        have nonempty : rest ≠ [] := by
          rintro rfl
          cases taken
        have size : ¬input.bufferSize = 0 := by
          rw [here.bufferSize]
          have := List.length_pos_iff.mpr nonempty
          omega
        have more : ¬input.buffer = input.bufferEnd := fun ended =>
          nonempty (here.ended_iff.mp ended)
        rw [if_neg Bool.false_ne_true, if_neg fun atLimit => size atLimit.1, readTagSlow,
          if_neg more, here.readVarint64_taken taken, ok_bind]
        dsimp only
        rw [Option.map_some, Option.getD_some, cut]
    rw [fallback, ok_bind]

/-- At the end of the array there is no tag, and the message ends properly. -/
theorem readTag_end (here : At window input []) :
    input.readTag window = .ok (0, { input with lastTag := 0, legitimateMessageEnd := true }) := by
  have ended := here.ended_iff.mpr rfl
  have size := here.bufferSize
  have total := here.totalBytesRead
  have limit := here.currentLimit
  have whole := here.totalBytesLimit
  have bound := here.bounded
  have none : ¬input.bufferEnd > input.buffer := by omega
  have short : ¬input.bufferSize ≥ kMaxVarintBytes := by
    rw [size]
    decide
  have fallback : input.readTagFallback window =
      .ok (0, { input with legitimateMessageEnd := true }) := by
    rw [readTagFallback, CodedInputStream.holdsNumber, if_neg short, if_neg none, ok_bind,
      if_neg Bool.false_ne_true]
    split
    case isTrue => rfl
    case isFalse beyond =>
      rw [readTagSlow, if_pos ended, here.refresh, ok_bind]
      dsimp only
      have after := here.bufferSizeAfterLimit
      have zero : input.bufferSize = 0 := size
      split
      case isTrue reached =>
        have equal : input.currentLimit = input.totalBytesLimit := by omega
        rw [decide_eq_true equal]
      case isFalse => rfl
  rw [readTag, here.singleByte, ok_bind]
  show (input.readTagFallback window >>= fun result => _) = _
  rw [fallback, ok_bind]

/-- Bytes that hold no number yield no tag. -/
theorem readTag_none (here : At window input rest) (nonempty : rest ≠ [])
    (none : takeNumber longest rest = none) :
    ∃ position, input.readTag window = .ok (0, { input.moved position with lastTag := 0 }) := by
  rw [readTag, here.singleByte, ok_bind]
  split
  case h_1 byte single =>
    obtain ⟨further, rfl, whole⟩ := singleByte_number single
    rw [none] at whole
    cases whole
  case h_2 =>
    have fallback : ∃ position, input.readTagFallback window = .ok (0, input.moved position) := by
      obtain ⟨sure, test, whole⟩ := here.holdsNumber
      rw [readTagFallback, test, ok_bind]
      cases sure with
      | true =>
        obtain ⟨groups, beyond, lines⟩ := takeGroups_overlong (whole rfl) none
        obtain ⟨position, there, read⟩ := readVarint32FromArray_taken window input.buffer rest beyond
          false groups here.stands lines
        refine ⟨input.buffer, ?_⟩
        rw [if_pos rfl, read, ok_bind]
        rfl
      | false =>
        have size : ¬input.bufferSize = 0 := by
          rw [here.bufferSize]
          have := List.length_pos_iff.mpr nonempty
          omega
        have more : ¬input.buffer = input.bufferEnd := fun ended =>
          nonempty (here.ended_iff.mp ended)
        obtain ⟨position, failed⟩ := here.readVarint64_none none
        refine ⟨position, ?_⟩
        rw [if_neg Bool.false_ne_true, if_neg fun atLimit => size atLimit.1, readTagSlow,
          if_neg more, failed, ok_bind]
        rfl
    obtain ⟨position, failed⟩ := fallback
    refine ⟨position, ?_⟩
    rw [failed, ok_bind]

/-- An expected tag is stepped over only where its canonical spelling comes next. -/
theorem expectTag_spelled (here : At window input rest) (expected : BitVec 32) :
    input.expectTag window expected = .ok (false, input) ∨
      ∃ behind, rest = tagBytes expected ++ behind ∧
        input.expectTag window expected = .ok (true, CodedInputStream.before window input behind) := by
  rw [expectTag]
  split
  case isTrue small =>
    have bound : expected.toNat < 128 := small
    split
    case isTrue more =>
      cases rest with
      | nil => exact absurd rfl (here.started_iff.mp more)
      | cons first behind =>
        rw [here.stands.read, ok_bind]
        split
        case isTrue same =>
          have spelled : tagBytes expected = [first] := by
            rw [tagBytes, encode_last _ bound, ← same]
            have fits := first.isLt
            have value : (first.setWidth 32).toNat = first.toNat := by
              rw [BitVec.toNat_setWidth]
              omega
            rw [value, BitVec.ofNat_toNat, BitVec.setWidth_eq]
          right
          refine ⟨behind, by rw [spelled]; rfl, ?_⟩
          rw [here.step]
        case isFalse => exact .inl rfl
    case isFalse => exact .inl rfl
  case isFalse large =>
    have above : 128 ≤ expected.toNat := Nat.le_of_not_lt large
    split
    case isTrue narrow =>
      have bound : expected.toNat < 16384 := narrow
      split
      case isTrue room =>
        rw [here.bufferSize] at room
        match rest, here, room with
        | [], _, room => exact absurd room (by decide)
        | [_], _, room => exact absurd room (by simp)
        | first :: second :: behind, here, _ =>
          rw [here.stands.read, ok_bind]
          split
          case isTrue low =>
            rw [here.stands.next.read, ok_bind]
            split
            case isTrue high =>
              have spelled : tagBytes expected = [first, second] := by
                have quotient : expected.toNat / 128 < 128 := by omega
                have lower : BitVec.ofNat 8 (expected.toNat % 128 + 128) =
                    (expected ||| 0x80).setWidth 8 := by
                  apply BitVec.eq_of_toNat_eq
                  rw [BitVec.toNat_ofNat, BitVec.toNat_setWidth, BitVec.toNat_or]
                  show _ = (expected.toNat ||| 128) % 256
                  rw [high_bit]
                  omega
                have upper : BitVec.ofNat 8 (expected.toNat / 128) = (expected >>> 7).setWidth 8 := by
                  apply BitVec.eq_of_toNat_eq
                  rw [BitVec.toNat_ofNat, BitVec.toNat_setWidth, BitVec.toNat_ushiftRight,
                    Nat.shiftRight_eq_div_pow]
                rw [tagBytes, encode_more _ above, encode_last _ quotient, lower, upper, ← low,
                  ← high]
              right
              have front : At window input ([first, second] ++ behind) := here
              refine ⟨behind, by rw [spelled]; rfl, ?_⟩
              rw [← front.advance_eq]
              rfl
            case isFalse => exact .inl rfl
          case isFalse => exact .inl rfl
      case isFalse => exact .inl rfl
    case isFalse => exact .inl rfl

/-- The end is expected exactly behind the last byte. -/
theorem expectAtEnd_iff (here : At window input rest) :
    input.expectAtEnd = if rest = [] then
      (true, { input with lastTag := 0, legitimateMessageEnd := true }) else (false, input) := by
  have limit : input.totalBytesRead = input.currentLimit :=
    here.totalBytesRead.trans here.currentLimit.symm
  rw [expectAtEnd]
  by_cases ended : rest = []
  · rw [if_pos ended, if_pos ⟨here.ended_iff.mpr ended, .inr limit⟩]
  · rw [if_neg ended, if_neg fun atEnd => ended (here.ended_iff.mp atEnd.1)]

/-- Some of the remaining bytes are copied. -/
theorem copyBytes {cells : List Byte} (here : At window input (cells ++ rest)) :
    input.copyBytes window cells.length = .ok cells := by
  obtain ⟨inside, copied⟩ := here.stands.copy
  rw [CodedInputStream.copyBytes, if_pos ⟨inside, Int.natCast_nonneg _⟩, Int.toNat_natCast, copied]

/-- All of the remaining bytes are copied when more are asked for. -/
theorem copyRest (here : At window input rest) :
    input.copyBytes window input.bufferSize = .ok rest ∧
      input.advance input.bufferSize = input.moved window.length := by
  have whole : At window input (rest ++ []) := by rwa [List.append_nil]
  have position := whole.advance_eq
  rw [here.bufferSize]
  refine ⟨whole.copyBytes, ?_⟩
  rw [position, CodedInputStream.before]
  simp

/-- The stream at its end still finds the limit. -/
theorem refresh_moved (here : At window input rest) (position : Int) :
    (input.moved position).refresh = .ok () := here.refresh

/-- A word is taken from the remaining bytes. -/
theorem readLittleEndian_taken {cells : List Byte} (here : At window input (cells ++ rest)) :
    input.readLittleEndian cells.length window = .ok (some (word (8 * cells.length) cells),
      CodedInputStream.before window input rest) := by
  have room : input.bufferSize ≥ cells.length := by
    rw [here.bufferSize, List.length_append]
    omega
  rw [readLittleEndian, if_pos room, here.copyBytes, ok_bind, here.advance_eq]

theorem readLittleEndian_none (here : At window input rest) (width : Nat)
    (short : rest.length < width) :
    ∃ position, input.readLittleEndian width window = .ok (.none, input.moved position) := by
  have size := here.bufferSize
  have little : ¬input.bufferSize ≥ width := by omega
  have fallback : ¬(input.bufferSize < 0 ∨ input.bufferSize ≥ width) := by omega
  have less : input.bufferSize < width := by omega
  refine ⟨window.length, ?_⟩
  rw [readLittleEndian, if_neg little, readLittleEndianFallback, if_neg fallback, readRaw,
    if_pos less, here.copyRest.1, ok_bind, here.copyRest.2]
  dsimp only
  rw [here.refresh_moved, ok_bind, ok_bind]
  rfl

/-- A text is taken from the remaining bytes. -/
theorem readString_taken {text : List Byte} (here : At window input (text ++ rest)) :
    input.internalReadStringInline window text.length =
      .ok (some text, CodedInputStream.before window input rest) := by
  have room : input.bufferSize ≥ text.length := by
    rw [here.bufferSize, List.length_append]
    omega
  rw [internalReadStringInline, if_neg (Int.not_lt.mpr (Int.natCast_nonneg _)), if_pos room]
  split
  case isTrue => rw [here.copyBytes, ok_bind, here.advance_eq]
  case isFalse empty =>
    have nothing : text = [] := List.length_eq_zero_iff.mp (by omega)
    subst nothing
    rw [← here.advance_eq, List.length_nil, Nat.cast_zero, advance, add_zero]

theorem readString_none (here : At window input rest) (size : Int)
    (long : size < 0 ∨ rest.length < size) :
    ∃ position, input.internalReadStringInline window size = .ok (.none, input.moved position) := by
  have remaining := here.bufferSize
  rw [internalReadStringInline]
  split
  case isTrue => exact ⟨input.buffer, rfl⟩
  case isFalse positive =>
    have little : ¬input.bufferSize ≥ size := by omega
    have less : input.bufferSize < size := by omega
    refine ⟨window.length, ?_⟩
    rw [if_neg little, readStringFallback, if_pos less, here.copyRest.1, here.copyRest.2]
    dsimp only
    rw [here.refresh_moved]
    split <;> rfl

end At

end CodedInputStream

end Sniffles
