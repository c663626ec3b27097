import Mathlib.Data.List.Basic
import Mathlib.Data.Nat.Bitwise
import Mathlib.Tactic.Ring

/-!
# Little-endian bit sequences

A bit list denotes the natural number whose least significant bit comes first.
A byte memory denotes the bit sequence that lists each byte from its low bit
upwards. A position in that sequence is a plain natural number; the window of a
given length at a position denotes an unsigned value, and the same bits denote
a signed one in two's complement.
-/

namespace BitSequences

abbrev Byte := BitVec 8

/-- The first bit contributes one; each subsequent bit doubles its weight. -/
def value : List Bool → Nat
  | [] => 0
  | bit :: rest => bit.toNat + 2 * value rest

/-- The bits of a value are the listed bits, followed by zeros. -/
theorem value_testBit (bits : List Bool) (index : Nat) :
    (value bits).testBit index = bits.getD index false := by
  induction bits generalizing index with
  | nil => simp [value]
  | cons bit rest inductionHypothesis =>
    cases index with
    | zero => cases bit <;> simp [value, Nat.testBit_zero]
    | succ index =>
      have halved : value (bit :: rest) / 2 = value rest := by
        cases bit <;> simp only [value, Bool.toNat_false, Bool.toNat_true] <;> omega
      rw [Nat.testBit_succ, halved, inductionHypothesis]
      simp

/-- A list of a given length denotes a value of at most that many bits. -/
theorem value_bound (bits : List Bool) : value bits < 2 ^ bits.length := by
  induction bits with
  | nil => decide
  | cons bit rest inductionHypothesis =>
    cases bit <;> simp only [value, List.length_cons, Nat.pow_succ, Bool.toNat_false,
      Bool.toNat_true] <;> omega

/-- A value is recovered from its bits: two numbers with the same bits are equal. -/
theorem value_eq_of_testBit (bits : List Bool) (number : Nat)
    (same : ∀ index, number.testBit index = bits.getD index false) : number = value bits := by
  apply Nat.eq_of_testBit_eq
  intro index
  rw [same, value_testBit]

/-- Bits behind others weigh as much more as there are others. -/
theorem value_append (first second : List Bool) :
    value (first ++ second) = value first + 2 ^ first.length * value second := by
  induction first with
  | nil => simp [value]
  | cons bit rest inductionHypothesis =>
    rw [List.cons_append, value, value, inductionHypothesis, List.length_cons, Nat.pow_succ]
    ring

/-- Two's complement reading of an unsigned value of the given width. -/
def twosComplement (width unsigned : Nat) : Int :=
  if 2 * unsigned < 2 ^ width then unsigned else (unsigned : Int) - 2 ^ width

/-- The bit of a byte memory at a bit position. Addresses are integers because a
    pointer may be moved before the start of a buffer; positions start at zero. -/
def memoryBit (memory : Int → Byte) (position : Nat) : Bool :=
  (memory (position / 8 : Nat)).getLsbD (position % 8)

/-- The bit list of the first bytes of a memory. -/
def bitList (memory : Int → Byte) (bytes : Nat) : List Bool :=
  (List.range (8 * bytes)).map (memoryBit memory)

/-- The next bits from a position. -/
def window (bits : List Bool) (position count : Nat) : List Bool :=
  (bits.drop position).take count

@[simp] theorem bitList_length (memory : Int → Byte) (bytes : Nat) :
    (bitList memory bytes).length = 8 * bytes := by
  simp [bitList]

/-- A window inside the list contains exactly the memory bits at its positions. -/
theorem window_getD (memory : Int → Byte) (bytes position count index : Nat)
    (inside : position + count ≤ 8 * bytes) :
    (window (bitList memory bytes) position count).getD index false =
      (decide (index < count) && memoryBit memory (position + index)) := by
  by_cases within : index < count
  · have stored : position + index < 8 * bytes := by omega
    simp [window, bitList, List.getD_eq_getElem?_getD, within, stored]
  · simp [window, List.getD_eq_getElem?_getD, within]

/-- A window denotes a value of its own width. -/
theorem window_bound (bits : List Bool) (position count : Nat) :
    value (window bits position count) < 2 ^ count :=
  Nat.lt_of_lt_of_le (value_bound _)
    (Nat.pow_le_pow_right (by decide) (List.length_take_le count _))

/-- A window splits into its first bits and the window behind them. -/
theorem window_add (bits : List Bool) (position a b : Nat) :
    window bits position (a + b) = window bits position a ++ window bits (position + a) b := by
  simp only [window, List.take_add, List.drop_drop]

/-- The value of a window inside the list splits likewise. -/
theorem window_split (bits : List Bool) (position a b : Nat) (inside : position + a ≤ bits.length) :
    value (window bits position (a + b)) =
      value (window bits position a) + 2 ^ a * value (window bits (position + a) b) := by
  have length : (window bits position a).length = a := by
    simp only [window, List.length_take, List.length_drop]
    omega
  rw [window_add, value_append, length]

/-- A window that lists two sequences one behind the other lists each at its place. -/
theorem window_parts (bits first second : List Bool) (position a b : Nat)
    (listed : window bits position (a + b) = first ++ second) (low : first.length = a)
    (high : second.length = b) :
    window bits position a = first ∧ window bits (position + a) b = second := by
  rw [window_add] at listed
  have length := congrArg List.length listed
  simp only [List.length_append, window, List.length_take, List.length_drop] at length
  apply List.append_inj listed
  simp only [window, List.length_take, List.length_drop]
  omega

/-- The low bits of a number. -/
def numberBits (count number : Nat) : List Bool := (List.range count).map number.testBit

@[simp] theorem numberBits_length (count number : Nat) : (numberBits count number).length = count := by
  simp [numberBits]

/-- The low bits of a number denote its remainder. -/
theorem value_numberBits (count number : Nat) :
    value (numberBits count number) = number % 2 ^ count := by
  symm
  apply value_eq_of_testBit
  intro index
  rw [Nat.testBit_mod_two_pow]
  by_cases low : index < count
  · simp [numberBits, List.getD_eq_getElem?_getD, low]
  · simp [numberBits, List.getD_eq_getElem?_getD, low]

/-- Sequences of one length that denote one value are the same. -/
theorem value_injective (first second : List Bool) (width : first.length = second.length)
    (same : value first = value second) : first = second := by
  apply List.ext_getElem width
  intro index low high
  have bit := value_testBit first index
  rw [same, value_testBit] at bit
  simpa [List.getD_eq_getElem?_getD, low, high] using bit.symm

/-- The low bits of a value and the others above them are joined by an or. -/
theorem joined_value (low high : BitVec 32) (a b : Nat) (small : low.toNat < 2 ^ a)
    (fits : high.toNat < 2 ^ b) (width : a + b ≤ 32) :
    (low ||| (high <<< a)).toNat = low.toNat + 2 ^ a * high.toNat := by
  have bound : 2 ^ a * high.toNat < 2 ^ 32 := by
    calc 2 ^ a * high.toNat < 2 ^ a * 2 ^ b := Nat.mul_lt_mul_of_pos_left fits (Nat.two_pow_pos a)
      _ = 2 ^ (a + b) := (Nat.pow_add 2 a b).symm
      _ ≤ 2 ^ 32 := Nat.pow_le_pow_right (by decide) width
  rw [BitVec.toNat_or, BitVec.toNat_shiftLeft, Nat.shiftLeft_eq, Nat.mul_comm,
    Nat.mod_eq_of_lt bound, Nat.lor_comm, ← Nat.two_pow_add_eq_or_of_lt small, Nat.add_comm]

/-- The bits of a byte, the lowest first. -/
def byteBits (byte : Byte) : List Bool := numberBits 8 byte.toNat

/-- The bits of a byte sequence. -/
def textBits (text : List Byte) : List Bool := text.flatMap byteBits

/-- The next bits from a position are those of a byte sequence. -/
def Follows (bits : List Bool) (position : Nat) (text : List Byte) : Prop :=
  window bits position (8 * text.length) = textBits text

instance (bits : List Bool) (position : Nat) (text : List Byte) :
    Decidable (Follows bits position text) := inferInstanceAs (Decidable (_ = _))

/-- The byte made of the eight bits at a position. -/
def byteAt (bits : List Bool) (position : Nat) : Byte :=
  BitVec.ofNat 8 (value (window bits position 8))

/-- A number of bytes one behind the other from a position. -/
def bytesFrom (bits : List Bool) (position : Nat) : Nat → List Byte
  | 0 => []
  | count + 1 => byteAt bits position :: bytesFrom bits (position + 8) count

@[simp] theorem bytesFrom_length (bits : List Bool) (position count : Nat) :
    (bytesFrom bits position count).length = count := by
  induction count generalizing position with
  | zero => rfl
  | succ count inductionHypothesis => rw [bytesFrom, List.length_cons, inductionHypothesis]

/-- A longer sequence of bytes goes on where a shorter one ends. -/
theorem bytesFrom_add (bits : List Bool) (position a b : Nat) :
    bytesFrom bits position (a + b) =
      bytesFrom bits position a ++ bytesFrom bits (position + 8 * a) b := by
  induction a generalizing position with
  | zero => rw [Nat.zero_add, bytesFrom, List.nil_append, Nat.mul_zero, Nat.add_zero]
  | succ a inductionHypothesis =>
    have next : position + 8 + 8 * a = position + 8 * (a + 1) := by ring
    rw [Nat.succ_add, bytesFrom, bytesFrom, inductionHypothesis, next, List.cons_append]

/-- Bytes stored one behind the other from an address. -/
def storedFrom (address : Int) : List Byte → List (Int × Byte)
  | [] => []
  | byte :: rest => (address, byte) :: storedFrom (address + 1) rest

/-- Stored bytes stay between the address and the end of the text. -/
theorem storedFrom_bounded (address : Int) (text : List Byte) (store : Int × Byte)
    (stored : store ∈ storedFrom address text) :
    address ≤ store.1 ∧ store.1 < address + text.length := by
  induction text generalizing address with
  | nil => cases stored
  | cons byte rest inductionHypothesis =>
    rw [List.length_cons]
    rcases List.mem_cons.mp stored with rfl | later
    · constructor <;> simp only <;> omega
    · obtain ⟨low, high⟩ := inductionHypothesis (address + 1) later
      constructor <;> omega

/-- A text stored behind another one starts where that one ends. -/
theorem storedFrom_append (address : Int) (first second : List Byte) :
    storedFrom address (first ++ second) =
      storedFrom address first ++ storedFrom (address + first.length) second := by
  induction first generalizing address with
  | nil => simp [storedFrom]
  | cons byte rest inductionHypothesis =>
    have next : address + 1 + (rest.length : Int) = address + ((rest.length + 1 : Nat) : Int) := by
      omega
    rw [List.cons_append, storedFrom, storedFrom, inductionHypothesis, List.length_cons, next,
      List.cons_append]

@[simp] theorem byteBits_length (byte : Byte) : (byteBits byte).length = 8 :=
  numberBits_length 8 byte.toNat

@[simp] theorem textBits_length (text : List Byte) : (textBits text).length = 8 * text.length := by
  induction text with
  | nil => rfl
  | cons byte rest inductionHypothesis =>
    rw [textBits, List.flatMap_cons, List.length_append, byteBits_length, List.length_cons]
    have tail : (rest.flatMap byteBits).length = 8 * rest.length := inductionHypothesis
    omega

/-- The bits of a byte denote it. -/
theorem value_byteBits (byte : Byte) : value (byteBits byte) = byte.toNat := by
  rw [byteBits, value_numberBits, Nat.mod_eq_of_lt byte.isLt]

/-- The eight bits at a position are those of the byte there. -/
theorem byteBits_byteAt (bits : List Bool) (position : Nat) (inside : position + 8 ≤ bits.length) :
    byteBits (byteAt bits position) = window bits position 8 := by
  have length : (window bits position 8).length = 8 := by
    simp only [window, List.length_take, List.length_drop]
    omega
  apply value_injective
  · rw [byteBits_length, length]
  · rw [value_byteBits, byteAt, BitVec.toNat_ofNat, Nat.mod_eq_of_lt (window_bound _ _ _)]

/-- The bytes from a position list the window there. -/
theorem textBits_bytesFrom (bits : List Bool) (position count : Nat)
    (inside : position + 8 * count ≤ bits.length) :
    textBits (bytesFrom bits position count) = window bits position (8 * count) := by
  induction count generalizing position with
  | zero => simp [bytesFrom, textBits, window]
  | succ count inductionHypothesis =>
    have total : 8 * (count + 1) = 8 + 8 * count := by ring
    have rest : textBits (bytesFrom bits (position + 8) count) =
        window bits (position + 8) (8 * count) := inductionHypothesis _ (by omega)
    rw [total, window_add, ← byteBits_byteAt bits position (by omega), ← rest]
    rfl

/-- Zeros behind a sequence do not change what it denotes. -/
theorem value_padded (bits : List Bool) (zeros : Nat) :
    value (bits ++ List.replicate zeros false) = value bits := by
  have none : value (List.replicate zeros false) = 0 := by
    induction zeros with
    | zero => rfl
    | succ zeros inductionHypothesis =>
      rw [List.replicate_succ, value, inductionHypothesis]
      rfl
  rw [value_append, none, Nat.mul_zero, Nat.add_zero]

/-- A byte that denotes fewer than eight bits lists them with zeros behind them. -/
theorem byteBits_padded (bits : List Bool) (short : bits.length ≤ 8) :
    byteBits (BitVec.ofNat 8 (value bits)) = bits ++ List.replicate (8 - bits.length) false := by
  apply value_injective
  · rw [byteBits_length, List.length_append, List.length_replicate]
    omega
  · have bound : value bits < 2 ^ 8 :=
      Nat.lt_of_lt_of_le (value_bound bits) (Nat.pow_le_pow_right (by decide) short)
    rw [value_byteBits, value_padded, BitVec.toNat_ofNat, Nat.mod_eq_of_lt bound]

/-- The first byte of a following sequence is read at the position, and the rest
    follows eight bits further. -/
theorem Follows.cons {bits : List Bool} {position : Nat} {byte : Byte} {rest : List Byte}
    (follows : Follows bits position (byte :: rest)) :
    byteAt bits position = byte ∧ Follows bits (position + 8) rest := by
  have total : 8 * (byte :: rest).length = 8 + 8 * rest.length := by
    rw [List.length_cons]
    omega
  have listed : textBits (byte :: rest) = byteBits byte ++ textBits rest := rfl
  rw [Follows, total, listed] at follows
  obtain ⟨first, others⟩ := window_parts bits _ _ position 8 (8 * rest.length) follows
    (byteBits_length byte) (textBits_length rest)
  refine ⟨?_, others⟩
  rw [byteAt, first, value_byteBits, BitVec.ofNat_toNat, BitVec.setWidth_eq]

/-- Every byte of a following sequence is read at its place. -/
theorem Follows.byte {bits : List Bool} {position : Nat} {text : List Byte}
    (follows : Follows bits position text) (index : Nat) (within : index < text.length) :
    byteAt bits (position + 8 * index) = text[index] := by
  induction text generalizing position index with
  | nil => exact absurd within (Nat.not_lt_zero index)
  | cons byte rest inductionHypothesis =>
    obtain ⟨first, others⟩ := follows.cons
    cases index with
    | zero => exact first
    | succ index =>
      have next := inductionHypothesis others index (Nat.lt_of_succ_lt_succ within)
      rw [Nat.add_assoc] at next
      rw [Nat.mul_succ, Nat.add_comm (8 * index) 8]
      exact next

/-- A nonempty following sequence lies inside the list. -/
theorem Follows.inside {bits : List Bool} {position : Nat} {text : List Byte}
    (follows : Follows bits position text) (nonempty : 0 < text.length) :
    position + 8 * text.length ≤ bits.length := by
  have length := congrArg List.length follows
  simp only [textBits_length, window, List.length_take, List.length_drop] at length
  omega

/-- Four bytes from an address, the first one least significant. -/
def loadWord (memory : Int → Byte) (address : Int) : BitVec 32 :=
  memory (address + 3) ++ memory (address + 2) ++ memory (address + 1) ++ memory address

/-- A bit position splits into the byte address and the bit of that byte. -/
theorem memoryBit_byte (memory : Int → Byte) (address offset : Nat) (inside : offset < 8) :
    memoryBit memory (8 * address + offset) = (memory address).getLsbD offset := by
  have quotient : (8 * address + offset) / 8 = address := by omega
  have remainder : (8 * address + offset) % 8 = offset := by omega
  rw [memoryBit, quotient, remainder]

/-- The bits of a loaded word are the memory bits from its address. -/
theorem loadWord_bit (memory : Int → Byte) (address index : Nat) (inside : index < 32) :
    (loadWord memory address).getLsbD index = memoryBit memory (8 * address + index) := by
  have byteAt (skipped : Nat) (low : 8 * skipped ≤ index) (high : index < 8 * skipped + 8) :
      memoryBit memory (8 * address + index) =
        (memory ((address : Int) + skipped)).getLsbD (index - 8 * skipped) := by
    have split : 8 * address + index = 8 * (address + skipped) + (index - 8 * skipped) := by omega
    rw [split, memoryBit_byte memory _ _ (by omega), Int.natCast_add]
  unfold loadWord
  simp only [BitVec.getLsbD_append]
  by_cases first : index < 8
  · simpa [first] using (byteAt 0 (by omega) (by omega)).symm
  · by_cases second : index < 16
    · have inByte : index - 8 < 8 := by omega
      simpa [first, inByte] using (byteAt 1 (by omega) (by omega)).symm
    · have past : ¬ index - 8 < 8 := by omega
      by_cases third : index < 24
      · have inByte : index - 8 - 8 < 8 := by omega
        have same : index - 8 - 8 = index - 8 * 2 := by omega
        simp only [first, past, inByte, if_false, if_true]
        rw [same]
        exact (byteAt 2 (by omega) (by omega)).symm
      · have pastByte : ¬ index - 8 - 8 < 8 := by omega
        have same : index - 8 - 8 - 8 = index - 8 * 3 := by omega
        simp only [first, past, pastByte, if_false]
        rw [same]
        exact (byteAt 3 (by omega) (by omega)).symm

/-- The bytes of a word in memory. -/
def wordBytes (word : BitVec 32) : List Byte :=
  [word.setWidth 8, (word >>> 8).setWidth 8, (word >>> 16).setWidth 8, (word >>> 24).setWidth 8]

/-- The word stored in four bytes. -/
def joinBytes (stored : Vector Byte 4) : BitVec 32 :=
  stored.get 3 ++ stored.get 2 ++ stored.get 1 ++ stored.get 0

/-- The bytes of a word as four cells. -/
def wordCells (word : BitVec 32) : Vector Byte 4 := ⟨(wordBytes word).toArray, rfl⟩

@[simp] theorem wordBytes_length (word : BitVec 32) : (wordBytes word).length = 4 := rfl

theorem wordCells_toList (word : BitVec 32) : (wordCells word).toList = wordBytes word := rfl

/-- Four stored bytes are read as the word they came from. -/
theorem joinBytes_wordCells (word : BitVec 32) : joinBytes (wordCells word) = word := by
  apply BitVec.eq_of_getLsbD_eq
  intro index inside
  have joined : joinBytes (wordCells word) =
      (word >>> 24).setWidth 8 ++ (word >>> 16).setWidth 8 ++ (word >>> 8).setWidth 8 ++
        word.setWidth 8 := rfl
  simp only [joined, BitVec.getLsbD_append, BitVec.getLsbD_setWidth, BitVec.getLsbD_ushiftRight]
  by_cases first : index < 8
  · simp [first]
  · by_cases second : index - 8 < 8
    · have place : 8 + (index - 8) = index := by omega
      simp [first, second, place]
    · by_cases third : index - 8 - 8 < 8
      · have place : 16 + (index - 8 - 8) = index := by omega
        simp [first, second, third, place]
      · have last : index - 8 - 8 - 8 < 8 := by omega
        have place : 24 + (index - 8 - 8 - 8) = index := by omega
        simp [first, second, third, last, place]

/-- Four bytes are those of the word stored in them. -/
theorem wordBytes_joinBytes (word : Vector Byte 4) : wordBytes (joinBytes word) = word.toList := by
  have cell (shift : Nat) (index : Fin 4) (place : shift = 8 * index.val) :
      (joinBytes word >>> shift).setWidth 8 = word.get index := by
    apply BitVec.eq_of_getLsbD_eq
    intro bit inside
    subst place
    have joined : joinBytes word = word.get 3 ++ word.get 2 ++ word.get 1 ++ word.get 0 := rfl
    simp only [joined, BitVec.getLsbD_setWidth, BitVec.getLsbD_ushiftRight, BitVec.getLsbD_append,
      inside, decide_true, Bool.true_and]
    match index with
    | 0 =>
      have start : 8 * ((0 : Fin 4) : Nat) + bit = bit := Nat.zero_add bit
      rw [start, if_pos inside]
    | 1 =>
      have start : 8 * ((1 : Fin 4) : Nat) = 8 := rfl
      have place : 8 + bit - 8 = bit := by omega
      rw [start, if_neg (by omega), place, if_pos inside]
    | 2 =>
      have start : 8 * ((2 : Fin 4) : Nat) = 16 := rfl
      have place : 16 + bit - 8 - 8 = bit := by omega
      rw [start, if_neg (by omega), if_neg (by omega), place, if_pos inside]
    | 3 =>
      have start : 8 * ((3 : Fin 4) : Nat) = 24 := rfl
      have place : 24 + bit - 8 - 8 - 8 = bit := by omega
      rw [start, if_neg (by omega), if_neg (by omega), if_neg (by omega), place]
  have first : (joinBytes word).setWidth 8 = word.get 0 := by
    have unshifted := cell 0 0 rfl
    rwa [BitVec.ushiftRight_zero] at unshifted
  rw [wordBytes, first, cell 8 1 rfl, cell 16 2 rfl, cell 24 3 rfl]
  obtain ⟨⟨cells⟩, size⟩ := word
  match cells, size with
  | [_, _, _, _], _ => rfl

/-- The bytes of a word of four bytes are those at its place. -/
theorem wordBytes_window (bits : List Bool) (position : Nat) (word : BitVec 32)
    (inside : position + 32 ≤ bits.length)
    (denotes : word.toNat = value (window bits position 32)) :
    wordBytes word = bytesFrom bits position 4 := by
  have first := window_split bits position 8 24 (by omega)
  have second := window_split bits (position + 8) 8 16 (by omega)
  have third := window_split bits (position + 8 + 8) 8 8 (by omega)
  have low := window_bound bits position 8
  have middle := window_bound bits (position + 8) 8
  have upper := window_bound bits (position + 8 + 8) 8
  have high := window_bound bits (position + 8 + 8 + 8) 8
  simp only [Nat.reduceAdd] at first second third
  simp only [wordBytes, bytesFrom, byteAt, List.cons.injEq, and_true]
  refine ⟨?_, ?_, ?_, ?_⟩ <;> apply BitVec.eq_of_toNat_eq <;>
    simp only [BitVec.toNat_setWidth, BitVec.toNat_ofNat, BitVec.toNat_ushiftRight,
      Nat.shiftRight_eq_div_pow] <;> omega

end BitSequences
