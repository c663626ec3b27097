import Sniffles.BitCursor

/-!
# Numbers with a two-bit class

`ReadUBitVar` reads four low bits and a class of two, and then as many bits as
the class says. Its value is always the low bits joined with the others above
them, so the assertion that the value needs its class is exactly the statement
that a smaller class would not have held it, and then the bits consumed are the
only shortest encoding of the value. `ReadVarUBit` has five low bits, shorter
extensions and no assertion; every encoding is read back, shortest or not.
-/

namespace Sniffles.CBitRead

open BitSequences MachineIntegers

/-- The bits that follow a class of `ReadUBitVar`. -/
def extension (cls : Nat) : Nat :=
  if cls = 1 then 4 else if cls = 2 then 8 else if cls = 3 then 28 else 0

/-- The least value that needs a class. -/
def least (cls : Nat) : Nat :=
  if cls = 1 then 16 else if cls = 2 then 256 else if cls = 3 then 4096 else 0

/-- The class of a value. -/
def classOf (number : Nat) : Nat :=
  if number < 16 then 0 else if number < 256 then 1 else if number < 4096 then 2 else 3

/-- The shortest encoding of a value: its low bits, its class and its next bits. -/
def ubitVarBits (number : Nat) : List Bool :=
  numberBits 4 number ++ (numberBits 2 (classOf number) ++
    numberBits (extension (classOf number)) (number / 16))

/-- The bits that follow a class of `ReadVarUBit`. -/
def extensionVarU (cls : Nat) : Nat :=
  if cls = 1 then 2 else if cls = 2 then 4 else if cls = 3 then 7 else 0

/-- The encoding of a value with a given class, for `ReadVarUBit`. -/
def varUBits (cls number : Nat) : List Bool :=
  numberBits 5 number ++ (numberBits 2 cls ++ numberBits (extensionVarU cls) (number / 32))

/-- The value at a window of a given width. -/
def windowValue (memory : Int → Byte) (bytes position count : Nat) : Nat :=
  value (window (bitList memory bytes) position count)

/-- A six-bit field masks to its low bits and to its class. -/
theorem ubitVar_fields (field : BitVec 32) (small : field.toNat < 64) :
    (field &&& 15#32).toNat = field.toNat % 16 ∧
      (field &&& (16#32 ||| 32#32)).toNat = 16 * (field.toNat / 16) := by
  have every : ∀ low : Fin 64, (BitVec.ofNat 32 low &&& 15#32).toNat = low % 16 ∧
      (BitVec.ofNat 32 low &&& (16#32 ||| 32#32)).toNat = 16 * (low / 16) := by decide
  have same := every ⟨field.toNat, small⟩
  simpa only [BitVec.ofNat_toNat, BitVec.setWidth_eq] using same

/-- A seven-bit field masks to its low bits, with the class cleared, and to its class. -/
theorem varUBit_fields (field : BitVec 32) (small : field.toNat < 128) :
    (field &&& 0xFFFFFF9F#32).toNat = field.toNat % 32 ∧
      (field &&& 0x60#32).toNat = 32 * (field.toNat / 32) := by
  have every : ∀ low : Fin 128, (BitVec.ofNat 32 low &&& 0xFFFFFF9F#32).toNat = low % 32 ∧
      (BitVec.ofNat 32 low &&& 0x60#32).toNat = 32 * (low / 32) := by decide
  have same := every ⟨field.toNat, small⟩
  simpa only [BitVec.ofNat_toNat, BitVec.setWidth_eq] using same

/-- A product with 32 is a shift by five. -/
theorem shifted_five (more : BitVec 32) : 32#32 * more = more <<< 5 := by
  apply BitVec.eq_of_toNat_eq
  rw [BitVec.toNat_mul, BitVec.toNat_shiftLeft, Nat.shiftLeft_eq, Nat.mul_comm]
  rfl

/-- An unsigned read returns the value of its window. -/
theorem readUBitLong_window (memory : Int → Byte) (bytes : Nat) (r : CBitRead)
    (position count : Nat) (standing : At memory bytes false r position)
    (positive : 1 ≤ count) (width : count ≤ 32) (inside : position + count ≤ 8 * bytes) :
    (r.readUBitLong memory count).1.toNat = windowValue memory bytes position count ∧
      (r.readUBitLong memory count).1.toNat < 2 ^ count ∧
      At memory bytes false (r.readUBitLong memory count).2 (position + count) := by
  obtain ⟨result, advanced⟩ := readUBitLong_at memory bytes r position count standing positive
    width inside
  exact ⟨result, by rw [result]; exact window_bound _ _ _, advanced⟩

/-- Bits that are read next and stand above the low ones of a value are added to it
    with their weight. -/
theorem extended_value (memory : Int → Byte) (bytes : Nat) (r : CBitRead)
    (position shift numbits : Nat) (low : BitVec 32) (standing : At memory bytes false r position)
    (small : low.toNat < 2 ^ shift) (positive : 1 ≤ numbits) (width : shift + numbits ≤ 32)
    (inside : position + numbits ≤ 8 * bytes) :
    (low ||| ((r.readUBitLong memory numbits).1 <<< shift)).toNat =
        low.toNat + 2 ^ shift * windowValue memory bytes position numbits ∧
      At memory bytes false (r.readUBitLong memory numbits).2 (position + numbits) := by
  obtain ⟨more, bound, behind⟩ := readUBitLong_window memory bytes r position numbits standing
    positive (by omega) inside
  refine ⟨?_, behind⟩
  rw [joined_value low _ shift numbits small bound width, more]

/-- What `ReadUBitVar` reads: the low bits joined with the extension that the class
    announces, and whether the value needs that class. -/
theorem readUBitVar_at (memory : Int → Byte) (bytes : Nat) (r : CBitRead) (position cls : Nat)
    (standing : At memory bytes false r position)
    (classed : windowValue memory bytes position 6 / 16 = cls)
    (inside : position + (6 + extension cls) ≤ 8 * bytes) :
    (r.readUBitVar memory).1.toNat = windowValue memory bytes position 6 % 16 +
        16 * windowValue memory bytes (position + 6) (extension cls) ∧
      (r.readUBitVar memory).2.1 = decide (least cls ≤ (r.readUBitVar memory).1.toNat) ∧
      At memory bytes false (r.readUBitVar memory).2.2 (position + (6 + extension cls)) := by
  obtain ⟨field, small, advanced⟩ := readUBitLong_window memory bytes r position 6 standing
    (by decide) (by decide) (by omega)
  obtain ⟨low, tag⟩ := ubitVar_fields _ small
  have extended (numbits : Nat) (positive : 1 ≤ numbits) (width : numbits ≤ 28)
      (within : position + (6 + numbits) ≤ 8 * bytes) :
      ((((r.readUBitLong memory 6).1 &&& 15#32) |||
          (((r.readUBitLong memory 6).2.readUBitLong memory numbits).1 <<< 4)).toNat =
        windowValue memory bytes position 6 % 16 +
          16 * windowValue memory bytes (position + 6) numbits) ∧
      At memory bytes false ((r.readUBitLong memory 6).2.readUBitLong memory numbits).2
        (position + (6 + numbits)) := by
    have masked : ((r.readUBitLong memory 6).1 &&& 15#32).toNat < 2 ^ 4 := by
      rw [low]
      exact Nat.mod_lt _ (by decide)
    obtain ⟨joined, behind⟩ := extended_value memory bytes _ (position + 6) 4 numbits _ advanced masked
      positive (by omega) (by omega)
    rw [low, field] at joined
    rw [Nat.add_assoc] at behind
    exact ⟨joined, behind⟩
  rw [← field] at classed ⊢
  have ranged : cls = 0 ∨ cls = 1 ∨ cls = 2 ∨ cls = 3 := by omega
  rcases ranged with rfl | rfl | rfl | rfl
  · have none : ((r.readUBitLong memory 6).1 &&& (16#32 ||| 32#32)).toNat = 0 := by omega
    simp only [readUBitVar, none]
    refine ⟨?_, rfl, advanced⟩
    simp [windowValue, window, value, extension]
    omega
  · have four : ((r.readUBitLong memory 6).1 &&& (16#32 ||| 32#32)).toNat = 16 := by omega
    simp only [readUBitVar, four]
    obtain ⟨joined, behind⟩ := extended 4 (by decide) (by decide) inside
    exact ⟨by rw [joined, field]; rfl, rfl, behind⟩
  · have eight : ((r.readUBitLong memory 6).1 &&& (16#32 ||| 32#32)).toNat = 32 := by omega
    simp only [readUBitVar, eight]
    obtain ⟨joined, behind⟩ := extended 8 (by decide) (by decide) inside
    exact ⟨by rw [joined, field]; rfl, rfl, behind⟩
  · have rest : ((r.readUBitLong memory 6).1 &&& (16#32 ||| 32#32)).toNat = 48 := by omega
    simp only [readUBitVar, rest]
    obtain ⟨joined, behind⟩ := extended 28 (by decide) (by decide) inside
    exact ⟨by rw [joined, field]; rfl, rfl, behind⟩

/-- There are four classes. -/
theorem classOf_lt (number : Nat) : classOf number < 4 := by
  unfold classOf
  split_ifs <;> decide

/-- A class holds every value of its own and of smaller classes. -/
theorem classOf_holds (number : Nat) (fits : number < 2 ^ 32) :
    number < 2 ^ (4 + extension (classOf number)) ∧ least (classOf number) ≤ number := by
  by_cases first : number < 16
  · simp [classOf, first, extension, least]
  · by_cases second : number < 256
    · simp [classOf, first, second, extension, least]
      omega
    · by_cases third : number < 4096
      · simp [classOf, first, second, third, extension, least]
        omega
      · simp [classOf, first, second, third, extension, least]
        omega

/-- A value that a class holds has this class exactly if it needs it. -/
theorem classOf_iff (cls number : Nat) (small : cls < 4) (fits : number < 2 ^ (4 + extension cls)) :
    classOf number = cls ↔ least cls ≤ number := by
  have ranged : cls = 0 ∨ cls = 1 ∨ cls = 2 ∨ cls = 3 := by omega
  rcases ranged with rfl | rfl | rfl | rfl
  · have bound : number < 16 := fits
    have needed : least 0 = 0 := rfl
    simp [classOf, bound, needed]
  · have bound : number < 256 := fits
    have needed : least 1 = 16 := rfl
    simp only [classOf, bound, needed, if_true]
    split_ifs <;> simp <;> omega
  · have bound : number < 4096 := fits
    have needed : least 2 = 256 := rfl
    simp only [classOf, bound, needed, if_true]
    split_ifs <;> simp <;> omega
  · have needed : least 3 = 4096 := rfl
    simp only [classOf, needed]
    split_ifs <;> simp <;> omega

/-- The classes have extensions of different lengths. -/
theorem extension_injective (first second : Nat) (low : first < 4) (high : second < 4)
    (same : extension first = extension second) : first = second := by
  have every : ∀ a b : Fin 4, extension a = extension b → a = b := by decide
  exact congrArg Fin.val (every ⟨first, low⟩ ⟨second, high⟩ same)

theorem ubitVarBits_length (number : Nat) :
    (ubitVarBits number).length = 6 + extension (classOf number) := by
  simp only [ubitVarBits, List.length_append, numberBits_length]
  omega

/-- The four sizes of an encoding. -/
theorem class_sizes (number : Nat) :
    6 + extension (classOf number) = if number < 16 then 6 else if number < 256 then 10
      else if number < 4096 then 14 else 34 := by
  unfold classOf
  split_ifs <;> rfl

/-- The encoding denotes the low bits, the class above them and the rest above both. -/
theorem value_ubitVarBits (number : Nat) (fits : number < 2 ^ 32) :
    value (ubitVarBits number) = number % 16 + 16 * classOf number + 64 * (number / 16) := by
  have small := classOf_lt number
  have held := (classOf_holds number fits).1
  have rest : number / 16 < 2 ^ extension (classOf number) := by
    rw [Nat.pow_add] at held
    exact Nat.div_lt_of_lt_mul held
  rw [ubitVarBits, value_append, value_append, value_numberBits, value_numberBits, value_numberBits,
    numberBits_length, numberBits_length, Nat.mod_eq_of_lt rest]
  omega

/-- The value that is read and the class before it, from the encoding that follows. -/
theorem ubitVar_follows (memory : Int → Byte) (bytes position number : Nat)
    (follows : window (bitList memory bytes) position (ubitVarBits number).length =
      ubitVarBits number) :
    position + (6 + extension (classOf number)) ≤ 8 * bytes ∧
      windowValue memory bytes position 6 = number % 16 + 16 * classOf number ∧
      windowValue memory bytes (position + 6) (extension (classOf number)) =
        number / 16 % 2 ^ extension (classOf number) := by
  have length := congrArg List.length follows
  rw [ubitVarBits_length] at follows length
  have inside : position + (6 + extension (classOf number)) ≤ 8 * bytes := by
    simp only [window, List.length_take, List.length_drop, bitList_length] at length
    omega
  have total : 6 + extension (classOf number) = 4 + (2 + extension (classOf number)) := by omega
  rw [total, ubitVarBits] at follows
  obtain ⟨low, above⟩ := window_parts _ _ _ position 4 _ follows (numberBits_length _ _) (by simp)
  obtain ⟨tag, rest⟩ := window_parts _ _ _ (position + 4) 2 _ above (numberBits_length _ _) (by simp)
  have width : classOf number < 2 ^ 2 := classOf_lt number
  refine ⟨inside, ?_, ?_⟩
  · rw [windowValue, window_split _ position 4 2 (by rw [bitList_length]; omega), low, tag,
      value_numberBits, value_numberBits, Nat.mod_eq_of_lt width]
    rfl
  · rw [windowValue, rest, value_numberBits]

/-- A shortest encoding is read back, with every assertion passed. -/
theorem readUBitVar_encoded (memory : Int → Byte) (bytes : Nat) (r : CBitRead) (position : Nat)
    (v : BitVec 32) (standing : At memory bytes false r position)
    (follows : window (bitList memory bytes) position (ubitVarBits v.toNat).length =
      ubitVarBits v.toNat) :
    (r.readUBitVar memory).1 = v ∧ (r.readUBitVar memory).2.1 = true ∧
      At memory bytes false (r.readUBitVar memory).2.2 (position + (ubitVarBits v.toNat).length) := by
  obtain ⟨inside, field, more⟩ := ubitVar_follows memory bytes position v.toNat follows
  obtain ⟨held, needed⟩ := classOf_holds v.toNat v.isLt
  have small := classOf_lt v.toNat
  obtain ⟨result, asserted, behind⟩ := readUBitVar_at memory bytes r position (classOf v.toNat)
    standing (by rw [field]; omega) inside
  have rest : v.toNat / 16 < 2 ^ extension (classOf v.toNat) := by
    rw [Nat.pow_add] at held
    exact Nat.div_lt_of_lt_mul held
  have same : (r.readUBitVar memory).1.toNat = v.toNat := by
    rw [result, field, more, Nat.mod_eq_of_lt rest]
    omega
  rw [ubitVarBits_length]
  refine ⟨BitVec.eq_of_toNat_eq same, ?_, behind⟩
  rw [asserted, same]
  exact decide_eq_true needed

/-- The assertions pass exactly if the bits consumed are the shortest encoding of the
    value returned.

The value needs the class that was read exactly if that is its own class. Both
sequences then have the same length and denote the same number; otherwise they
already differ in length. -/
theorem readUBitVar_asserts_iff (memory : Int → Byte) (bytes : Nat) (r : CBitRead)
    (position cls : Nat) (standing : At memory bytes false r position)
    (classed : windowValue memory bytes position 6 / 16 = cls)
    (inside : position + (6 + extension cls) ≤ 8 * bytes) :
    (r.readUBitVar memory).2.1 = true ↔
      window (bitList memory bytes) position (6 + extension cls) =
        ubitVarBits (r.readUBitVar memory).1.toNat := by
  obtain ⟨result, asserted, -⟩ := readUBitVar_at memory bytes r position cls standing classed inside
  have field : windowValue memory bytes position 6 < 2 ^ 6 := window_bound _ _ _
  have more : windowValue memory bytes (position + 6) (extension cls) < 2 ^ extension cls :=
    window_bound _ _ _
  have small : cls < 4 := by omega
  have fits : (r.readUBitVar memory).1.toNat < 2 ^ (4 + extension cls) := by
    rw [result, Nat.pow_add]
    omega
  have counted : (window (bitList memory bytes) position (6 + extension cls)).length =
      6 + extension cls := by
    simp only [window, List.length_take, List.length_drop, bitList_length]
    omega
  rw [asserted, decide_eq_true_iff, ← classOf_iff cls _ small fits]
  constructor
  · intro own
    apply value_injective
    · rw [counted, ubitVarBits_length, own]
    · rw [value_ubitVarBits _ (BitVec.isLt _), own,
        window_split _ position 6 (extension cls) (by rw [bitList_length]; omega)]
      have first : value (window (bitList memory bytes) position 6) =
          windowValue memory bytes position 6 := rfl
      have second : value (window (bitList memory bytes) (position + 6) (extension cls)) =
          windowValue memory bytes (position + 6) (extension cls) := rfl
      rw [first, second, result]
      omega
  · intro same
    have length := congrArg List.length same
    rw [counted, ubitVarBits_length] at length
    exact (extension_injective cls _ small (classOf_lt _) (by omega)).symm

/-- What `ReadVarUBit` reads: the low bits joined with the extension that the class
    announces. -/
theorem readVarUBit_at (memory : Int → Byte) (bytes : Nat) (r : CBitRead) (position cls : Nat)
    (standing : At memory bytes false r position)
    (classed : windowValue memory bytes position 7 / 32 = cls)
    (inside : position + (7 + extensionVarU cls) ≤ 8 * bytes) :
    (r.readVarUBit memory).1.toNat = windowValue memory bytes position 7 % 32 +
        32 * windowValue memory bytes (position + 7) (extensionVarU cls) ∧
      At memory bytes false (r.readVarUBit memory).2 (position + (7 + extensionVarU cls)) := by
  obtain ⟨field, small, advanced⟩ := readUBitLong_window memory bytes r position 7 standing
    (by decide) (by decide) (by omega)
  obtain ⟨low, tag⟩ := varUBit_fields _ small
  have extended (numbits : Nat) (positive : 1 ≤ numbits) (width : numbits ≤ 7)
      (within : position + (7 + numbits) ≤ 8 * bytes) :
      ((32#32 * ((r.readUBitLong memory 7).2.readUBitLong memory numbits).1 |||
          ((r.readUBitLong memory 7).1 &&& 0xFFFFFF9F#32)).toNat =
        windowValue memory bytes position 7 % 32 +
          32 * windowValue memory bytes (position + 7) numbits) ∧
      At memory bytes false ((r.readUBitLong memory 7).2.readUBitLong memory numbits).2
        (position + (7 + numbits)) := by
    have masked : ((r.readUBitLong memory 7).1 &&& 0xFFFFFF9F#32).toNat < 2 ^ 5 := by
      rw [low]
      exact Nat.mod_lt _ (by decide)
    obtain ⟨joined, behind⟩ := extended_value memory bytes _ (position + 7) 5 numbits _ advanced masked
      positive (by omega) (by omega)
    rw [low, field] at joined
    rw [Nat.add_assoc] at behind
    rw [BitVec.or_comm, shifted_five]
    exact ⟨joined, behind⟩
  rw [← field] at classed ⊢
  have ranged : cls = 0 ∨ cls = 1 ∨ cls = 2 ∨ cls = 3 := by omega
  rcases ranged with rfl | rfl | rfl | rfl
  · have none : ((r.readUBitLong memory 7).1 &&& 0x60#32).toNat = 0 := by omega
    simp only [readVarUBit, none]
    refine ⟨?_, advanced⟩
    simp [windowValue, window, value, extensionVarU]
    omega
  · have two : ((r.readUBitLong memory 7).1 &&& 0x60#32).toNat = 32 := by omega
    simp only [readVarUBit, two]
    obtain ⟨joined, behind⟩ := extended 2 (by decide) (by decide) inside
    exact ⟨by rw [joined, field]; rfl, behind⟩
  · have four : ((r.readUBitLong memory 7).1 &&& 0x60#32).toNat = 64 := by omega
    simp only [readVarUBit, four]
    obtain ⟨joined, behind⟩ := extended 4 (by decide) (by decide) inside
    exact ⟨by rw [joined, field]; rfl, behind⟩
  · have seven : ((r.readUBitLong memory 7).1 &&& 0x60#32).toNat = 96 := by omega
    simp only [readVarUBit, seven]
    obtain ⟨joined, behind⟩ := extended 7 (by decide) (by decide) inside
    exact ⟨by rw [joined, field]; rfl, behind⟩

theorem varUBits_length (cls number : Nat) :
    (varUBits cls number).length = 7 + extensionVarU cls := by
  simp only [varUBits, List.length_append, numberBits_length]
  omega

/-- Every encoding is read back, whether or not a smaller class would have held the
    value. -/
theorem readVarUBit_encoded (memory : Int → Byte) (bytes : Nat) (r : CBitRead) (position cls : Nat)
    (v : BitVec 32) (standing : At memory bytes false r position) (small : cls < 4)
    (held : v.toNat < 2 ^ (5 + extensionVarU cls))
    (follows : window (bitList memory bytes) position (varUBits cls v.toNat).length =
      varUBits cls v.toNat) :
    (r.readVarUBit memory).1 = v ∧
      At memory bytes false (r.readVarUBit memory).2
        (position + (varUBits cls v.toNat).length) := by
  have length := congrArg List.length follows
  rw [varUBits_length] at follows length
  have inside : position + (7 + extensionVarU cls) ≤ 8 * bytes := by
    simp only [window, List.length_take, List.length_drop, bitList_length] at length
    omega
  have total : 7 + extensionVarU cls = 5 + (2 + extensionVarU cls) := by omega
  rw [total, varUBits] at follows
  obtain ⟨low, above⟩ := window_parts _ _ _ position 5 _ follows (numberBits_length _ _) (by simp)
  obtain ⟨tag, rest⟩ := window_parts _ _ _ (position + 5) 2 _ above (numberBits_length _ _) (by simp)
  have width : cls < 2 ^ 2 := small
  have field : windowValue memory bytes position 7 = v.toNat % 32 + 32 * cls := by
    rw [windowValue, window_split _ position 5 2 (by rw [bitList_length]; omega), low, tag,
      value_numberBits, value_numberBits, Nat.mod_eq_of_lt width]
    rfl
  have more : windowValue memory bytes (position + 7) (extensionVarU cls) =
      v.toNat / 32 % 2 ^ extensionVarU cls := by
    rw [windowValue, rest, value_numberBits]
  have above : v.toNat / 32 < 2 ^ extensionVarU cls := by
    rw [Nat.pow_add] at held
    exact Nat.div_lt_of_lt_mul held
  obtain ⟨result, behind⟩ := readVarUBit_at memory bytes r position cls standing
    (by rw [field]; omega) inside
  rw [varUBits_length]
  refine ⟨BitVec.eq_of_toNat_eq ?_, behind⟩
  rw [result, field, more, Nat.mod_eq_of_lt above]
  omega

/-- `ReadUBitVar` accepts exactly the shortest encodings.

The encoding of every value, wherever it stands, is read back with the assertions
passed and with nothing of what follows consumed, as the reported position shows. Whatever bits stand there, the
assertions pass exactly if those consumed are the encoding of the value returned.
`ReadVarUBit` reads back every encoding of every value. -/
theorem ubitVar_accepts_shortest (memory : Int → Byte) (bytes : Nat) (r : CBitRead)
    (position : Nat) (standing : At memory bytes false r position) :
    (∀ v : BitVec 32,
      window (bitList memory bytes) position (ubitVarBits v.toNat).length = ubitVarBits v.toNat →
      (r.readUBitVar memory).1 = v ∧ (r.readUBitVar memory).2.1 = true ∧
        StandsAt memory bytes (r.readUBitVar memory).2.2
          (position + (if v.toNat < 16 then 6 else if v.toNat < 256 then 10
            else if v.toNat < 4096 then 14 else 34))) ∧
      (∀ cls, windowValue memory bytes position 6 / 16 = cls →
        position + (6 + extension cls) ≤ 8 * bytes →
        ((r.readUBitVar memory).2.1 = true ↔
          window (bitList memory bytes) position (6 + extension cls) =
            ubitVarBits (r.readUBitVar memory).1.toNat) ∧
        StandsAt memory bytes (r.readUBitVar memory).2.2 (position + (6 + extension cls))) ∧
      ∀ (cls : Nat) (v : BitVec 32), cls < 4 → v.toNat < 2 ^ (5 + extensionVarU cls) →
        window (bitList memory bytes) position (varUBits cls v.toNat).length =
          varUBits cls v.toNat →
        (r.readVarUBit memory).1 = v ∧
          StandsAt memory bytes (r.readVarUBit memory).2
            (position + (7 + extensionVarU cls)) := by
  refine ⟨?_, ?_, ?_⟩
  · intro v follows
    obtain ⟨result, asserted, behind⟩ := readUBitVar_encoded memory bytes r position v standing
      follows
    rw [ubitVarBits_length, class_sizes] at behind
    exact ⟨result, asserted, behind.standsAt⟩
  · intro cls classed inside
    exact ⟨readUBitVar_asserts_iff memory bytes r position cls standing classed inside,
      (readUBitVar_at memory bytes r position cls standing classed inside).2.2.standsAt⟩
  · intro cls v small held follows
    obtain ⟨result, behind⟩ :=
      readVarUBit_encoded memory bytes r position cls v standing small held follows
    rw [varUBits_length] at behind
    exact ⟨result, behind.standsAt⟩

/-- A six-byte buffer whose bits from the fourth on are the encoding of 300. -/
def shiftedClassTwo (address : Int) : Byte :=
  if address = 0 then 0x60#8 else if address = 1 then 0x25#8 else 0#8

/-- A reader of that buffer before its fourth bit. -/
def beforeClassTwo : CBitRead :=
  ((construct shiftedClassTwo ⟨0, 0, 0, 0, false, false, 0, 0⟩ 6).seek shiftedClassTwo
    ((3 : Nat) : Int)).2

/-- The number is read with its assertion; the other format finds a shorter one there. -/
theorem class_two_accepted :
    ((beforeClassTwo.readUBitVar shiftedClassTwo).1 = 300#32 ∧
      (beforeClassTwo.readUBitVar shiftedClassTwo).2.1 = true) ∧
      window (bitList shiftedClassTwo 6) 3 14 =
        ubitVarBits (beforeClassTwo.readUBitVar shiftedClassTwo).1.toNat ∧
      (beforeClassTwo.readVarUBit shiftedClassTwo).1 = 44#32 := by
  have opened := construct_at shiftedClassTwo ⟨0, 0, 0, 0, false, false, 0, 0⟩ 6 (by decide)
    (by decide)
  have standing := (seek_at shiftedClassTwo 6 false _ 3 opened.opened opened.flag (by decide)
    (by decide)).2
  obtain ⟨encoded, canonical, every⟩ :=
    ubitVar_accepts_shortest shiftedClassTwo 6 beforeClassTwo 3 standing
  obtain ⟨result, asserted, -⟩ := encoded 300#32 (by decide +kernel)
  exact ⟨⟨result, asserted⟩, (canonical 2 (by decide +kernel) (by decide)).1.mp asserted,
    (every 1 44#32 (by decide) (by decide) (by decide +kernel)).1⟩

end Sniffles.CBitRead
