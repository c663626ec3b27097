import Sniffles.MessageSerialization

/-!
# The bytes of serialized records

Each writer, with its nested tests or its search tree, writes the canonical spelling of
a number, so that a written field is the canonical spelling of its record. The size
functions count those bytes.
-/

namespace Sniffles

open BitSequences Base128 TaggedRecords RecordLayouts

namespace CodedOutputStream

/-- A group with its high bit set. -/
theorem groupByte_more {width : Nat} (wide : 8 ≤ width) (value : BitVec width) (shift : Nat) :
    groupByte value shift = BitVec.ofNat 8 (value.toNat / 2 ^ shift % 128 + 128) := by
  have room : 2 ^ 8 ≤ 2 ^ width := Nat.pow_le_pow_right (by decide) wide
  have mask : 128 % 2 ^ width = 128 := Nat.mod_eq_of_lt (by omega)
  apply BitVec.eq_of_toNat_eq
  rw [groupByte, BitVec.toNat_setWidth, BitVec.toNat_or, BitVec.toNat_ushiftRight,
    Nat.shiftRight_eq_div_pow, BitVec.toNat_ofNat, BitVec.ofNat_eq_ofNat, BitVec.toNat_ofNat, mask]
  show (value.toNat / 2 ^ shift ||| 128) % 256 = _
  rw [high_bit]
  omega

/-- The last group has its high bit cleared. -/
theorem groupByte_last {width : Nat} (wide : 8 ≤ width) (value : BitVec width) (shift : Nat) :
    groupByte value shift &&& 0x7F = BitVec.ofNat 8 (value.toNat / 2 ^ shift % 128) := by
  have bound := Nat.mod_lt (value.toNat / 2 ^ shift) (show 128 > 0 by decide)
  have mask (number : Nat) : number &&& 127 = number % 128 :=
    Nat.and_two_pow_sub_one_eq_mod number 7
  apply BitVec.eq_of_toNat_eq
  rw [groupByte_more wide, BitVec.toNat_and, BitVec.toNat_ofNat, BitVec.toNat_ofNat]
  show (value.toNat / 2 ^ shift % 128 + 128) % 256 &&& 127 = _
  rw [mask]
  omega

/-- The nested tests write the canonical spelling. -/
theorem writeVarint32FallbackToArray_encode (value : BitVec 32) :
    writeVarint32FallbackToArray value = encode value.toNat := by
  have bound := value.isLt
  have more := groupByte_more (show 8 ≤ 32 by decide) value
  have last := groupByte_last (show 8 ≤ 32 by decide) value
  rw [writeVarint32FallbackToArray]
  split
  case isFalse small =>
    have one : value.toNat < 128 := Nat.lt_of_not_le small
    have whole : value.toNat / 2 ^ 0 % 128 = value.toNat := by omega
    rw [encode_last _ one, last, whole]
  case isTrue first =>
    have atLeast : 128 ≤ value.toNat := first
    split
    case isFalse small =>
      have two : value.toNat < 16384 := Nat.lt_of_not_le small
      have top : value.toNat / 2 ^ 7 % 128 = value.toNat / 128 := by omega
      rw [encode_split 1 _ (by omega), encode_last _ (by omega), more, last, top]
      rfl
    case isTrue second =>
      have atLeast : 16384 ≤ value.toNat := second
      split
      case isFalse small =>
        have three : value.toNat < 2097152 := Nat.lt_of_not_le small
        have top : value.toNat / 2 ^ 14 % 128 = value.toNat / 16384 := by omega
        rw [encode_split 2 _ (by omega), encode_last _ (by omega), more, more, last, top]
        rfl
      case isTrue third =>
        have atLeast : 2097152 ≤ value.toNat := third
        split
        case isFalse small =>
          have four : value.toNat < 268435456 := Nat.lt_of_not_le small
          have top : value.toNat / 2 ^ 21 % 128 = value.toNat / 2097152 := by omega
          rw [encode_split 3 _ (by omega), encode_last _ (by omega), more, more, more, last, top]
          rfl
        case isTrue fourth =>
          have atLeast : 268435456 ≤ value.toNat := fourth
          have top : (value >>> 28).setWidth 8 = BitVec.ofNat 8 (value.toNat / 128 ^ 4) := by
            apply BitVec.eq_of_toNat_eq
            rw [BitVec.toNat_setWidth, BitVec.toNat_ushiftRight, Nat.shiftRight_eq_div_pow,
              BitVec.toNat_ofNat]
            rfl
          rw [encode_split 4 _ (by omega), encode_last _ (by omega), more, more, more, more, top]
          rfl

/-- A number of 32 bits is written canonically. -/
theorem writeVarint32ToArray_encode (value : BitVec 32) :
    writeVarint32ToArray value = encode value.toNat := by
  rw [writeVarint32ToArray]
  split
  case isTrue small =>
    have one : value.toNat < 128 := small
    rw [encode_last _ one, BitVec.ofNat_toNat]
  case isFalse => exact writeVarint32FallbackToArray_encode value

/-- A tag is written canonically. -/
theorem writeTagToArray_encode (value : BitVec 32) : writeTagToArray value = tagBytes value := by
  rw [writeTagToArray, tagBytes]
  split
  case isTrue small =>
    have one : value.toNat < 128 := small
    rw [encode_last _ one, BitVec.ofNat_toNat]
  case isFalse large =>
    have first : 128 ≤ value.toNat := Nat.le_of_not_lt large
    split
    case isTrue small =>
      have two : value.toNat < 16384 := small
      have top : (value >>> 7).setWidth 8 = BitVec.ofNat 8 (value.toNat / 128 ^ 1) := by
        apply BitVec.eq_of_toNat_eq
        rw [BitVec.toNat_setWidth, BitVec.toNat_ushiftRight, Nat.shiftRight_eq_div_pow,
          BitVec.toNat_ofNat]
        rfl
      rw [encode_split 1 _ (by omega), encode_last _ (by omega),
        groupByte_more (show 8 ≤ 32 by decide), top]
      rfl
    case isFalse => exact writeVarint32FallbackToArray_encode value

theorem clearLast_append (cells : List Byte) (last : Byte) :
    clearLast (cells ++ [last]) = cells ++ [last &&& 0x7F] := by
  induction cells with
  | nil => rfl
  | cons cell cells inductionHypothesis =>
    cases cells with
    | nil => rfl
    | cons next cells =>
      rw [List.cons_append, List.cons_append, clearLast, ← List.cons_append, inductionHypothesis]
      rfl

/-- The groups of a number with the high bit cleared in the last of them. -/
theorem clearLast_groups (number count : Nat) (small : number < 128 ^ (count + 1))
    (large : count = 0 ∨ 128 ^ count ≤ number) :
    clearLast ((List.range (count + 1)).map
      fun index => BitVec.ofNat 8 (number / 128 ^ index % 128 + 128)) = encode number := by
  have top : number / 128 ^ count < 128 := by
    rw [Nat.div_lt_iff_lt_mul (Nat.pow_pos (by decide)), ← Nat.pow_succ']
    exact small
  have cleared : BitVec.ofNat 8 (number / 128 ^ count % 128 + 128) &&& 0x7F =
      BitVec.ofNat 8 (number / 128 ^ count) := by
    have mask (part : Nat) : part &&& 127 = part % 128 := Nat.and_two_pow_sub_one_eq_mod part 7
    apply BitVec.eq_of_toNat_eq
    rw [BitVec.toNat_and, BitVec.toNat_ofNat, BitVec.toNat_ofNat]
    show (number / 128 ^ count % 128 + 128) % 256 &&& 127 = _
    rw [mask]
    generalize number / 128 ^ count = part at top
    omega
  have atLeast : 128 ^ count ≤ number ∨ count = 0 := large.symm
  rw [List.range_succ, List.map_append, List.map_singleton, clearLast_append, cleared]
  rcases atLeast with reached | rfl
  · rw [encode_split count number reached, encode_last _ top]
  · have one : number < 128 := by omega
    rw [encode_last _ one]
    simp

/-- The search tree finds the count of groups. -/
theorem varint64Parts_groups (value : BitVec 64) :
    ∃ count, count < 10 ∧ varint64Parts (value.setWidth 32) ((value >>> 28).setWidth 32)
        ((value >>> 56).setWidth 32) = count + 1 ∧ value.toNat < 128 ^ (count + 1) ∧
      (count = 0 ∨ 128 ^ count ≤ value.toNat) := by
  have bound := value.isLt
  have part0 : (value.setWidth 32).toNat = value.toNat % 2 ^ 32 := BitVec.toNat_setWidth 32 value
  have part1 : ((value >>> 28).setWidth 32).toNat = value.toNat / 2 ^ 28 % 2 ^ 32 := by
    rw [BitVec.toNat_setWidth, BitVec.toNat_ushiftRight, Nat.shiftRight_eq_div_pow]
  have part2 : ((value >>> 56).setWidth 32).toNat = value.toNat / 2 ^ 56 := by
    rw [BitVec.toNat_setWidth, BitVec.toNat_ushiftRight, Nat.shiftRight_eq_div_pow]
    omega
  have zero (part : BitVec 32) : part = 0 ↔ part.toNat = 0 := by
    rw [← BitVec.toNat_inj]
    rfl
  have first : (128 : BitVec 32).toNat = 128 := rfl
  have second : (16384 : BitVec 32).toNat = 16384 := rfl
  have third : (2097152 : BitVec 32).toNat = 2097152 := rfl
  rw [varint64Parts]
  simp only [zero, BitVec.lt_def, part0, part1, part2, first, second, third]
  split
  case isTrue =>
    split
    case isTrue =>
      split
      case isTrue =>
        split
        case isTrue => exact ⟨0, by decide, rfl, by omega, .inl rfl⟩
        case isFalse => exact ⟨1, by decide, rfl, by omega, .inr (by omega)⟩
      case isFalse =>
        split
        case isTrue => exact ⟨2, by decide, rfl, by omega, .inr (by omega)⟩
        case isFalse => exact ⟨3, by decide, rfl, by omega, .inr (by omega)⟩
    case isFalse =>
      split
      case isTrue =>
        split
        case isTrue => exact ⟨4, by decide, rfl, by omega, .inr (by omega)⟩
        case isFalse => exact ⟨5, by decide, rfl, by omega, .inr (by omega)⟩
      case isFalse =>
        split
        case isTrue => exact ⟨6, by decide, rfl, by omega, .inr (by omega)⟩
        case isFalse => exact ⟨7, by decide, rfl, by omega, .inr (by omega)⟩
  case isFalse =>
    split
    case isTrue => exact ⟨8, by decide, rfl, by omega, .inr (by omega)⟩
    case isFalse => exact ⟨9, by decide, rfl, by omega, .inr (by omega)⟩

/-- A group of a part is a group of the whole number. -/
theorem groupByte_part (value : BitVec 64) (skip shift : Nat) (inside : shift ≤ 24) :
    groupByte ((value >>> skip).setWidth 32) shift = groupByte value (skip + shift) := by
  apply BitVec.eq_of_getLsbD_eq
  intro index small
  have within : shift + index < 32 := by omega
  have narrow : index < 32 := by omega
  have wide : index < 64 := by omega
  simp only [groupByte, BitVec.getLsbD_setWidth, BitVec.getLsbD_or, BitVec.getLsbD_ushiftRight,
    BitVec.ofNat_eq_ofNat, BitVec.getLsbD_ofNat, small, within, narrow, wide, decide_true,
    Bool.true_and, Nat.add_assoc]

/-- A number of 64 bits is written canonically. -/
theorem writeVarint64ToArray_encode (value : BitVec 64) :
    writeVarint64ToArray value = encode value.toNat := by
  obtain ⟨count, few, parts, small, large⟩ := varint64Parts_groups value
  have low (shift : Nat) (inside : shift ≤ 24) :
      groupByte (value.setWidth 32) shift = groupByte value shift := by
    have part := groupByte_part value 0 shift inside
    rwa [BitVec.ushiftRight_zero, Nat.zero_add] at part
  have cells : [groupByte value 0, groupByte value 7, groupByte value 14, groupByte value 21,
      groupByte value 28, groupByte value 35, groupByte value 42, groupByte value 49,
      groupByte value 56, groupByte value 63] = (List.range 10).map
        fun index => BitVec.ofNat 8 (value.toNat / 128 ^ index % 128 + 128) := by
    simp only [groupByte_more (show 8 ≤ 64 by decide) value]
    rfl
  have taken : ((List.range 10).map
      fun index => BitVec.ofNat 8 (value.toNat / 128 ^ index % 128 + 128)).take (count + 1) =
        (List.range (count + 1)).map
          fun index => BitVec.ofNat 8 (value.toNat / 128 ^ index % 128 + 128) := by
    rw [← List.map_take, List.take_range, Nat.min_eq_left (by omega)]
  rw [writeVarint64ToArray, parts, low 0 (by decide), low 7 (by decide), low 14 (by decide), low 21 (by decide),
    groupByte_part value 28 0 (by decide), groupByte_part value 28 7 (by decide),
    groupByte_part value 28 14 (by decide), groupByte_part value 28 21 (by decide),
    groupByte_part value 56 0 (by decide), groupByte_part value 56 7 (by decide), cells, taken,
    clearLast_groups value.toNat count small large]

/-- A signed number is written as the number of 64 bits that it stands for. -/
theorem writeVarint32SignExtendedToArray_encode (value : BitVec 32) :
    writeVarint32SignExtendedToArray value = encode (value.signExtend 64).toNat := by
  rw [writeVarint32SignExtendedToArray]
  split
  case isTrue => exact writeVarint64ToArray_encode _
  case isFalse positive =>
    have same : (value.signExtend 64).toNat = value.toNat := by
      have clear : value.msb = false := by
        rw [BitVec.msb_eq_toInt, decide_eq_false_iff_not]
        exact positive
      rw [BitVec.signExtend_eq_setWidth_of_msb_false clear, BitVec.toNat_setWidth]
      have := value.isLt
      omega
    rw [writeVarint32ToArray_encode, same]

/-- The number of groups is the length of the canonical spelling. -/
theorem encode_groups (count number : Nat) (small : number < 128 ^ (count + 1))
    (large : count = 0 ∨ 128 ^ count ≤ number) : (encode number).length = count + 1 := by
  have top : number / 128 ^ count < 128 := by
    rw [Nat.div_lt_iff_lt_mul (Nat.pow_pos (by decide)), ← Nat.pow_succ']
    exact small
  have atLeast : 128 ^ count ≤ number ∨ count = 0 := large.symm
  rcases atLeast with reached | rfl
  · rw [encode_split count number reached, encode_last _ top]
    simp
  · have one : number < 128 := by omega
    rw [encode_last _ one]
    rfl

theorem varintSize32_encode (value : BitVec 32) : varintSize32 value = (encode value.toNat).length := by
  have bound := value.isLt
  have first : (128 : BitVec 32).toNat = 128 := rfl
  have second : (16384 : BitVec 32).toNat = 16384 := rfl
  have third : (2097152 : BitVec 32).toNat = 2097152 := rfl
  have fourth : (268435456 : BitVec 32).toNat = 268435456 := rfl
  rw [varintSize32]
  simp only [BitVec.lt_def, first, second, third, fourth]
  split
  case isTrue => exact (encode_groups 0 _ (by omega) (.inl rfl)).symm
  case isFalse =>
    split
    case isTrue => exact (encode_groups 1 _ (by omega) (.inr (by omega))).symm
    case isFalse =>
      split
      case isTrue => exact (encode_groups 2 _ (by omega) (.inr (by omega))).symm
      case isFalse =>
        split
        case isTrue => exact (encode_groups 3 _ (by omega) (.inr (by omega))).symm
        case isFalse => exact (encode_groups 4 _ (by omega) (.inr (by omega))).symm

theorem varintSize64_encode (value : BitVec 64) : varintSize64 value = (encode value.toNat).length := by
  have bound := value.isLt
  have first : (128 : BitVec 64).toNat = 128 := rfl
  have second : (16384 : BitVec 64).toNat = 16384 := rfl
  have third : (2097152 : BitVec 64).toNat = 2097152 := rfl
  have fourth : (268435456 : BitVec 64).toNat = 268435456 := rfl
  have fifth : (34359738368 : BitVec 64).toNat = 34359738368 := rfl
  have sixth : (4398046511104 : BitVec 64).toNat = 4398046511104 := rfl
  have seventh : (562949953421312 : BitVec 64).toNat = 562949953421312 := rfl
  have eighth : (72057594037927936 : BitVec 64).toNat = 72057594037927936 := rfl
  have ninth : (9223372036854775808 : BitVec 64).toNat = 9223372036854775808 := rfl
  rw [varintSize64]
  simp only [BitVec.lt_def, first, second, third, fourth, fifth, sixth, seventh, eighth, ninth]
  split
  case isTrue =>
    split
    case isTrue => exact (encode_groups 0 _ (by omega) (.inl rfl)).symm
    case isFalse =>
      split
      case isTrue => exact (encode_groups 1 _ (by omega) (.inr (by omega))).symm
      case isFalse =>
        split
        case isTrue => exact (encode_groups 2 _ (by omega) (.inr (by omega))).symm
        case isFalse =>
          split
          case isTrue => exact (encode_groups 3 _ (by omega) (.inr (by omega))).symm
          case isFalse => exact (encode_groups 4 _ (by omega) (.inr (by omega))).symm
  case isFalse =>
    split
    case isTrue => exact (encode_groups 5 _ (by omega) (.inr (by omega))).symm
    case isFalse =>
      split
      case isTrue => exact (encode_groups 6 _ (by omega) (.inr (by omega))).symm
      case isFalse =>
        split
        case isTrue => exact (encode_groups 7 _ (by omega) (.inr (by omega))).symm
        case isFalse =>
          split
          case isTrue => exact (encode_groups 8 _ (by omega) (.inr (by omega))).symm
          case isFalse => exact (encode_groups 9 _ (by omega) (.inr (by omega))).symm

theorem varintSize32SignExtended_encode (value : BitVec 32) :
    varintSize32SignExtended value = (encode (value.signExtend 64).toNat).length := by
  rw [varintSize32SignExtended]
  split
  case isTrue negative =>
    have set : value.msb = true := by
      rw [BitVec.msb_eq_toInt, decide_eq_true_eq]
      exact negative
    have large : 2 ^ 63 ≤ (value.signExtend 64).toNat := by
      have high : (value.signExtend 64).msb = true := by
        simp [BitVec.msb_signExtend, set]
      have twice := BitVec.msb_eq_true_iff_two_mul_ge.mp high
      omega
    have bound := (value.signExtend 64).isLt
    exact (encode_groups 9 _ (by omega) (.inr (by omega))).symm
  case isFalse positive =>
    have plain := writeVarint32SignExtendedToArray_encode value
    rw [writeVarint32SignExtendedToArray, if_neg positive, writeVarint32ToArray_encode] at plain
    rw [varintSize32_encode, plain]

end CodedOutputStream

end Sniffles
