import Sniffles.MessageParsing
import Sniffles.CodedInputRefinement

/-!
# What the generated parsers accept

A generated parser accepts an array exactly when its bytes spell a sequence of tagged
records, with at most a hundred groups inside one another, and the message is what those
records put together. The jumps from field to field, the different paths for numbers and
the cutoff of the tag reader do not show in the result.

One direction follows the turns of the loops, which end because each turn consumes a
byte; the other follows the sequence of records.
-/

namespace Sniffles

open BitSequences CheckedMemory TaggedRecords RecordLayouts

namespace WireFormatLite

/-- A tag is made of its field number and its wire type. -/
theorem makeTag_parts (tag : BitVec 32) :
    makeTag (getTagFieldNumber tag) (getTagWireType tag) = tag := by
  apply BitVec.eq_of_toNat_eq
  have low : (getTagWireType tag).toNat = tag.toNat % 8 := by
    have masked : tag.toNat &&& 7 = tag.toNat % 8 := Nat.and_two_pow_sub_one_eq_mod tag.toNat 3
    rw [getTagWireType, BitVec.toNat_setWidth, BitVec.toNat_and]
    show (tag.toNat &&& 7) % 8 = tag.toNat % 8
    rw [masked, Nat.mod_mod]
  have high : (getTagFieldNumber tag).toNat = tag.toNat / 8 := by
    have bound := tag.isLt
    rw [getTagFieldNumber, BitVec.toNat_setWidth, BitVec.toNat_ushiftRight,
      Nat.shiftRight_eq_div_pow]
    omega
  rw [makeTag_toNat, low, high]
  omega

theorem getTagFieldNumber_makeTag (number : BitVec 29) (type : BitVec 3) :
    getTagFieldNumber (makeTag number type) = number :=
  (makeTag_injective (makeTag_parts (makeTag number type))).1

theorem getTagWireType_makeTag (number : BitVec 29) (type : BitVec 3) :
    getTagWireType (makeTag number type) = type :=
  (makeTag_injective (makeTag_parts (makeTag number type))).2

end WireFormatLite

namespace CodedInputStream.At

variable {window rest : List Byte} {input : CodedInputStream}

/-- The last tag and the nesting do not belong to the place in the array. -/
theorem marked (here : At window input rest) (tag : BitVec 32) (depth : Int) :
    At window { input with lastTag := tag, recursionDepth := depth } rest :=
  ⟨here.stands, here.bounded, here.bufferEnd, here.totalBytesRead, here.currentLimit,
    here.overflowBytes, here.bufferSizeAfterLimit, here.totalBytesLimit, here.recursionLimit⟩

theorem tagged (here : At window input rest) (tag : BitVec 32) :
    At window { input with lastTag := tag } rest := here.marked tag input.recursionDepth

/-- A tag that is spelled in front of the rest is read. -/
theorem readTag_spelled {head : List Byte} {tag : BitVec 32} (here : At window input (head ++ rest))
    (spelled : SpellsTag head tag) : input.readTag window =
      .ok (tag, { CodedInputStream.before window input rest with lastTag := tag }) := by
  obtain ⟨-, number, spelled, rfl⟩ := spelled
  exact here.readTag_taken ((takeNumber_iff _ _ _).mpr ⟨head, rfl, spelled⟩)

/-- The two outcomes of reading a number. -/
theorem number_cases (bytes : List Byte) : takeNumber longest bytes = none ∨
    ∃ head number behind, bytes = head ++ behind ∧ Spells head number ∧
      takeNumber longest bytes = some (number, behind) := by
  rcases taken : takeNumber longest bytes with - | ⟨number, behind⟩
  · exact .inl rfl
  · obtain ⟨head, rfl, spelled⟩ := (takeNumber_iff bytes behind number).mp taken
    exact .inr ⟨head, number, behind, rfl, spelled, rfl⟩

end CodedInputStream.At

namespace WireFormatLite

variable {window rest : List Byte} {input : CodedInputStream}

/-- A length as an `int` is the length of the text or is not that of any. -/
theorem length_toInt (length : BitVec 32) (short : length.toNat < 2147483648) :
    length.toInt = length.toNat := by
  rw [BitVec.toInt_eq_toNat_of_lt]
  omega

/-- A text behind its length is read. -/
theorem readString_taken {body text : List Byte} {number : BitVec 29}
    (here : CodedInputStream.At window input (body ++ rest))
    (held : Holds body (.delimited number text)) :
    readString window input = .ok (some text, CodedInputStream.before window input rest) := by
  obtain ⟨length, count, rfl, spelled, same, short⟩ := held
  rw [List.append_assoc] at here
  have taken : takeNumber longest (length ++ (text ++ rest)) = some (count, text ++ rest) :=
    (takeNumber_iff _ _ _).mpr ⟨length, rfl, spelled⟩
  have size : (BitVec.ofNat 32 count).toInt = text.length := by
    rw [length_toInt _ (by rw [same]; exact short), same]
  rw [readString, here.readVarint32_taken taken, ok_bind]
  dsimp only
  rw [size, here.before.readString_taken]
  rfl

/-- A text that is read stands behind its length. -/
theorem readString_sound (here : CodedInputStream.At window input rest) (number : BitVec 29) :
    (∃ behind, readString window input = .ok (none, behind)) ∨
      ∃ body text behind, rest = body ++ behind ∧ Holds body (.delimited number text) := by
  rcases CodedInputStream.At.number_cases rest with none | ⟨head, count, behind, rfl, spelled, taken⟩
  · obtain ⟨position, failed⟩ := here.readVarint32_none none
    refine .inl ⟨input.moved position, ?_⟩
    rw [readString, failed, ok_bind]
  · by_cases fits : 0 ≤ (BitVec.ofNat 32 count).toInt ∧
        (BitVec.ofNat 32 count).toInt ≤ behind.length
    · obtain ⟨positive, within⟩ := fits
      have range := BitVec.toInt_lt (x := BitVec.ofNat 32 count)
      have same : (BitVec.ofNat 32 count).toInt = (BitVec.ofNat 32 count).toNat := by
        rw [BitVec.toInt_eq_toNat_cond] at positive ⊢
        split at positive <;> omega
      have size : (behind.take (BitVec.ofNat 32 count).toNat).length =
          (BitVec.ofNat 32 count).toNat := by
        rw [List.length_take]
        omega
      refine .inr ⟨head ++ behind.take (BitVec.ofNat 32 count).toNat, _,
        behind.drop (BitVec.ofNat 32 count).toNat, ?_, head, count, rfl, spelled, size.symm, ?_⟩
      · rw [List.append_assoc, List.take_append_drop]
      · omega
    · obtain ⟨position, failed⟩ := here.before.readString_none (BitVec.ofNat 32 count).toInt
        (by omega)
      refine .inl ⟨(CodedInputStream.before window input behind).moved position, ?_⟩
      rw [readString, here.readVarint32_taken taken, ok_bind]
      exact failed

/-- A little-endian word is read. -/
theorem readFixed_taken {cells : List Byte} (width : Nat)
    (here : CodedInputStream.At window input (cells ++ rest)) (size : cells.length = width) :
    input.readLittleEndian width window =
      .ok (some (word (8 * width) cells), CodedInputStream.before window input rest) := by
  subst size
  exact here.readLittleEndian_taken

/-- A word that is read is spelled by the bytes in front of the rest. -/
theorem readFixed_sound (width : Nat) (here : CodedInputStream.At window input rest) :
    (∃ behind, input.readLittleEndian width window = .ok (none, behind)) ∨
      ∃ cells behind, rest = cells ++ behind ∧ cells.length = width := by
  by_cases short : rest.length < width
  · obtain ⟨position, failed⟩ := here.readLittleEndian_none width short
    exact .inl ⟨_, failed⟩
  · have size : (rest.take width).length = width := by
      rw [List.length_take]
      omega
    exact .inr ⟨_, _, (List.take_append_drop width rest).symm, size⟩

/-- The value of a field is read from the payload of its record. -/
theorem readPrimitive_taken {body : List Byte} {number : BitVec 29} {kind : Kind} {record : Record}
    (here : CodedInputStream.At window input (body ++ rest))
    (tagged : makeTag number kind.wireType = record.tag) (held : Holds body record) :
    ∃ value, kind.decode record = some value ∧ readPrimitive kind window input =
      .ok (some value, CodedInputStream.before window input rest) := by
  obtain ⟨value, carried⟩ := Kind.decode_tagged number kind record tagged
  refine ⟨value, carried, ?_⟩
  cases record with
  | varint other stored =>
    obtain ⟨count, spelled, rfl⟩ := held
    have taken : takeNumber longest (body ++ rest) = some (count, rest) :=
      (takeNumber_iff _ _ _).mpr ⟨body, rfl, spelled⟩
    have cut : (BitVec.ofNat 64 count).setWidth 32 = BitVec.ofNat 32 count :=
      BitVec.setWidth_ofNat_of_le (by decide) count
    cases kind with
    | uint32 | int32 =>
      cases carried
      rw [readPrimitive, here.readVarint32_taken taken, cut]
    | uint64 =>
      cases carried
      rw [readPrimitive, here.readVarint64_taken taken]
    | bool =>
      cases carried
      rw [readPrimitive, here.readVarint32_taken taken, ok_bind, cut]
      rfl
    | _ => cases carried
  | fixed32 other stored =>
    obtain ⟨size, rfl⟩ := held
    cases kind with
    | fixed32 | float =>
      cases carried
      exact readFixed_taken 4 here size
    | _ => cases carried
  | delimited other text =>
    cases kind with
    | string | bytes =>
      cases carried
      exact readString_taken here held
    | _ => cases carried
  | group other nested => exact absurd held id
  | fixed64 other stored => cases kind <;> cases carried

/-- Where no value is read, or the payload of a record of the field stands. -/
theorem readPrimitive_sound (here : CodedInputStream.At window input rest) (number : BitVec 29)
    (kind : Kind) :
    (∃ behind, readPrimitive kind window input = .ok (none, behind)) ∨
      ∃ record body behind, rest = body ++ behind ∧
        makeTag number kind.wireType = record.tag ∧ Holds body record := by
  cases kind with
  | uint32 | int32 =>
    rcases CodedInputStream.At.number_cases rest with none | ⟨head, count, behind, rfl, spelled, -⟩
    · obtain ⟨position, failed⟩ := here.readVarint32_none none
      exact .inl ⟨input.moved position, failed⟩
    · exact .inr ⟨.varint number (BitVec.ofNat 64 count), head, behind, rfl, rfl, count, spelled, rfl⟩
  | bool =>
    rcases CodedInputStream.At.number_cases rest with none | ⟨head, count, behind, rfl, spelled, -⟩
    · obtain ⟨position, failed⟩ := here.readVarint32_none none
      refine .inl ⟨input.moved position, ?_⟩
      rw [readPrimitive, failed]
      rfl
    · exact .inr ⟨.varint number (BitVec.ofNat 64 count), head, behind, rfl, rfl, count, spelled, rfl⟩
  | uint64 =>
    rcases CodedInputStream.At.number_cases rest with none | ⟨head, count, behind, rfl, spelled, -⟩
    · obtain ⟨position, failed⟩ := here.readVarint64_none none
      exact .inl ⟨input.moved position, failed⟩
    · exact .inr ⟨.varint number (BitVec.ofNat 64 count), head, behind, rfl, rfl, count, spelled, rfl⟩
  | fixed32 | float =>
    rcases readFixed_sound 4 here with failed | ⟨cells, behind, rfl, size⟩
    · exact .inl failed
    · exact .inr ⟨.fixed32 number (word 32 cells), cells, behind, rfl, rfl, size, rfl⟩
  | string | bytes =>
    rcases readString_sound here number with failed | ⟨body, text, behind, rfl, held⟩
    · exact .inl failed
    · exact .inr ⟨.delimited number text, body, behind, rfl, rfl, held⟩

end WireFormatLite

namespace WireFormat

open WireFormatLite

variable {window rest : List Byte} {input : CodedInputStream}

/-- The payload of an unknown field is read as its record says. -/
theorem skipPlain_taken {body : List Byte} {record : Record}
    (here : CodedInputStream.At window input (body ++ rest)) (held : Holds body record) :
    skipPlain window input record.tag =
      .ok (some record, CodedInputStream.before window input rest) := by
  cases record with
  | varint number value =>
    obtain ⟨count, spelled, rfl⟩ := held
    have taken : takeNumber longest (body ++ rest) = some (count, rest) :=
      (takeNumber_iff _ _ _).mpr ⟨body, rfl, spelled⟩
    simp only [skipPlain, Record.tag, getTagWireType_makeTag, getTagFieldNumber_makeTag, if_true,
      here.readVarint64_taken taken, ok_bind, Option.map_some]
  | fixed64 number value =>
    obtain ⟨size, rfl⟩ := held
    have read := readFixed_taken 8 here size
    have other : ¬fixed64Type = varintType := by decide
    simp only [skipPlain, Record.tag, getTagWireType_makeTag, getTagFieldNumber_makeTag, other,
      if_false, if_true, CodedInputStream.readLittleEndian64, read, ok_bind, Option.map_some]
  | delimited number text =>
    have other : ¬delimitedType = varintType := by decide
    have another : ¬delimitedType = fixed64Type := by decide
    obtain ⟨length, count, rfl, spelled, same, short⟩ := held
    rw [List.append_assoc] at here
    have taken : takeNumber longest (length ++ (text ++ rest)) = some (count, text ++ rest) :=
      (takeNumber_iff _ _ _).mpr ⟨length, rfl, spelled⟩
    have size : (BitVec.ofNat 32 count).toInt = text.length := by
      rw [length_toInt _ (by rw [same]; exact short), same]
    have positive : ¬(text.length : Int) < 0 := Int.not_lt.mpr (Int.natCast_nonneg _)
    simp only [skipPlain, Record.tag, getTagWireType_makeTag, getTagFieldNumber_makeTag, other,
      another, if_false, if_true, here.readVarint32_taken taken, ok_bind, size,
      CodedInputStream.readString, positive, here.before.readString_taken, Option.map_some]
    rfl
  | group number nested => exact absurd held id
  | fixed32 number value =>
    obtain ⟨size, rfl⟩ := held
    have read := readFixed_taken 4 here size
    have other : ¬fixed32Type = varintType := by decide
    have another : ¬fixed32Type = fixed64Type := by decide
    have third : ¬fixed32Type = delimitedType := by decide
    simp only [skipPlain, Record.tag, getTagWireType_makeTag, getTagFieldNumber_makeTag, other,
      another, third, if_false, if_true, CodedInputStream.readLittleEndian32, read, ok_bind,
      Option.map_some]

/-- Where an unknown field cannot be read, or the payload of a record with its tag stands. -/
theorem skipPlain_sound (here : CodedInputStream.At window input rest) (tag : BitVec 32) :
    (∃ behind, skipPlain window input tag = .ok (none, behind)) ∨
      ∃ record body behind, rest = body ++ behind ∧ record.tag = tag ∧ Holds body record := by
  have parts := makeTag_parts tag
  by_cases varint : getTagWireType tag = varintType
  · rcases CodedInputStream.At.number_cases rest with none | ⟨head, count, behind, rfl, spelled, -⟩
    · obtain ⟨position, failed⟩ := here.readVarint64_none none
      refine .inl ⟨input.moved position, ?_⟩
      simp only [skipPlain, varint, if_true, failed, ok_bind, Option.map_none]
    · rw [varint] at parts
      exact .inr ⟨.varint (getTagFieldNumber tag) (BitVec.ofNat 64 count), head, behind, rfl, parts,
        count, spelled, rfl⟩
  by_cases fixed64 : getTagWireType tag = fixed64Type
  · rcases readFixed_sound 8 here with ⟨behind, failed⟩ | ⟨cells, behind, rfl, size⟩
    · refine .inl ⟨behind, ?_⟩
      rw [skipPlain, if_neg varint, if_pos fixed64, CodedInputStream.readLittleEndian64, failed]
      rfl
    · rw [fixed64] at parts
      exact .inr ⟨.fixed64 (getTagFieldNumber tag) (word 64 cells), cells, behind, rfl, parts, size,
        rfl⟩
  by_cases delimited : getTagWireType tag = delimitedType
  · rcases readString_sound here (getTagFieldNumber tag) with
      ⟨behind, failed⟩ | ⟨body, text, behind, rfl, held⟩
    · refine .inl ⟨behind, ?_⟩
      rw [skipPlain, if_neg varint, if_neg fixed64, if_pos delimited]
      obtain ⟨⟨length, further⟩, first, second⟩ := bind_returned failed
      rw [first, ok_bind]
      cases length with
      | none =>
        cases second
        rfl
      | some length =>
        have same : further.readString window length.toInt =
            further.internalReadStringInline window length.toInt := by
          rw [CodedInputStream.readString]
          split
          case isTrue negative => rw [CodedInputStream.internalReadStringInline, if_pos negative]
          case isFalse => rfl
        dsimp only at second ⊢
        rw [same, second]
        rfl
    · rw [delimited] at parts
      exact .inr ⟨.delimited (getTagFieldNumber tag) text, body, behind, rfl, parts, held⟩
  by_cases fixed32 : getTagWireType tag = fixed32Type
  · rcases readFixed_sound 4 here with ⟨behind, failed⟩ | ⟨cells, behind, rfl, size⟩
    · refine .inl ⟨behind, ?_⟩
      rw [skipPlain, if_neg varint, if_neg fixed64, if_neg delimited, if_pos fixed32,
        CodedInputStream.readLittleEndian32, failed]
      rfl
    · rw [fixed32] at parts
      exact .inr ⟨.fixed32 (getTagFieldNumber tag) (word 32 cells), cells, behind, rfl, parts, size,
        rfl⟩
  · refine .inl ⟨input, ?_⟩
    rw [skipPlain, if_neg varint, if_neg fixed64, if_neg delimited, if_neg fixed32]

/-- No record has the tag that ends a group. -/
theorem record_open (record : Record) : getTagWireType record.tag ≠ endGroupType := by
  cases record <;> rw [Record.tag, getTagWireType_makeTag] <;> decide

/-- The tag of a record tells whether it is a group. -/
theorem record_start {body : List Byte} {record : Record} (held : Holds body record) :
    getTagWireType record.tag ≠ startGroupType := by
  cases record with
  | group number nested => exact absurd held id
  | _ =>
    rw [Record.tag, getTagWireType_makeTag]
    decide

theorem skipField_plain {body : List Byte} {record : Record} (turns : Nat)
    (here : CodedInputStream.At window input (body ++ rest)) (held : Holds body record) :
    skipField window (turns + 1) input record.tag =
      .ok (some record, CodedInputStream.before window input rest) := by
  rw [skipField, if_neg (record_start held), skipPlain_taken here held]

/-- The stream inside a group. -/
def deeper (input : CodedInputStream) : CodedInputStream :=
  { input with recursionDepth := input.recursionDepth + 1 }

/-- A group is read when its fields are, up to a tag of the same number. -/
theorem skipField_group {number : BitVec 29} {fields : List Record} (turns : Nat)
    (here : CodedInputStream.At window input rest) (positive : 0 ≤ input.recursionDepth)
    (room : input.recursionDepth < 100) (after : List Byte)
    (inside : skipMessage window turns (deeper input) = .ok (some fields,
      { CodedInputStream.before window (deeper input) after with
        lastTag := makeTag number endGroupType })) :
    skipField window (turns + 1) input (makeTag number startGroupType) =
      .ok (some (.group number fields), { CodedInputStream.before window input after with
        lastTag := makeTag number endGroupType }) := by
  have shallow : decide (input.recursionDepth + 1 ≤ input.recursionLimit) = true := by
    rw [decide_eq_true_eq, here.recursionLimit]
    omega
  have entered : input.incrementRecursionDepth = (true, deeper input) := by
    rw [CodedInputStream.incrementRecursionDepth, deeper]
    simp only [shallow]
  have up : input.recursionDepth + 1 > 0 := by omega
  have left : CodedInputStream.decrementRecursionDepth
      { CodedInputStream.before window (deeper input) after with
        lastTag := makeTag number endGroupType } =
      { CodedInputStream.before window input after with
        lastTag := makeTag number endGroupType } := by
    simp only [CodedInputStream.decrementRecursionDepth, CodedInputStream.before,
      CodedInputStream.moved, deeper, up, if_true, add_sub_cancel_right]
  rw [skipField, getTagWireType_makeTag, if_pos rfl, entered]
  dsimp only
  rw [if_pos rfl, inside, ok_bind]
  dsimp only
  rw [left, getTagFieldNumber_makeTag, CodedInputStream.lastTagWas, decide_eq_true rfl, if_pos rfl]

/-- The fields of a group are read up to its ending tag. Induct over the listing; a nested
    group uses the hypothesis for its own fields one level deeper. -/
theorem skipMessage_taken {depth : Nat} {inner : List Byte} {fields : List Record}
    (listed : Listed depth inner fields) (turns : Nat) (tail after : List Byte)
    (number : BitVec 29) (here : CodedInputStream.At window input (inner ++ tail ++ after))
    (closed : SpellsTag tail (makeTag number endGroupType)) (deep : depth ≤ 100)
    (level : input.recursionDepth = 100 - depth)
    (enough : 2 * (inner ++ tail ++ after).length < turns) :
    skipMessage window turns input = .ok (some fields,
      { CodedInputStream.before window input after with
        lastTag := makeTag number endGroupType }) := by
  induction listed generalizing turns input tail after number with
  | nil depth =>
    obtain ⟨turns, rfl⟩ : ∃ before, turns = before + 1 := ⟨turns - 1, by omega⟩
    rw [List.nil_append] at here
    rw [skipMessage, here.readTag_spelled closed, ok_bind]
    dsimp only
    rw [if_neg closed.1, getTagWireType_makeTag, if_pos rfl]
  | @plain depth head body rest record records tagged held others inductionHypothesis =>
    have taken := tagged.nonempty
    simp only [List.append_assoc] at here enough
    simp only [List.length_append] at enough
    obtain ⟨turns, rfl⟩ : ∃ before, turns = before + 1 + 1 := ⟨turns - 2, by omega⟩
    have behindTag := here.before.tagged record.tag
    have rest_ : CodedInputStream.At window
        (CodedInputStream.before window { CodedInputStream.before window input
          (body ++ (rest ++ (tail ++ after))) with lastTag := record.tag }
            (rest ++ (tail ++ after))) (rest ++ tail ++ after) := by
      rw [List.append_assoc]
      exact behindTag.before
    rw [skipMessage, here.readTag_spelled tagged, ok_bind]
    dsimp only
    rw [if_neg tagged.1, if_neg (record_open record), skipField_plain turns behindTag held, ok_bind]
    dsimp only
    rw [inductionHypothesis (turns + 1) tail after number rest_ closed deep level
      (by simp only [List.length_append]; omega), ok_bind]
    rfl
  | @group depth head nested ending rest groupNumber fields records opened inside ended others
      insideHypothesis othersHypothesis =>
    have taken := opened.nonempty
    simp only [List.append_assoc] at here enough
    simp only [List.length_append] at enough
    obtain ⟨turns, rfl⟩ : ∃ before, turns = before + 1 + 1 := ⟨turns - 2, by omega⟩
    have behindTag := here.before.tagged (makeTag groupNumber startGroupType)
    have within : CodedInputStream.At window (deeper { CodedInputStream.before window input
        (nested ++ (ending ++ (rest ++ (tail ++ after)))) with
          lastTag := makeTag groupNumber startGroupType })
        (nested ++ ending ++ (rest ++ (tail ++ after))) := by
      rw [List.append_assoc]
      exact behindTag.marked _ _
    have read := insideHypothesis turns ending (rest ++ (tail ++ after)) groupNumber within ended
      (by omega) (by
        show input.recursionDepth + 1 = _
        omega) (by simp only [List.length_append]; omega)
    have whole := skipField_group turns behindTag
      (by
        show 0 ≤ input.recursionDepth
        omega)
      (by
        show input.recursionDepth < 100
        omega) (rest ++ (tail ++ after)) read
    have rest_ : CodedInputStream.At window
        { CodedInputStream.before window { CodedInputStream.before window input
          (nested ++ (ending ++ (rest ++ (tail ++ after)))) with
            lastTag := makeTag groupNumber startGroupType } (rest ++ (tail ++ after)) with
          lastTag := makeTag groupNumber endGroupType } (rest ++ tail ++ after) := by
      rw [← List.append_assoc] at behindTag
      rw [List.append_assoc]
      exact behindTag.before.tagged _
    rw [skipMessage, here.readTag_spelled opened, ok_bind]
    dsimp only
    rw [if_neg opened.1, getTagWireType_makeTag, if_neg (by decide), whole, ok_bind]
    dsimp only
    rw [othersHypothesis (turns + 1) tail after number rest_ closed deep level
      (by simp only [List.length_append]; omega), ok_bind]
    rfl

/-- The payload of any unknown record is read. -/
theorem skipField_taken {depth : Nat} {body : List Byte} {record : Record}
    (carried : Carries depth body record) (turns : Nat)
    (here : CodedInputStream.At window input (body ++ rest)) (deep : depth ≤ 100)
    (level : input.recursionDepth = 100 - depth) (enough : 2 * (body ++ rest).length + 1 < turns) :
    ∃ last, skipField window turns input record.tag =
      .ok (some record, { CodedInputStream.before window input rest with lastTag := last }) := by
  obtain ⟨turns, rfl⟩ : ∃ before, turns = before + 1 := ⟨turns - 1, by omega⟩
  cases record with
  | group number nested =>
    obtain ⟨below, inner, tail, rfl, rfl, inside, closed⟩ := carried
    have read := skipMessage_taken inside turns tail rest number (here.marked _ _) closed
      (by omega)
      (show (deeper input).recursionDepth = 100 - below by
        show input.recursionDepth + 1 = _
        omega) (by omega)
    exact ⟨_, skipField_group turns here (by omega) (by omega) rest read⟩
  | _ => exact ⟨input.lastTag, skipField_plain turns here carried⟩

/-- The three outcomes of reading a tag: none is read where the bytes end or hold no number
    or a zero, and otherwise one that is spelled there. Only the end of the array is a
    proper end of the message. -/
theorem readTag_cases (here : CodedInputStream.At window input rest) :
    (∃ behind, input.readTag window = .ok (0, behind) ∧ behind.lastTag = 0 ∧
      (behind.legitimateMessageEnd = true → input.legitimateMessageEnd = true ∨ rest = [])) ∨
    ∃ head tag behind, rest = head ++ behind ∧ SpellsTag head tag ∧ input.readTag window =
      .ok (tag, { CodedInputStream.before window input behind with lastTag := tag }) := by
  rcases CodedInputStream.At.number_cases rest with none | ⟨head, number, behind, rfl, spelled, taken⟩
  · by_cases ended : rest = []
    · subst ended
      exact .inl ⟨_, here.readTag_end, rfl, fun _ => .inr rfl⟩
    · obtain ⟨position, read⟩ := here.readTag_none ended none
      exact .inl ⟨_, read, rfl, .inl⟩
  · have read := here.readTag_taken taken
    by_cases zero : BitVec.ofNat 32 number = 0
    · rw [zero] at read
      exact .inl ⟨_, read, rfl, .inl⟩
    · exact .inr ⟨head, BitVec.ofNat 32 number, behind, rfl, ⟨zero, number, spelled, rfl⟩, read⟩

/-- What `SkipField` reads is the payload of a record with the given tag. -/
def FieldSound (window : List Byte) (turns : Nat) : Prop :=
  ∀ (depth : Nat) input rest tag, CodedInputStream.At window input rest → depth ≤ 100 →
    input.recursionDepth = 100 - depth → 2 * rest.length + 1 < turns →
      (∃ behind, skipField window turns input tag = .ok (none, behind)) ∨
      ∃ record body behind, rest = body ++ behind ∧ record.tag = tag ∧ Carries depth body record

/-- What `SkipMessage` reads is a sequence of records up to the tag that ends a group, or no
    tag was there. -/
def FieldsSound (window : List Byte) (turns : Nat) : Prop :=
  ∀ (depth : Nat) input rest, CodedInputStream.At window input rest → depth ≤ 100 →
    input.recursionDepth = 100 - depth → 2 * rest.length < turns →
      (∃ behind, skipMessage window turns input = .ok (none, behind)) ∨
      (∃ fields behind, skipMessage window turns input = .ok (some fields, behind) ∧
        behind.lastTag = 0) ∨
      ∃ fields inner tail behind number, rest = inner ++ tail ++ behind ∧
        Listed depth inner fields ∧ SpellsTag tail (makeTag number endGroupType)

/-- One more turn of `SkipField`. A group is read only if the tag that ends its fields has
    the same number. -/
theorem fieldSound_step {turns : Nat} (fields : FieldsSound window turns) :
    FieldSound window (turns + 1) := by
  intro depth input rest tag here deep level enough
  by_cases start : getTagWireType tag = startGroupType
  case neg =>
    rcases skipPlain_sound here tag with ⟨behind, failed⟩ | ⟨record, body, behind, rfl, rfl, held⟩
    · refine .inl ⟨behind, ?_⟩
      rw [skipField, if_neg start, failed]
    · exact .inr ⟨record, body, behind, rfl, rfl, .of_holds held⟩
  case pos =>
    have parts := makeTag_parts tag
    rw [start] at parts
    rw [skipField, if_pos start, CodedInputStream.incrementRecursionDepth]
    dsimp only
    by_cases bottom : depth = 0
    · have closed : decide (input.recursionDepth + 1 ≤ input.recursionLimit) = false := by
        rw [decide_eq_false_iff_not, here.recursionLimit]
        omega
      rw [closed]
      exact .inl ⟨_, rfl⟩
    · obtain ⟨below, rfl⟩ : ∃ below, depth = below + 1 := ⟨depth - 1, by omega⟩
      have opened : decide (input.recursionDepth + 1 ≤ input.recursionLimit) = true := by
        rw [decide_eq_true_eq, here.recursionLimit]
        omega
      rw [opened, if_pos rfl]
      have within : CodedInputStream.At window (deeper input) rest := here.marked _ _
      rcases fields below (deeper input) rest within (by omega)
          (by
            show input.recursionDepth + 1 = _
            omega) (by omega) with
        ⟨behind, failed⟩ | ⟨nested, behind, read, zero⟩ | ⟨nested, inner, tail, behind, number, rfl,
          inside, closed⟩
      · refine .inl ⟨behind, ?_⟩
        show (skipMessage window turns (deeper input) >>= _) = _
        rw [failed, ok_bind]
      · refine .inl ⟨behind.decrementRecursionDepth, ?_⟩
        have kept : behind.decrementRecursionDepth.lastTag = 0 := by
          rw [CodedInputStream.decrementRecursionDepth]
          split <;> exact zero
        have other : behind.decrementRecursionDepth.lastTagWas
            (makeTag (getTagFieldNumber tag) endGroupType) = false := by
          rw [CodedInputStream.lastTagWas, kept, decide_eq_false_iff_not]
          intro same
          have value := congrArg BitVec.toNat same
          rw [makeTag_toNat] at value
          simp only [endGroupType, BitVec.ofNat_eq_ofNat, BitVec.toNat_ofNat] at value
          omega
        show (skipMessage window turns (deeper input) >>= _) = _
        rw [read, ok_bind]
        dsimp only
        rw [other]
        rfl
      · have read := skipMessage_taken inside turns tail behind number within closed (by omega)
          (by
            show input.recursionDepth + 1 = _
            omega) (by omega)
        by_cases same : number = getTagFieldNumber tag
        · subst same
          refine .inr ⟨.group (getTagFieldNumber tag) nested, inner ++ tail, behind, rfl, parts,
            below, inner, tail, rfl, rfl, inside, closed⟩
        · have kept : (CodedInputStream.decrementRecursionDepth
              { CodedInputStream.before window (deeper input) behind with
                lastTag := makeTag number endGroupType }).lastTag = makeTag number endGroupType := by
            rw [CodedInputStream.decrementRecursionDepth]
            split <;> rfl
          have other : CodedInputStream.lastTagWas (CodedInputStream.decrementRecursionDepth
              { CodedInputStream.before window (deeper input) behind with
                lastTag := makeTag number endGroupType })
              (makeTag (getTagFieldNumber tag) endGroupType) = false := by
            rw [CodedInputStream.lastTagWas, kept, decide_eq_false_iff_not]
            exact fun equal => same (makeTag_injective equal).1
          refine .inl ⟨CodedInputStream.decrementRecursionDepth
            { CodedInputStream.before window (deeper input) behind with
              lastTag := makeTag number endGroupType }, ?_⟩
          show (skipMessage window turns (deeper input) >>= _) = _
          rw [read, ok_bind]
          dsimp only
          rw [other]
          rfl

/-- One more turn of `SkipMessage`. -/
theorem fieldsSound_step {turns : Nat} (field : FieldSound window turns)
    (fields : FieldsSound window turns) : FieldsSound window (turns + 1) := by
  intro depth input rest here deep level enough
  rcases readTag_cases here with ⟨behind, read, zero, -⟩ | ⟨head, tag, behind, rfl, spelled, read⟩
  · refine .inr (.inl ⟨[], behind, ?_, zero⟩)
    rw [skipMessage, read, ok_bind]
    rfl
  have there := here.before.tagged tag
  have taken := spelled.nonempty
  rw [List.length_append] at enough
  by_cases ending : getTagWireType tag = endGroupType
  · have parts := makeTag_parts tag
    rw [ending] at parts
    rw [← parts] at spelled
    exact .inr (.inr ⟨[], [], head, behind, getTagFieldNumber tag, by simp, .nil depth, spelled⟩)
  · rcases field depth _ behind tag there deep level (by omega) with
      ⟨last, failed⟩ | ⟨record, body, further, rfl, rfl, carried⟩
    · refine .inl ⟨last, ?_⟩
      rw [skipMessage, read, ok_bind]
      dsimp only
      rw [if_neg spelled.1, if_neg ending, failed, ok_bind]
    · rw [List.length_append] at enough
      obtain ⟨last, one⟩ := skipField_taken carried turns there deep level
        (by rw [List.length_append]; omega)
      have beyond := there.before.tagged last
      have start : skipMessage window (turns + 1) input =
          skipMessage window turns
            { CodedInputStream.before window { CodedInputStream.before window input
              (body ++ further) with lastTag := record.tag } further with lastTag := last } >>=
            fun result => .ok (result.1.map (record :: ·), result.2) := by
        rw [skipMessage, read, ok_bind]
        dsimp only
        rw [if_neg spelled.1, if_neg ending, one]
        rfl
      rcases fields depth _ further beyond deep level (by omega) with
        ⟨end_, failed⟩ | ⟨others, end_, read, zero⟩ | ⟨others, inner, tail, end_, number, rfl,
          inside, closed⟩
      · refine .inl ⟨end_, ?_⟩
        rw [start, failed]
        rfl
      · refine .inr (.inl ⟨record :: others, end_, ?_, zero⟩)
        rw [start, read]
        rfl
      · refine .inr (.inr ⟨record :: others, head ++ body ++ inner, tail, end_, number, ?_,
          .cons spelled carried inside, closed⟩)
        simp only [List.append_assoc]

/-- Every run of `SkipField` and `SkipMessage` with enough turns. Induct over the turns. -/
theorem skip_sound (window : List Byte) (turns : Nat) :
    FieldSound window turns ∧ FieldsSound window turns := by
  induction turns with
  | zero =>
    constructor
    · intro depth input rest tag _ _ _ enough
      omega
    · intro depth input rest _ _ _ enough
      omega
  | succ turns inductionHypothesis =>
    obtain ⟨field, fields⟩ := inductionHypothesis
    exact ⟨fieldSound_step fields, fieldsSound_step field fields⟩

end WireFormat

end Sniffles
