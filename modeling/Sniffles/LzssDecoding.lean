import Sniffles.LzssTokens

/-!
# Decoding a token stream

Over bytes that hold a token stream, each turn of the decode loop consumes one
token and appends what it stands for to the output. The loop returns if every
reference starts inside what has been produced and the output buffer has room
for all tokens; otherwise it touches memory outside the output buffer.
-/

namespace Sniffles.CLZSS

open BitSequences CheckedMemory BackReferences

/-- The decoder before some bytes of its input, after it has produced a text. -/
def Decoder.before (input bytes produced unused : List Byte) (command phase : Nat) : Decoder where
  pInput := input.length - bytes.length
  output := produced ++ unused
  pOutput := produced.length
  totalBytes := BitVec.ofNat 32 produced.length
  cmdByte := command
  getCmdByte := phase

/-- The first byte of a suffix of a buffer is read at its place. -/
theorem readCell_suffix (input after : List Byte) (byte : Byte) (suffix : byte :: after <:+ input) :
    readCell input (input.length - (byte :: after).length) = .ok byte := by
  obtain ⟨front, rfl⟩ := suffix
  have place : (front ++ byte :: after).length - (byte :: after).length = front.length := by simp
  rw [place, readCell_between]

/-- The next byte lies one place further. -/
theorem suffix_place (input after : List Byte) (byte : Byte) (suffix : byte :: after <:+ input) :
    input.length - (byte :: after).length + 1 = input.length - after.length := by
  have length := suffix.length_le
  rw [List.length_cons] at length ⊢
  omega

/-- The bytes behind a fetched command are still ahead. -/
theorem Fetched.suffix {phase kept command : Nat} {bytes after : List Byte}
    (fetched : Fetched phase kept bytes command after) : after <:+ bytes := by
  cases fetched with
  | command => exact List.suffix_cons _ _
  | kept => exact List.suffix_refl _

/-- Fetching reads the command byte if one is due. -/
theorem fetchCommand_before (input produced unused : List Byte) {phase kept command : Nat}
    {bytes after : List Byte} (fetched : Fetched phase kept bytes command after)
    (suffix : bytes <:+ input) :
    (Decoder.before input bytes produced unused kept phase).fetchCommand input =
      .ok (Decoder.before input after produced unused command ((phase + 1) % 8)) := by
  have wrapped (count : Nat) : (count + 1) &&& 0x07 = (count + 1) % 8 :=
    Nat.and_two_pow_sub_one_eq_mod (count + 1) 3
  cases fetched with
  | command _ command bytes =>
    have read := readCell_suffix input after command suffix
    have place := suffix_place input after command suffix
    simp only [Decoder.fetchCommand, Decoder.before, if_true, read, ok_bind, place, wrapped]
  | kept _ _ _ within =>
    simp only [Decoder.fetchCommand, Decoder.before, within, if_false, ok_bind, wrapped]

/-- A clear flag is a literal byte, which is appended if there is room. -/
theorem takeToken_literal (input after produced unused : List Byte) (byte old : Byte)
    (command phase : Nat) (suffix : byte :: after <:+ input) (flag : command % 2 = 0) :
    (Decoder.before input (byte :: after) produced (old :: unused) command phase).takeToken input =
      .ok (Decoder.before input after (produced ++ [byte]) unused (command / 2) phase, true) := by
  have clear : ¬ command &&& 0x01 ≠ 0 := by
    rw [Nat.and_one_is_mod, flag]
    exact not_not_intro rfl
  have read := readCell_suffix input after byte suffix
  have place := suffix_place input after byte suffix
  have written := writeCell_between produced old byte unused
  rw [Decoder.takeToken]
  simp only [Decoder.before, clear, if_false, read, ok_bind, written, place, Nat.shiftRight_one,
    List.append_assoc, List.singleton_append, List.length_append, List.length_singleton]
  rw [BitVec.ofNat_add]
  rfl

/-- Without room the literal byte is written behind the buffer. -/
theorem takeToken_literal_beyond (input after produced : List Byte) (byte : Byte)
    (command phase : Nat) (suffix : byte :: after <:+ input) (flag : command % 2 = 0) :
    (Decoder.before input (byte :: after) produced [] command phase).takeToken input =
      .error .outOfBounds := by
  have clear : ¬ command &&& 0x01 ≠ 0 := by
    rw [Nat.and_one_is_mod, flag]
    exact not_not_intro rfl
  have read := readCell_suffix input after byte suffix
  have outside := writeCell_end produced produced.length byte (Nat.le_refl _)
  rw [Decoder.takeToken]
  simp only [Decoder.before, clear, if_false, read, ok_bind, List.append_nil, outside, error_bind]

/-- Copying inside the produced text appends what the reference stands for. -/
theorem copyBytes_inside (count back : Nat) (produced unused text : List Byte)
    (inside : back < produced.length) (room : count ≤ unused.length)
    (copied : copyBack back count produced = some text) :
    copyBytes count (produced ++ unused) produced.length ((produced.length : Int) - back - 1) =
      .ok (text ++ unused.drop count) := by
  induction count generalizing produced unused with
  | zero =>
    cases copied
    rfl
  | succ count inductionHypothesis =>
    cases unused with
    | nil => exact absurd room (Nat.not_succ_le_zero count)
    | cons old unused =>
      rw [copyBack] at copied
      obtain ⟨cell, origin, rest⟩ := Option.bind_eq_some_iff.mp copied
      have room := Nat.le_of_succ_le_succ room
      have place : (produced.length : Int) - back - 1 = (produced.length - 1 - back : Nat) := by omega
      have stored : (produced ++ old :: unused)[produced.length - 1 - back]? = some cell := by
        rw [List.getElem?_reverse inside] at origin
        rw [List.getElem?_append_left (by omega)]
        exact origin
      have read := readAt_inside (produced ++ old :: unused) _ cell stored
      have written := writeCell_between produced old cell unused
      have next := inductionHypothesis (produced ++ [cell]) unused (by simp; omega) room rest
      have source : ((produced ++ [cell]).length : Int) - back - 1 =
          (produced.length - 1 - back : Nat) + 1 := by
        simp only [List.length_append, List.length_singleton]
        omega
      have regroup : produced ++ cell :: unused = produced ++ [cell] ++ unused := by simp
      have size : produced.length + 1 = (produced ++ [cell]).length := by simp
      rw [copyBytes, place, read, ok_bind, written, ok_bind, regroup, ← source, size, next,
        List.drop_succ_cons]

/-- A reference to before the start of the output reads there. -/
theorem copyBytes_before (count back : Nat) (produced unused : List Byte)
    (outside : produced.length ≤ back) :
    copyBytes (count + 1) (produced ++ unused) produced.length ((produced.length : Int) - back - 1) =
      .error .outOfBounds := by
  have negative : (produced.length : Int) - back - 1 < 0 := by omega
  rw [copyBytes, readAt_before _ _ negative, error_bind]

/-- A copy that is longer than the rest of the buffer writes behind it. -/
theorem copyBytes_beyond (count back : Nat) (produced unused : List Byte)
    (inside : back < produced.length) (full : unused.length < count) :
    copyBytes count (produced ++ unused) produced.length ((produced.length : Int) - back - 1) =
      .error .outOfBounds := by
  induction count generalizing produced unused with
  | zero => exact absurd full (Nat.not_lt_zero _)
  | succ count inductionHypothesis =>
    have place : (produced.length : Int) - back - 1 = (produced.length - 1 - back : Nat) := by omega
    have origin : produced.length - 1 - back < produced.length := by omega
    have stored : (produced ++ unused)[produced.length - 1 - back]? =
        some produced[produced.length - 1 - back] := by
      rw [List.getElem?_append_left origin, List.getElem?_eq_getElem origin]
    have read := readAt_inside _ _ _ stored
    rw [copyBytes, place, read, ok_bind]
    cases unused with
    | nil => rw [List.append_nil, writeCell_end _ _ _ (Nat.le_refl _), error_bind]
    | cons old unused =>
      have next := inductionHypothesis (produced ++ [produced[produced.length - 1 - back]]) unused
        (by simp; omega) (Nat.lt_of_succ_lt_succ full)
      have source : ((produced ++ [produced[produced.length - 1 - back]]).length : Int) - back - 1 =
          (produced.length - 1 - back : Nat) + 1 := by
        simp only [List.length_append, List.length_singleton]
        omega
      rw [writeCell_between, ok_bind, ← source]
      simpa using next

/-- The two bytes of a reference in a suffix of the input are read, and the bytes behind
    them come next. -/
theorem reference_read (input after : List Byte) (high low : Byte)
    (suffix : high :: low :: after <:+ input) :
    readCell input (input.length - (high :: low :: after).length) = .ok high ∧
      readCell input (input.length - (high :: low :: after).length + 1) = .ok low ∧
      input.length - (high :: low :: after).length + 2 = input.length - after.length := by
  have lowSuffix : low :: after <:+ input := (List.suffix_cons high _).trans suffix
  have place := suffix_place input (low :: after) high suffix
  have next := suffix_place input after low lowSuffix
  refine ⟨readCell_suffix input _ high suffix, ?_, ?_⟩
  · rw [place]
    exact readCell_suffix input after low lowSuffix
  · rw [← next, ← place]

/-- The distance and the length of a reference as the code combines them. -/
theorem reference_combined (high low : Byte) :
    high.toNat <<< lzssLookShift ||| low.toNat >>> lzssLookShift = high.toNat * 16 + low.toNat / 16 ∧
      (low.toNat &&& 0x0F) = low.toNat % 16 := by
  have small : low.toNat / 16 < 2 ^ 4 := by omega
  constructor
  · rw [lzssLookShift, Nat.shiftRight_eq_div_pow]
    exact (Nat.shiftLeft_add_eq_or_of_lt small high.toNat).symm.trans (by rw [Nat.shiftLeft_eq])
  · exact Nat.and_two_pow_sub_one_eq_mod low.toNat 4

theorem command_set {command : Nat} (flag : command % 2 = 1) : command &&& 0x01 ≠ 0 := by
  rw [Nat.and_one_is_mod, flag]
  exact one_ne_zero

/-- A reference copies its cells to the end of the output. -/
theorem takeToken_reference (input after produced unused : List Byte) (high low : Byte)
    (command phase : Nat) (suffix : high :: low :: after <:+ input) (flag : command % 2 = 1)
    (length : low.toNat % 16 ≠ 0) :
    (Decoder.before input (high :: low :: after) produced unused command phase).takeToken input =
      (copyBytes (low.toNat % 16 + 1) (produced ++ unused) produced.length
        ((produced.length : Int) - (high.toNat * 16 + low.toNat / 16 : Nat) - 1) >>= fun output =>
        .ok (⟨input.length - after.length, output, produced.length + (low.toNat % 16 + 1),
          BitVec.ofNat 32 produced.length + BitVec.ofNat 32 (low.toNat % 16 + 1), command / 2,
          phase⟩, true)) := by
  obtain ⟨readHigh, readLow, place⟩ := reference_read input after high low suffix
  obtain ⟨distance, count⟩ := reference_combined high low
  have several : ¬ low.toNat % 16 + 1 = 1 := fun same => length (Nat.succ.inj same)
  have set := command_set flag
  rw [Decoder.takeToken]
  simp only [Decoder.before, set, ne_eq, not_false_eq_true, if_true, readHigh, readLow, ok_bind,
    place, distance, count, several, if_false, Nat.shiftRight_one]

/-- After a copy the decoder stands behind the longer text. -/
theorem copied_before (input after text unused : List Byte) (command phase length count : Nat)
    (size : text.length = length + count) :
    (⟨input.length - after.length, text ++ unused, length + count,
      BitVec.ofNat 32 length + BitVec.ofNat 32 count, command, phase⟩ : Decoder) =
      Decoder.before input after text unused command phase := by
  rw [Decoder.before, size, BitVec.ofNat_add]

/-- The terminator ends the loop. -/
theorem takeToken_terminator (input after produced unused : List Byte) (high low : Byte)
    (command phase : Nat) (suffix : high :: low :: after <:+ input) (flag : command % 2 = 1)
    (length : low.toNat % 16 = 0) :
    (Decoder.before input (high :: low :: after) produced unused command phase).takeToken input =
      .ok (Decoder.before input after produced unused command phase, false) := by
  obtain ⟨readHigh, readLow, place⟩ := reference_read input after high low suffix
  obtain ⟨_, count⟩ := reference_combined high low
  have set := command_set flag
  rw [Decoder.takeToken]
  simp only [Decoder.before, set, ne_eq, not_false_eq_true, if_true, readHigh, readLow, ok_bind,
    place, count, length]

/-- A turn whose token is fetched from the bytes ahead. -/
theorem decodeLoop_turn (input produced unused : List Byte) (turns : Nat) {phase kept command : Nat}
    {bytes after : List Byte} (fetched : Fetched phase kept bytes command after)
    (suffix : bytes <:+ input) :
    decodeLoop input (turns + 1) (Decoder.before input bytes produced unused kept phase) =
      ((Decoder.before input after produced unused command ((phase + 1) % 8)).takeToken input >>=
        fun (decoder, more) => if more then decodeLoop input turns decoder else .ok decoder) := by
  rw [decodeLoop, fetchCommand_before input produced unused fetched suffix, ok_bind]

/-- A turn is left for fetched bytes, and enough turns for those behind them. -/
theorem Fetched.turn {input : List Byte} {phase kept command turns : Nat} {bytes : List Byte}
    (front after : List Byte) (fetched : Fetched phase kept bytes command (front ++ after))
    (nonempty : 0 < front.length) (suffix : bytes <:+ input) (enough : bytes.length ≤ turns) :
    ∃ left, turns = left + 1 ∧ front ++ after <:+ input ∧ after <:+ input ∧ after.length ≤ left := by
  have shorter := fetched.suffix.length_le
  rw [List.length_append] at shorter
  have here := fetched.suffix.trans suffix
  refine ⟨turns - 1, by omega, here, (List.suffix_append front after).trans here, by omega⟩

/-- The loop decodes a stream whose references exist and whose tokens fit the buffer.

Induct over the stream: each turn consumes one token and at least one byte. -/
theorem decodeLoop_stream (input : List Byte) {phase kept : Nat} {bytes rest : List Byte}
    {tokens : List (Token Byte)} (stream : TokenStream phase kept bytes tokens rest)
    (produced unused : List Byte) (turns : Nat) (suffix : bytes <:+ input)
    (enough : bytes.length ≤ turns) (references : References produced.length tokens)
    (room : total tokens ≤ unused.length) :
    ∃ text command last, expand tokens produced = some text ∧
      decodeLoop input turns (Decoder.before input bytes produced unused kept phase) =
        .ok (Decoder.before input rest text (unused.drop (total tokens)) command last) := by
  induction stream generalizing produced unused turns with
  | literal phase kept command bytes after rest byte tokens fetched flag _ inductionHypothesis =>
    obtain ⟨turns, rfl, here, behind, left⟩ :=
      fetched.turn [byte] after (Nat.succ_pos 0) suffix enough
    cases unused with
    | nil => exact absurd room (by simp [Token.size])
    | cons old unused =>
      have remaining : total tokens ≤ unused.length := by
        rw [total_cons, Token.size, List.length_cons] at room
        omega
      have size : (produced ++ [byte]).length = produced.length + 1 := List.length_append
      obtain ⟨text, lastCommand, last, expanded, decoded⟩ := inductionHypothesis (produced ++ [byte])
        unused turns behind left
        (size ▸ references) remaining
      refine ⟨text, lastCommand, last, expanded, ?_⟩
      rw [decodeLoop_turn input produced _ turns fetched suffix,
        takeToken_literal input after produced unused byte old _ _ here flag, ok_bind]
      rw [total_cons, Token.size, Nat.add_comm 1, List.drop_succ_cons]
      exact decoded
  | reference phase kept command bytes after rest high low tokens fetched flag length _
      inductionHypothesis =>
    obtain ⟨turns, rfl, here, behind, left⟩ :=
      fetched.turn [high, low] after (Nat.succ_pos 1) suffix enough
    rw [total_cons, Token.size] at room
    have fits : low.toNat % 16 + 1 ≤ unused.length := Nat.le_of_add_right_le room
    obtain ⟨longer, copied, size⟩ := copyBack_exists (high.toNat * 16 + low.toNat / 16)
      (low.toNat % 16 + 1) produced references.1
    have output := copyBytes_inside _ _ produced unused longer references.1 fits copied
    obtain ⟨text, lastCommand, last, expanded, decoded⟩ := inductionHypothesis longer
      (unused.drop (low.toNat % 16 + 1)) turns
      behind left (size ▸ references.2) (by rw [List.length_drop]; omega)
    refine ⟨text, lastCommand, last, ?_, ?_⟩
    · rw [expand, copied, Option.bind_some, expanded]
    · rw [decodeLoop_turn input produced unused turns fetched suffix,
        takeToken_reference input after produced unused high low _ _ here flag length,
        output, ok_bind, ok_bind, copied_before input after longer _ _ _ _ _ size]
      rw [List.drop_drop] at decoded
      exact decoded
  | terminator phase kept command bytes rest high low fetched flag length =>
    obtain ⟨turns, rfl, here, -, -⟩ :=
      fetched.turn [high, low] rest (Nat.succ_pos 1) suffix enough
    refine ⟨produced, command, (phase + 1) % 8, rfl, ?_⟩
    rw [decodeLoop_turn input produced unused turns fetched suffix,
      takeToken_terminator input rest produced unused high low _ _ here flag length,
      ok_bind]
    rfl

/-- The loop leaves the output buffer on a stream with a reference to before its start or
    with more tokens than it has room for.

Induct over the stream up to the first token that does not fit. -/
theorem decodeLoop_outside (input : List Byte) {phase kept : Nat} {bytes rest : List Byte}
    {tokens : List (Token Byte)} (stream : TokenStream phase kept bytes tokens rest)
    (produced unused : List Byte) (turns : Nat) (suffix : bytes <:+ input)
    (enough : bytes.length ≤ turns)
    (unfit : ¬ (References produced.length tokens ∧ total tokens ≤ unused.length)) :
    decodeLoop input turns (Decoder.before input bytes produced unused kept phase) =
      .error .outOfBounds := by
  induction stream generalizing produced unused turns with
  | literal phase kept command bytes after rest byte tokens fetched flag _ inductionHypothesis =>
    obtain ⟨turns, rfl, here, behind, left⟩ :=
      fetched.turn [byte] after (Nat.succ_pos 0) suffix enough
    rw [decodeLoop_turn input produced unused turns fetched suffix]
    cases unused with
    | nil =>
      rw [takeToken_literal_beyond input after produced byte _ _ here flag, error_bind]
    | cons old unused =>
      have size : (produced ++ [byte]).length = produced.length + 1 := List.length_append
      have later : ¬ (References (produced ++ [byte]).length tokens ∧ total tokens ≤ unused.length) := by
        rintro ⟨references, room⟩
        rw [size] at references
        refine unfit ⟨references, ?_⟩
        rw [total_cons, Token.size, List.length_cons]
        omega
      rw [takeToken_literal input after produced unused byte old _ _ here flag, ok_bind]
      exact inductionHypothesis (produced ++ [byte]) unused turns
        behind left later
  | reference phase kept command bytes after rest high low tokens fetched flag length _
      inductionHypothesis =>
    obtain ⟨turns, rfl, here, behind, left⟩ :=
      fetched.turn [high, low] after (Nat.succ_pos 1) suffix enough
    rw [decodeLoop_turn input produced unused turns fetched suffix,
      takeToken_reference input after produced unused high low _ _ here flag length]
    by_cases inside : high.toNat * 16 + low.toNat / 16 < produced.length
    case neg => rw [copyBytes_before _ _ produced unused (Nat.le_of_not_lt inside), error_bind,
      error_bind]
    case pos =>
      by_cases fits : low.toNat % 16 + 1 ≤ unused.length
      case neg =>
        rw [copyBytes_beyond _ _ produced unused inside (Nat.lt_of_not_le fits), error_bind,
          error_bind]
      case pos =>
        obtain ⟨longer, copied, size⟩ := copyBack_exists (high.toNat * 16 + low.toNat / 16)
          (low.toNat % 16 + 1) produced inside
        have output := copyBytes_inside _ _ produced unused longer inside fits copied
        have later : ¬ (References longer.length tokens ∧
            total tokens ≤ (unused.drop (low.toNat % 16 + 1)).length) := by
          rintro ⟨references, room⟩
          refine unfit ⟨⟨inside, size ▸ references⟩, ?_⟩
          rw [List.length_drop] at room
          rw [total_cons, Token.size]
          omega
        rw [output, ok_bind, ok_bind, copied_before input after longer _ _ _ _ _ size]
        exact inductionHypothesis longer (unused.drop (low.toNat % 16 + 1)) turns
          behind left later
  | terminator => exact absurd ⟨trivial, Nat.zero_le _⟩ unfit

/-- The header of a compressed buffer. -/
def header (actualSize : BitVec 32) : List Byte := wordBytes lzssId ++ wordBytes actualSize

/-- The header of a compressed buffer gives its actual size. -/
theorem getActualSize_header (actualSize : BitVec 32) (body : List Byte) :
    getActualSize (some (header actualSize ++ body)) = .ok actualSize := by
  have id := readVector_between [] (wordBytes actualSize ++ body) (wordCells lzssId)
  have size := readVector_between (wordBytes lzssId) body (wordCells actualSize)
  rw [List.nil_append, wordCells_toList, ← List.append_assoc] at id
  rw [wordCells_toList, wordBytes_length] at size
  rw [List.length_nil] at id
  rw [header, getActualSize, id, ok_bind, joinBytes_wordCells, if_pos rfl, size, ok_bind,
    joinBytes_wordCells]

/-- The decoder starts behind the header with nothing produced. -/
theorem Decoder.before_body (actualSize : BitVec 32) (body output : List Byte) :
    Decoder.before (header actualSize ++ body) body [] output 0 0 = ⟨headerSize, output, 0, 0, 0, 0⟩ := by
  have place : (header actualSize ++ body).length - body.length = headerSize := by
    rw [List.length_append, Nat.add_sub_cancel]
    rfl
  rw [Decoder.before, place]
  rfl

/-- `Uncompress` of a stream that fits the output buffer expands its tokens there, and
    returns their size if the header states it. -/
theorem uncompress_stream (actualSize : BitVec 32) (body rest output : List Byte)
    (tokens : List (Token Byte)) (stream : TokenStream 0 0 body tokens rest)
    (recognized : actualSize ≠ 0) (references : References 0 tokens)
    (room : total tokens ≤ output.length) :
    ∃ text, expand tokens [] = some text ∧
      uncompress (some (header actualSize ++ body)) output =
        .ok ⟨if BitVec.ofNat 32 text.length = actualSize then actualSize else 0,
          text ++ output.drop (total tokens),
          (header actualSize ++ body).length - rest.length⟩ := by
  have suffix : body <:+ header actualSize ++ body := List.suffix_append _ _
  obtain ⟨text, command, last, expanded, decoded⟩ := decodeLoop_stream (header actualSize ++ body)
    stream [] output (header actualSize ++ body).length suffix suffix.length_le references room
  rw [Decoder.before_body] at decoded
  refine ⟨text, expanded, ?_⟩
  rw [uncompress, getActualSize_header, ok_bind, if_neg recognized, dereference_some, ok_bind,
    decoded, ok_bind]
  by_cases stated : BitVec.ofNat 32 text.length = actualSize
  · simp only [Decoder.before, stated, ne_eq, not_true_eq_false, if_false, if_true]
  · simp only [Decoder.before, stated, ne_eq, not_false_eq_true, if_true, if_false]

/-- On any other stream `Uncompress` leaves the output buffer. -/
theorem uncompress_outside (actualSize : BitVec 32) (body rest output : List Byte)
    (tokens : List (Token Byte)) (stream : TokenStream 0 0 body tokens rest)
    (recognized : actualSize ≠ 0)
    (unfit : ¬ (References 0 tokens ∧ total tokens ≤ output.length)) :
    uncompress (some (header actualSize ++ body)) output = .error .outOfBounds := by
  have suffix : body <:+ header actualSize ++ body := List.suffix_append _ _
  have outside := decodeLoop_outside (header actualSize ++ body) stream [] output
    (header actualSize ++ body).length suffix suffix.length_le unfit
  rw [Decoder.before_body] at outside
  rw [uncompress, getActualSize_header, ok_bind, if_neg recognized, dereference_some, ok_bind,
    outside, error_bind]

end Sniffles.CLZSS
