import Mathlib.Tactic.IntervalCases
import Sniffles.EncoderTurns

/-!
# The fields of a reference

The length field of a reference has four bits, enough for the lengths from three
to sixteen. The distance field has twelve, but what bounds the distance is the
window: a position of the window is forgotten when its slot is reused. A window
of more than 4096 bytes therefore admits references whose distance does not fit
its field. Such a reference is decoded modulo 4096. From windows of 2^28 bytes on
no reference is written, since the block of the nodes is empty.
-/

namespace Sniffles.CLZSS

open BitSequences CheckedMemory BackReferences LatestMaxima

/-- The distance and the length that `Uncompress` takes from the two bytes of a
    reference. -/
def decodedReference (high low : Byte) : Nat × Nat :=
  ((high.toNat <<< lzssLookShift ||| low.toNat >>> lzssLookShift) + 1, (low.toNat &&& 0x0F) + 1)

/-- The decoder copies some bytes from some distance back and goes on behind the two bytes
    of the reference. -/
def Decoder.copyReference (decoder : Decoder) (distance count : Nat) : Checked (Decoder × Bool) := do
  let output ← copyBytes count decoder.output decoder.pOutput ((decoder.pOutput : Int) - distance)
  .ok ({ decoder with
    pInput := decoder.pInput + 2
    output := output
    pOutput := decoder.pOutput + count
    totalBytes := decoder.totalBytes + BitVec.ofNat 32 count
    cmdByte := decoder.cmdByte >>> 1 }, true)

/-- Whenever `Uncompress` takes a reference from a place of its input, it copies as many bytes
    from as far back as its fields say; the length of the terminator is not one of these. -/
def DecodesTo (input : List Byte) (place distance count : Nat) : Prop :=
  ∀ decoder : Decoder, decoder.pInput = place → decoder.cmdByte &&& 0x01 ≠ 0 →
    decoder.takeToken input = decoder.copyReference distance count

/-- `Uncompress` copies what it decodes from two bytes, unless they are a terminator. -/
theorem takeToken_decoded {input : List Byte} {place : Nat} {high low : Byte}
    (readHigh : readCell input place = .ok high) (readLow : readCell input (place + 1) = .ok low)
    (terminator : (decodedReference high low).2 ≠ 1) :
    DecodesTo input place (decodedReference high low).1 (decodedReference high low).2 := by
  rintro decoder rfl flag
  have start (position : Nat) :
      (decoder.pOutput : Int) - (position + 1 : Nat) = decoder.pOutput - position - 1 := by
    push_cast
    ring
  have other : ¬ (low.toNat &&& 0x0F) + 1 = 1 := terminator
  rw [Decoder.takeToken, if_pos flag, readHigh, ok_bind, readLow, ok_bind, if_neg other,
    Decoder.copyReference, decodedReference, start]

/-- `Uncompress` decodes the last two bytes before the output pointer to the distance and the
    length that the turn has chosen, which is not that of the terminator. -/
def Survives (before after : Encoder) : Prop :=
  ∃ place high low, after.pOutput = place + 2 ∧ readCell after.output place = .ok high ∧
    readCell after.output (place + 1) = .ok low ∧
    ((decodedReference high low).1 : Int) = before.pLookAhead - after.pEncodedPosition ∧
    ((decodedReference high low).2 : Int) = before.inputLength - after.inputLength ∧
    (decodedReference high low).2 ≠ 1 ∧
    DecodesTo after.output place (decodedReference high low).1 (decodedReference high low).2

/-- A compression takes some turns of its loop body and returns what follows from them, and
    every reference that a turn writes, also before it is abandoned, survives. -/
def ReferencesSurvive (source : Source) (pOutputBuf : List Byte) : Prop :=
  ∃ steps, compressTurns source pOutputBuf = .ok steps ∧
    compressNoAlloc source pOutputBuf = afterTurns source steps ∧ ∀ step ∈ steps,
      step.1.turn source = .ok step.2 ∧
      (3 ≤ step.1.inputLength - step.2.inputLength → Survives step.1 step.2)

/-- Wherever the greedy parse starts a token, the nearest one of the longest repetitions
    of at least three bytes lies at most 4096 bytes back. -/
def NearRepetitions (bytes : List Byte) (windowSize : Nat) : Prop :=
  ∀ turn ∈ greedyTurns bytes windowSize bytes.length 0 [], ∀ candidate,
    LatestMaximum (repetition bytes turn.1) (turn.1 - windowSize) turn.1 candidate →
    3 ≤ repetition bytes turn.1 candidate → turn.1 ≤ candidate + 4096

/-- The length is read back, and the distance modulo 4096. -/
theorem decodedReference_item (back count : Nat) (low : 1 ≤ count) (high : count ≤ 16) :
    decodedReference (BitVec.ofNat 8 (back / 16)) (BitVec.ofNat 8 (back * 16 + (count - 1))) =
      (back % 4096 + 1, count) := by
  obtain ⟨distance, length⟩ := reference_combined (BitVec.ofNat 8 (back / 16))
    (BitVec.ofNat 8 (back * 16 + (count - 1)))
  rw [decodedReference, distance, length, BitVec.toNat_ofNat, BitVec.toNat_ofNat]
  refine Prod.ext ?_ ?_ <;> dsimp only <;> omega

/-- The bytes of a reference are the last two before the output pointer. -/
theorem stored_reference (text unused : List Byte) (high low : Byte) :
    (text ++ [high, low]).length = text.length + 2 ∧
      readCell (text ++ [high, low] ++ unused) text.length = .ok high ∧
      readCell (text ++ [high, low] ++ unused) (text.length + 1) = .ok low := by
  have first := readCell_between text high (low :: unused)
  have second := readCell_between (text ++ [high]) low unused
  have last : text.length + 1 = (text ++ [high]).length := by simp
  rw [last]
  refine ⟨List.length_append, ?_, ?_⟩
  · simpa using first
  · simpa using second

/-- A turn that writes a reference of the parse keeps it exactly when the repetition is
    near. -/
theorem survives_iff {source : Source} {before after : Encoder} {position candidate : Nat}
    (wrote : Wrote source before after position
      (.copy (position - candidate - 1) (repetition source.bytes position candidate)))
    (earlier : candidate < position) (long : 3 ≤ repetition source.bytes position candidate) :
    Survives before after ↔ position ≤ candidate + 4096 := by
  have short : repetition source.bytes position candidate ≤ 16 :=
    Nat.le_trans (agreement_le _ _ _ _) (Nat.min_le_right _ _)
  have consumed := wrote.consumed
  have distance := wrote.distance _ _ rfl
  have start := wrote.start
  obtain ⟨text, unused, output, place⟩ := wrote.stored
  simp only [tokenItem] at output place
  generalize repetition source.bytes position candidate = count at *
  obtain ⟨length, readHigh, readLow⟩ := stored_reference text unused
    (BitVec.ofNat 8 ((position - candidate - 1) / 16))
    (BitVec.ofNat 8 ((position - candidate - 1) * 16 + (count - 1)))
  rw [← output] at readHigh readLow
  have decoded := decodedReference_item (position - candidate - 1) count (by omega) short
  have chosen : (before.pLookAhead : Int) - after.pEncodedPosition = (position - candidate : Nat) := by
    omega
  constructor
  · rintro ⟨start, high, low, stands, highIs, lowIs, back, _⟩
    obtain rfl : start = text.length := by omega
    cases readHigh.symm.trans highIs
    cases readLow.symm.trans lowIs
    rw [decoded, chosen] at back
    dsimp only at back
    omega
  · intro near
    have other : (decodedReference (BitVec.ofNat 8 ((position - candidate - 1) / 16))
        (BitVec.ofNat 8 ((position - candidate - 1) * 16 + (count - 1)))).2 ≠ 1 := by
      rw [decoded]
      dsimp only
      omega
    refine ⟨text.length, _, _, place.trans length, readHigh, readLow, ?_, ?_, other,
      takeToken_decoded readHigh readLow other⟩
    · rw [decoded, chosen]
      dsimp only
      omega
    · rw [decoded, consumed]
      rfl

/-- The turns of the parse start inside the text. -/
theorem greedyTurns_inside {bytes : List Byte} {windowSize turns position : Nat}
    {before : List (Token Byte)} {turn : Nat × Token Byte}
    (member : turn ∈ greedyTurns bytes windowSize turns position before) :
    turn.1 < bytes.length := by
  induction turns generalizing position before with
  | zero => exact absurd member List.not_mem_nil
  | succ turns inductionHypothesis =>
    rw [greedyTurns] at member
    split at member
    case isTrue more =>
      rcases List.mem_cons.mp member with rfl | later
      · exact more
      · split at later
        · exact absurd later List.not_mem_nil
        · exact inductionHypothesis later
    case isFalse => exact absurd member List.not_mem_nil

/-- An input of up to sixteen bytes has no references. -/
theorem short_survives {source : Source} (short : source.bytes.length ≤ 16)
    (pOutputBuf : List Byte) : ReferencesSurvive source pOutputBuf := by
  have taken : compressTurns source pOutputBuf = .ok [] := by
    rw [compressTurns]
    exact if_pos short
  exact ⟨[], taken, (compressTurns_taken taken).1, fun step member => absurd member List.not_mem_nil⟩

/-- Its parse does not reach far enough back for a lost one either. -/
theorem short_near {bytes : List Byte} (short : bytes.length ≤ 16) (windowSize : Nat) :
    NearRepetitions bytes windowSize := by
  intro turn member candidate _ _
  have inside := greedyTurns_inside member
  omega

/-- The references of a compression survive exactly when the repetitions are near. -/
theorem referencesSurvive_iff {source : Source} (window : source.PowerWindow)
    (nonNull : 0 < source.bytes.length → source.base ≠ 0)
    (fits : source.bytes.length < 2147483648) (pOutputBuf : List Byte)
    (allocated : pOutputBuf.length = source.bytes.length) :
    ReferencesSurvive source pOutputBuf ↔ NearRepetitions source.bytes source.windowSize := by
  obtain ⟨steps, taken, follow⟩ := compressTurns_greedy window nonNull fits pOutputBuf allocated
  obtain ⟨returned, turned⟩ := compressTurns_taken taken
  by_cases short : source.bytes.length ≤ headerSize + 8
  case pos =>
    exact ⟨fun _ => short_near short source.windowSize, fun _ => short_survives short pOutputBuf⟩
  case neg =>
    rw [if_neg short] at follow
    obtain ⟨forth, back⟩ := related_entries follow
    constructor
    · rintro ⟨other, same, _, survive⟩ turn member candidate best long
      cases taken.symm.trans same
      obtain ⟨step, inside, wrote, _⟩ := back turn member
      have copied := greedyToken_copy best long
      rw [← wrote.chosen] at copied
      have consumed := wrote.consumed
      rw [copied] at wrote consumed
      refine (survives_iff wrote best.below long).mp ((survive step inside).2 ?_)
      rw [consumed]
      exact Int.ofNat_le.mpr long
    · intro near
      refine ⟨steps, taken, returned, fun step member => ⟨turned step member, ?_⟩⟩
      intro reference
      obtain ⟨turn, inside, wrote, more, _⟩ := forth step member
      have holds := List.getElem?_eq_getElem more
      have chosen := wrote.chosen
      have consumed := wrote.consumed
      rcases @greedyToken_cases source.bytes source.windowSize turn.1 _ holds with
        ⟨candidate, best, long, copied⟩ | ⟨_, literal⟩
      · rw [chosen, copied] at wrote
        exact (survives_iff wrote best.below long).mpr (near turn inside candidate best long)
      · rw [consumed, chosen, literal] at reference
        have few : (3 : Int) ≤ (1 : Nat) := reference
        exact absurd few (by decide)

/-- Three bytes, 4097 zeros and the three bytes again. -/
def farText : List Byte := [1, 2, 3] ++ List.replicate 4097 0 ++ [1, 2, 3]

theorem farText_length : farText.length = 4103 := by
  rw [farText, List.length_append, List.length_append, List.length_replicate]
  rfl

/-- Its zeros. -/
theorem farText_zero (position : Nat) (above : 3 ≤ position) (below : position < 4100) :
    farText[position]? = some 0 := by
  obtain ⟨index, rfl⟩ := Nat.exists_eq_add_of_le above
  have inside : index < 4097 := by omega
  rw [farText, List.append_assoc, List.getElem?_append_right (Nat.le_add_right 3 index)]
  have start : 3 + index - ([1, 2, 3] : List Byte).length = index := Nat.add_sub_cancel_left 3 index
  rw [start, List.getElem?_append_left (by rwa [List.length_replicate]),
    List.getElem?_replicate_of_lt inside]

/-- Its last three bytes repeat the first three. -/
theorem farText_ends (index : Nat) (few : index < 3) :
    farText[index]? = ([1, 2, 3] : List Byte)[index]? ∧
      farText[4100 + index]? = ([1, 2, 3] : List Byte)[index]? := by
  have front : ([1, 2, 3] ++ List.replicate 4097 0 : List Byte).length = 4100 := by
    rw [List.length_append, List.length_replicate]
    rfl
  constructor
  · rw [farText, List.append_assoc, List.getElem?_append_left few]
  · rw [farText, List.getElem?_append_right (by omega), front, Nat.add_sub_cancel_left]

/-- The first four bytes differ from each other. -/
theorem farText_literals (windowSize position : Nat) (early : position < 4) :
    ∃ symbol, greedyToken farText windowSize position = .literal symbol := by
  have inside : position < farText.length := by
    rw [farText_length]
    omega
  have holds := List.getElem?_eq_getElem inside
  refine ⟨farText[position], greedyToken_literal holds ?_⟩
  intro candidate _ below
  have distinct : farText[candidate]? ≠ farText[position]? := by
    have values (index : Nat) (few : index < 4) :
        farText[index]? = ([1, 2, 3, 0] : List Byte)[index]? := by
      interval_cases index <;> rfl
    rw [values position early, values candidate (by omega)]
    interval_cases position <;> interval_cases candidate <;> decide
  rw [holds] at distinct
  rw [repetition_distinct farText position candidate _ holds distinct]
  exact Nat.succ_pos 2

/-- Behind the first zero a zero and fifteen more repeat the ones just before. -/
theorem farText_zeros (windowSize position : Nat) (positive : 0 < windowSize)
    (above : 4 ≤ position) (below : position + 16 ≤ 4100) :
    greedyToken farText windowSize position = .copy 0 16 := by
  have limit : min (farText.length - position) 16 = 16 := by
    rw [farText_length]
    omega
  have bounded (candidate : Nat) : repetition farText position candidate ≤ 16 :=
    Nat.le_trans (agreement_le _ _ _ _) (Nat.min_le_right _ _)
  have complete : repetition farText position (position - 1) = 16 := by
    rw [repetition, limit]
    refine agreement_complete farText (position - 1) position 16 ?_
    intro index few
    rw [farText_zero _ (by omega) (by omega), farText_zero _ (by omega) (by omega)]
  have best : LatestMaximum (repetition farText position) (position - windowSize) position
      (position - 1) := by
    refine ⟨by omega, by omega, ?_, ?_⟩
    · intro other _ _
      rw [complete]
      exact bounded other
    · intro other later earlier
      omega
  have back : position - (position - 1) - 1 = 0 := by omega
  rw [greedyToken_copy best (by rw [complete]; decide), complete, back]

/-- The last three bytes are repeated only at the start of the text. -/
theorem farText_repeats (windowSize : Nat) (wide : 4100 ≤ windowSize) :
    repetition farText 4100 0 = 3 ∧
      LatestMaximum (repetition farText 4100) (4100 - windowSize) 4100 0 := by
  have limit : min (farText.length - 4100) 16 = 3 := by
    rw [farText_length]
    rfl
  have three : repetition farText 4100 0 = 3 := by
    rw [repetition, limit]
    refine agreement_complete farText 0 4100 3 ?_
    intro index few
    obtain ⟨first, last⟩ := farText_ends index few
    rw [Nat.zero_add, first, last]
  have first : farText[4100]? = some 1 := (farText_ends 0 (by decide)).2
  have elsewhere (other : Nat) (later : 0 < other) (earlier : other < 4100) :
      repetition farText 4100 other = 0 := by
    refine repetition_distinct farText 4100 other 1 first ?_
    by_cases early : other < 3
    · rw [(farText_ends other early).1]
      interval_cases other <;> decide
    · rw [farText_zero other (by omega) earlier]
      decide
  refine ⟨three, by omega, by decide, ?_, ?_⟩
  · intro other _ below
    rcases Nat.eq_zero_or_pos other with rfl | positive
    · exact Nat.le_refl _
    · rw [elsewhere other positive below]
      exact Nat.zero_le _
  · intro other later below
    rw [elsewhere other later below, three]
    decide

/-- Tokens have at most two bytes of payload. -/
theorem writtenSize_le (tokens : List (Token Byte)) :
    writtenSize tokens ≤ headerSize + 2 * tokens.length + (tokens.length + 7) / 8 := by
  have payloads : (FlaggedGroups.payloads (tokens.map tokenItem)).length ≤ 2 * tokens.length := by
    induction tokens with
    | nil => exact Nat.le_refl 0
    | cons token rest inductionHypothesis =>
      have first := tokenItem_payload token
      have split : (FlaggedGroups.payloads ((token :: rest).map tokenItem)).length =
          (tokenItem token).payload.length +
            (FlaggedGroups.payloads (rest.map tokenItem)).length := List.length_append
      rw [split, List.length_cons]
      omega
  exact Nat.add_le_add_right (Nat.add_le_add_left payloads headerSize) _

/-- A token that leaves room for the rest is followed by the turns behind it. -/
theorem greedyTurns_later {bytes : List Byte} {windowSize turns position : Nat}
    {before : List (Token Byte)} {turn : Nat × Token Byte} (more : position < bytes.length)
    (room : headerSize + 2 * (before.length + 1) + (before.length + 1 + 7) / 8 + 16 < bytes.length)
    (later : turn ∈ greedyTurns bytes windowSize turns
      (position + (greedyToken bytes windowSize position).size)
      (before ++ [greedyToken bytes windowSize position])) :
    turn ∈ greedyTurns bytes windowSize (turns + 1) position before := by
  have written := writtenSize_le (before ++ [greedyToken bytes windowSize position])
  rw [List.length_append, List.length_singleton] at written
  have better : ¬ writtenSize (before ++ [greedyToken bytes windowSize position]) + 16 ≥
      bytes.length := by omega
  rw [greedyTurns, if_pos more]
  simp only [if_neg better]
  exact List.mem_cons_of_mem _ later

/-- From before the last zeros the parse reaches the last three bytes.

Induct over the references to zeros that are left. -/
theorem farText_reached (windowSize : Nat) (wide : 4100 ≤ windowSize) (left turns : Nat)
    (few : left ≤ 256) (before : List (Token Byte)) (count : before.length + left = 260) :
    (4100, .copy 4099 3) ∈ greedyTurns farText windowSize (turns + 1 + left) (4100 - 16 * left)
      before := by
  induction left generalizing before with
  | zero =>
    obtain ⟨three, best⟩ := farText_repeats windowSize wide
    have token : greedyToken farText windowSize 4100 = .copy 4099 3 := by
      rw [greedyToken_copy best (Nat.le_of_eq three.symm), three]
    have more : 4100 - 16 * 0 < farText.length := by
      rw [farText_length]
      decide
    rw [Nat.add_zero, greedyTurns, if_pos more, Nat.mul_zero, Nat.sub_zero, token]
    exact List.mem_cons_self
  | succ left inductionHypothesis =>
    have size := farText_length
    have header : headerSize = 8 := rfl
    have token := farText_zeros windowSize (4100 - 16 * (left + 1)) (by omega) (by omega) (by omega)
    have next : 4100 - 16 * (left + 1) + 16 = 4100 - 16 * left := by omega
    refine greedyTurns_later (by omega) (by omega) ?_
    rw [token, Token.size, next]
    refine inductionHypothesis (by omega) _ ?_
    rw [List.length_append, List.length_singleton]
    omega

/-- The first bytes are literals. -/
theorem farText_start {windowSize turns position : Nat} {before : List (Token Byte)}
    {turn : Nat × Token Byte} (early : position < 4) (count : before.length = position)
    (later : ∀ token, turn ∈ greedyTurns farText windowSize turns (position + 1)
      (before ++ [token])) :
    turn ∈ greedyTurns farText windowSize (turns + 1) position before := by
  have size := farText_length
  have header : headerSize = 8 := rfl
  obtain ⟨symbol, token⟩ := farText_literals windowSize position early
  refine greedyTurns_later (by omega) (by omega) ?_
  rw [token]
  exact later _

/-- In a window that holds its start the text ends with a reference to it. -/
theorem farText_not_near (windowSize : Nat) (wide : 4100 ≤ windowSize) :
    ¬ NearRepetitions farText windowSize := by
  intro near
  have member : (4100, .copy 4099 3) ∈ greedyTurns farText windowSize farText.length 0 [] := by
    rw [farText_length]
    refine farText_start (by decide) rfl ?_
    intro first
    refine farText_start (by decide) rfl ?_
    intro second
    refine farText_start (by decide) rfl ?_
    intro third
    refine farText_start (by decide) rfl ?_
    intro fourth
    exact farText_reached windowSize wide 256 3842 (Nat.le_refl _) _ rfl
  obtain ⟨three, best⟩ := farText_repeats windowSize wide
  exact absurd (near _ member 0 best (Nat.le_of_eq three.symm)) (by decide)

/-- In a window of at most 4096 bytes every repetition is near. -/
theorem narrow_near (bytes : List Byte) (windowSize : Nat) (narrow : windowSize ≤ 4096) :
    NearRepetitions bytes windowSize := by
  intro turn _ candidate best _
  have above := best.above
  omega

/-- The references that a compression writes survive their encoding exactly when the nodes of
    the window are allocated, or none are needed, and every token of the greedy parse repeats
    near bytes; and for all inputs exactly when the window has at most 4096 bytes. -/
theorem references_survive_iff (power : Nat) :
    (∀ source : Source, source.windowSize = 2 ^ power → source.base ≠ 0 →
      source.bytes.length < 2147483648 →
      ∀ pOutputBuf : List Byte, pOutputBuf.length = source.bytes.length →
        (ReferencesSurvive source pOutputBuf ↔
          (source.windowSize < 268435456 ∨ source.bytes.length ≤ 16) ∧
            NearRepetitions source.bytes source.windowSize)) ∧
    ((∀ source : Source, source.windowSize = 2 ^ power → source.base ≠ 0 →
      source.bytes.length < 2147483648 →
      ∀ pOutputBuf : List Byte, pOutputBuf.length = source.bytes.length →
        ReferencesSurvive source pOutputBuf) ↔ 2 ^ power ≤ 4096) := by
  have each (source : Source) (size : source.windowSize = 2 ^ power) (nonNull : source.base ≠ 0)
      (fits : source.bytes.length < 2147483648) (pOutputBuf : List Byte)
      (allocated : pOutputBuf.length = source.bytes.length) :
      ReferencesSurvive source pOutputBuf ↔
        (source.windowSize < 268435456 ∨ source.bytes.length ≤ 16) ∧
          NearRepetitions source.bytes source.windowSize := by
    by_cases narrow : source.windowSize < 268435456
    · rw [referencesSurvive_iff (Source.powerWindow size narrow) (fun _ => nonNull) fits pOutputBuf
        allocated]
      exact ⟨fun near => ⟨.inl narrow, near⟩, fun both => both.2⟩
    · constructor
      · rintro ⟨steps, taken, _⟩
        have short : source.bytes.length ≤ 16 := by
          by_contra long
          exact compressTurns_nodes taken (Nat.lt_of_not_le long)
            (source.unallocated size (Nat.le_of_not_lt narrow))
        exact ⟨.inr short, short_near short source.windowSize⟩
      · rintro ⟨wide | short, _⟩
        · exact absurd wide narrow
        · exact short_survives short pOutputBuf
  refine ⟨each, ?_, ?_⟩
  · intro all
    by_contra wide
    have next : 2 ^ 13 ≤ 2 ^ power := Nat.pow_le_pow_right (by decide) (by
      by_contra below
      exact wide (Nat.pow_le_pow_right (by decide) (by omega : power ≤ 12)))
    have short : farText.length < 2147483648 := by
      rw [farText_length]
      decide
    have survive := all ⟨2 ^ power, 1, farText⟩ rfl one_ne_zero short farText rfl
    refine farText_not_near (2 ^ power) (Nat.le_trans (by decide) next) ?_
    exact ((each ⟨2 ^ power, 1, farText⟩ rfl one_ne_zero short farText rfl).mp survive).2
  · intro small source size nonNull fits pOutputBuf allocated
    have narrow : source.windowSize ≤ 4096 := by
      rw [size]
      exact small
    exact (each source size nonNull fits pOutputBuf allocated).mpr
      ⟨.inl (Nat.lt_of_le_of_lt narrow (by decide)), narrow_near source.bytes source.windowSize narrow⟩

/-- Thirty-one equal bytes in a window of eight. -/
theorem equal_bytes_survive :
    ReferencesSurvive ⟨8, 23, List.replicate 31 0x41⟩ (List.replicate 31 0xCC) :=
  (references_survive_iff 3).2.mpr (by decide) ⟨8, 23, List.replicate 31 0x41⟩ rfl
    (by decide) (by decide) (List.replicate 31 0xCC) (by decide)

/-- In a window of 8192 bytes the reference over 4100 bytes is lost. -/
theorem far_reference_lost : ¬ ReferencesSurvive ⟨8192, 4096, farText⟩ farText := by
  have short : farText.length < 2147483648 := by
    rw [farText_length]
    decide
  rw [referencesSurvive_iff ⟨13, by decide, rfl⟩ (fun _ => by decide) short farText rfl]
  exact farText_not_near 8192 (by decide)

end Sniffles.CLZSS
