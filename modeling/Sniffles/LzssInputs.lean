import Sniffles.LzssDecoding

/-!
# What the decoder accepts

`Uncompress` may be handed any bytes. It returns in three cases: the identifier is
another one, the stated size is zero, or the bytes behind the header hold a token stream
with its terminator, whose references exist and whose tokens fit the output buffer. On
all other bytes it leaves one of its buffers. It never runs on without consuming input.
-/

namespace Sniffles.CLZSS

open BitSequences CheckedMemory BackReferences

/-- What a call of `Uncompress` on some bytes leaves behind. -/
inductive Decodes (output : List Byte) : List Byte → Uncompressed → Prop where
  | unrecognized (id : BitVec 32) (rest : List Byte) (other : id ≠ lzssId) :
      Decodes output (wordBytes id ++ rest) ⟨0, output, 0⟩
  | empty (body : List Byte) : Decodes output (header 0 ++ body) ⟨0, output, 0⟩
  | stream (actualSize : BitVec 32) (body rest text : List Byte) (tokens : List (Token Byte))
      (recognized : actualSize ≠ 0) (stream : TokenStream 0 0 body tokens rest)
      (expanded : expand tokens [] = some text) (room : text.length ≤ output.length) :
      Decodes output (header actualSize ++ body)
        ⟨if BitVec.ofNat 32 text.length = actualSize then actualSize else 0,
          text ++ output.drop text.length, (header actualSize ++ body).length - rest.length⟩

section Turns

variable {input : List Byte} {decoder next : Decoder}

/-- A fetch that returns has found the command of the next token. -/
theorem fetchCommand_fetched (returned : decoder.fetchCommand input = .ok next) :
    Fetched decoder.getCmdByte decoder.cmdByte (input.drop decoder.pInput) next.cmdByte
        (input.drop next.pInput) ∧
      next.getCmdByte = (decoder.getCmdByte + 1) % 8 ∧ decoder.pInput ≤ next.pInput := by
  have wrapped (count : Nat) : (count + 1) &&& 0x07 = (count + 1) % 8 :=
    Nat.and_two_pow_sub_one_eq_mod (count + 1) 3
  rw [Decoder.fetchCommand] at returned
  by_cases due : decoder.getCmdByte = 0
  case pos =>
    rw [if_pos due] at returned
    obtain ⟨command, read, returned⟩ := bind_returned returned
    cases returned
    rw [due, (readCell_drop read).2, wrapped]
    exact ⟨.command _ _ _, rfl, Nat.le_succ _⟩
  case neg =>
    rw [if_neg due] at returned
    cases returned
    rw [wrapped]
    exact ⟨.kept _ _ _ due, rfl, Nat.le_refl _⟩

/-- A token that was decoded stands in the input: a literal byte, a reference or the
    terminator, by the flag of its command and its length. -/
inductive Taken (input : List Byte) (decoder next : Decoder) : Bool → Prop where
  | literal (byte : Byte) (clear : decoder.cmdByte % 2 = 0)
      (ahead : input.drop decoder.pInput = byte :: input.drop next.pInput) :
      Taken input decoder next true
  | reference (high low : Byte) (set : decoder.cmdByte % 2 = 1)
      (ahead : input.drop decoder.pInput = high :: low :: input.drop next.pInput)
      (length : low.toNat % 16 ≠ 0) : Taken input decoder next true
  | terminator (high low : Byte) (set : decoder.cmdByte % 2 = 1)
      (ahead : input.drop decoder.pInput = high :: low :: input.drop next.pInput)
      (length : low.toNat % 16 = 0) : Taken input decoder next false

/-- What a decoded token leaves: the place behind it and the command for the next one. -/
theorem takeToken_taken {more : Bool} (returned : decoder.takeToken input = .ok (next, more)) :
    Taken input decoder next more ∧ decoder.pInput < next.pInput ∧ next.pInput ≤ input.length ∧
      next.getCmdByte = decoder.getCmdByte ∧ (more = true → next.cmdByte = decoder.cmdByte / 2) := by
  rw [Decoder.takeToken] at returned
  by_cases set : decoder.cmdByte &&& 0x01 ≠ 0
  case pos =>
    have flag : decoder.cmdByte % 2 = 1 := by
      rw [Nat.and_one_is_mod] at set
      omega
    rw [if_pos set] at returned
    obtain ⟨high, readHigh, returned⟩ := bind_returned returned
    obtain ⟨low, readLow, returned⟩ := bind_returned returned
    obtain ⟨inside, second⟩ := readCell_drop readLow
    have ahead : input.drop decoder.pInput = high :: low :: input.drop (decoder.pInput + 2) := by
      rw [(readCell_drop readHigh).2, second]
    dsimp only at returned
    rw [(reference_combined high low).2] at returned
    by_cases length : low.toNat % 16 = 0
    case pos =>
      rw [if_pos (congrArg (· + 1) length)] at returned
      cases returned
      exact ⟨.terminator high low flag ahead length, Nat.lt_add_of_pos_right Nat.two_pos, inside,
        rfl, fun more => absurd more Bool.false_ne_true⟩
    case neg =>
      rw [if_neg (fun one => length (Nat.succ.inj one))] at returned
      obtain ⟨output, _, returned⟩ := bind_returned returned
      cases returned
      exact ⟨.reference high low flag ahead length, Nat.lt_add_of_pos_right Nat.two_pos, inside,
        rfl, fun _ => Nat.shiftRight_one _⟩
  case neg =>
    have flag : decoder.cmdByte % 2 = 0 := by
      rw [Nat.and_one_is_mod] at set
      omega
    rw [if_neg set] at returned
    obtain ⟨byte, read, returned⟩ := bind_returned returned
    obtain ⟨output, _, returned⟩ := bind_returned returned
    cases returned
    obtain ⟨inside, ahead⟩ := readCell_drop read
    exact ⟨.literal byte flag ahead, Nat.lt_succ_self _, inside, rfl, fun _ => Nat.shiftRight_one _⟩

end Turns

/-- A loop that returns has read a token stream.

Induct over the turns: each one has taken a token from the front of the stream. -/
theorem decodeLoop_found {input : List Byte} {turns : Nat} {decoder last : Decoder}
    (returned : decodeLoop input turns decoder = .ok last) :
    ∃ tokens rest, TokenStream decoder.getCmdByte decoder.cmdByte (input.drop decoder.pInput)
      tokens rest := by
  induction turns generalizing decoder with
  | zero => cases returned
  | succ turns inductionHypothesis =>
    rw [decodeLoop] at returned
    obtain ⟨fetched, fetch, returned⟩ := bind_returned returned
    obtain ⟨⟨next, more⟩, take, returned⟩ := bind_returned returned
    obtain ⟨command, phase, -⟩ := fetchCommand_fetched fetch
    obtain ⟨taken, -, -, samePhase, halved⟩ := takeToken_taken take
    dsimp only at returned
    have later (again : more = true) : ∃ tokens rest, TokenStream ((decoder.getCmdByte + 1) % 8)
        (fetched.cmdByte / 2) (input.drop next.pInput) tokens rest := by
      rw [if_pos again] at returned
      have found := inductionHypothesis returned
      rw [samePhase, phase, halved again] at found
      exact found
    cases taken with
    | literal byte clear ahead =>
      obtain ⟨tokens, rest, stream⟩ := later rfl
      rw [ahead] at command
      exact ⟨_, rest, .literal _ _ _ _ _ _ byte tokens command clear stream⟩
    | reference high low set ahead length =>
      obtain ⟨tokens, rest, stream⟩ := later rfl
      rw [ahead] at command
      exact ⟨_, rest, .reference _ _ _ _ _ _ high low tokens command set length stream⟩
    | terminator high low set ahead length =>
      rw [ahead] at command
      exact ⟨[], _, .terminator _ _ _ _ _ high low command set length⟩

section Progress

theorem copyBytes_finished (count : Nat) (output : List Byte) (pOutput : Nat) (pSource : Int) :
    copyBytes count output pOutput pSource ≠ .error .unfinished := by
  induction count generalizing output pOutput pSource with
  | zero => simp [copyBytes]
  | succ count inductionHypothesis =>
    rw [copyBytes]
    refine bind_finished (readAt_finished _ _) fun byte _ => ?_
    refine bind_finished (writeCell_finished _ _ _) fun output _ => ?_
    exact inductionHypothesis _ _ _

theorem fetchCommand_finished (input : List Byte) (decoder : Decoder) :
    decoder.fetchCommand input ≠ .error .unfinished := by
  rw [Decoder.fetchCommand]
  split
  · refine bind_finished (readCell_finished _ _) fun command _ => ?_
    simp
  · simp

theorem takeToken_finished (input : List Byte) (decoder : Decoder) :
    decoder.takeToken input ≠ .error .unfinished := by
  rw [Decoder.takeToken]
  split
  · refine bind_finished (readCell_finished _ _) fun high _ => ?_
    refine bind_finished (readCell_finished _ _) fun low _ => ?_
    dsimp only
    split
    · simp
    · exact bind_finished (copyBytes_finished _ _ _ _) fun _ _ => by simp
  · refine bind_finished (readCell_finished _ _) fun byte _ => ?_
    exact bind_finished (writeCell_finished _ _ _) fun _ _ => by simp

/-- The turns suffice: each one consumes input. -/
theorem decodeLoop_finished (input : List Byte) (turns : Nat) (decoder : Decoder)
    (enough : input.length < turns + decoder.pInput) :
    decodeLoop input turns decoder ≠ .error .unfinished ∨ input.length < decoder.pInput := by
  induction turns generalizing decoder with
  | zero =>
    rw [Nat.zero_add] at enough
    exact .inr enough
  | succ turns inductionHypothesis =>
    left
    rw [decodeLoop]
    refine bind_finished (fetchCommand_finished _ _) fun fetched fetch => ?_
    refine bind_finished (takeToken_finished _ _) fun result take => ?_
    obtain ⟨next, more⟩ := result
    obtain ⟨-, further, inside, -, -⟩ := takeToken_taken take
    have start := (fetchCommand_fetched fetch).2.2
    dsimp only
    split
    · exact (inductionHypothesis next (by omega)).resolve_right (Nat.not_lt.mpr inside)
    · simp

end Progress

/-- A word that was read is followed by the other bytes. -/
theorem readVector_split {input : List Byte} {word : Vector Byte 4} {place : Nat}
    (read : readVector 4 input place = .ok word) :
    input.drop place = wordBytes (joinBytes word) ++ input.drop (place + 4) := by
  obtain ⟨inside, stored⟩ : ∃ inside : place + 4 ≤ input.length,
      (⟨((input.drop place).take 4).toArray, by simp; omega⟩ : Vector Byte 4) = word := by
    rw [readVector] at read
    split at read
    case isTrue inside => exact ⟨inside, Except.ok.inj read⟩
    case isFalse => cases read
  have listed : word.toList = (input.drop place).take 4 := by rw [← stored]; rfl
  rw [wordBytes_joinBytes, listed, ← List.drop_drop, List.take_append_drop]

/-- Which headers are read: a foreign identifier, or the whole header with its size. -/
theorem getActualSize_read {pInput : List Byte} {actualSize : BitVec 32}
    (returned : getActualSize (some pInput) = .ok actualSize) :
    (actualSize = 0 ∧ ∃ id rest, id ≠ lzssId ∧ pInput = wordBytes id ++ rest) ∨
      ∃ body, pInput = header actualSize ++ body := by
  rw [getActualSize] at returned
  obtain ⟨id, first, returned⟩ := bind_returned returned
  have front := readVector_split first
  rw [List.drop_zero] at front
  by_cases known : joinBytes id = lzssId
  case pos =>
    rw [if_pos known] at returned
    obtain ⟨size, second, returned⟩ := bind_returned returned
    cases returned
    right
    refine ⟨pInput.drop 8, ?_⟩
    rw [header, List.append_assoc, ← readVector_split second, ← known]
    exact front
  case neg =>
    rw [if_neg known] at returned
    cases returned
    exact .inl ⟨rfl, joinBytes id, _, known, front⟩

/-- Tokens of a stream produce something. -/
theorem TokenStream.nonempty {phase kept : Nat} {bytes rest : List Byte} {tokens : List (Token Byte)}
    (stream : TokenStream phase kept bytes tokens rest) : ∀ token ∈ tokens, 0 < token.size := by
  induction stream with
  | literal _ _ _ _ _ _ _ _ _ _ _ inductionHypothesis =>
    exact List.forall_mem_cons.mpr ⟨Nat.one_pos, inductionHypothesis⟩
  | reference _ _ _ _ _ _ _ _ _ _ _ _ _ inductionHypothesis =>
    exact List.forall_mem_cons.mpr ⟨Nat.succ_pos _, inductionHypothesis⟩
  | terminator => exact fun token member => absurd member List.not_mem_nil

/-- What is decoded from a stream is what its tokens stand for, if that fits the output. -/
theorem uncompress_decodes {output pInput : List Byte} {result : Uncompressed}
    (decodes : Decodes output pInput result) : uncompress (some pInput) output = .ok result := by
  cases decodes with
  | unrecognized id rest other =>
    have read := readVector_between [] rest (wordCells id)
    rw [List.nil_append, wordCells_toList, List.length_nil] at read
    rw [uncompress, getActualSize, read, ok_bind, joinBytes_wordCells, if_neg other, ok_bind,
      if_pos rfl]
  | empty body => rw [uncompress, getActualSize_header, ok_bind, if_pos rfl]
  | stream actualSize body rest text tokens recognized stream expanded room =>
    have references := expand_references tokens [] text stream.nonempty expanded
    obtain ⟨other, again, length⟩ := expand_exists tokens [] references
    obtain rfl : text = other := Option.some.inj (expanded.symm.trans again)
    rw [List.length_nil, Nat.zero_add] at length
    obtain ⟨decoded, found, returned⟩ := uncompress_stream actualSize body rest output tokens stream
      recognized references (by rwa [← length])
    obtain rfl : text = decoded := Option.some.inj (expanded.symm.trans found)
    rw [returned, length]

/-- `Uncompress` returns on exactly the bytes that decode, with what they decode to, and
    on no bytes does it go on forever. -/
theorem uncompress_exact (pInput output : List Byte) :
    (∀ result, uncompress (some pInput) output = .ok result ↔ Decodes output pInput result) ∧
      uncompress (some pInput) output ≠ .error .unfinished := by
  constructor
  · intro result
    refine ⟨fun returned => ?_, uncompress_decodes⟩
    have called := returned
    rw [uncompress] at returned
    obtain ⟨actualSize, read, returned⟩ := bind_returned returned
    by_cases zero : actualSize = 0
    case pos =>
      rw [if_pos zero] at returned
      cases returned
      obtain ⟨-, id, rest, other, rfl⟩ | ⟨body, rfl⟩ := getActualSize_read read
      · exact .unrecognized id rest other
      · rw [zero]
        exact .empty body
    case neg =>
      obtain ⟨body, rfl⟩ := (getActualSize_read read).resolve_left fun foreign => zero foreign.1
      rw [if_neg zero] at returned
      obtain ⟨input, same, returned⟩ := bind_returned returned
      cases same
      obtain ⟨last, looped, -⟩ := bind_returned returned
      obtain ⟨tokens, rest, stream⟩ := decodeLoop_found looped
      have behind : (header actualSize ++ body).drop headerSize = body := List.drop_left' rfl
      rw [behind] at stream
      have fits : References 0 tokens ∧ total tokens ≤ output.length := by
        by_contra unfit
        rw [uncompress_outside actualSize body rest output tokens stream zero unfit] at called
        cases called
      obtain ⟨text, expanded, length⟩ := expand_exists tokens [] fits.1
      rw [List.length_nil, Nat.zero_add] at length
      have room : text.length ≤ output.length := by
        rw [length]
        exact fits.2
      have decodes := Decodes.stream actualSize body rest text tokens zero stream expanded room
      have again := uncompress_decodes decodes
      rw [called] at again
      cases again
      exact decodes
  · have size : getActualSize (some pInput) ≠ .error .unfinished := by
      rw [getActualSize]
      refine bind_finished (readVector_finished _ _ _) fun id _ => ?_
      split
      · exact bind_finished (readVector_finished _ _ _) fun size _ => by simp
      · simp
    rw [uncompress]
    refine bind_finished size fun actualSize read => ?_
    split
    case isTrue => simp
    case isFalse recognized =>
      obtain ⟨body, rfl⟩ := (getActualSize_read read).resolve_left fun foreign => recognized foreign.1
      have inside : headerSize ≤ (header actualSize ++ body).length := by
        rw [List.length_append]
        exact Nat.le_add_right _ _
      have looped := (decodeLoop_finished (header actualSize ++ body) (header actualSize ++ body).length
        ⟨headerSize, output, 0, 0, 0, 0⟩ (Nat.lt_add_of_pos_right (Nat.succ_pos 7))).resolve_right
          (Nat.not_lt.mpr inside)
      rw [dereference_some, ok_bind]
      refine bind_finished looped fun last _ => ?_
      split <;> simp

end Sniffles.CLZSS
