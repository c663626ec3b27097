import Sniffles.GreedyParse
import Sniffles.LzssDecoding

/-!
# What the encoder writes

Before each turn of the token loop the output is the header, the packed complete
groups and the group that is being written, and the tokens so far expand to the
input bytes before the look-ahead. A turn adds the token of the best match, or a
literal. It writes at most three bytes, for which the last test of `pEnd` has
left room, so no write leaves the buffer and the loop ends after at most one
turn for each input byte.
-/

namespace Sniffles.CLZSS

open BitSequences CheckedMemory BackReferences FlaggedGroups

/-- The encoder with a text at the start of its output. -/
def Encoder.withText (encoder : Encoder) (text unused : List Byte) : Encoder :=
  { encoder with output := text ++ unused, pOutput := text.length }

theorem put_text (encoder : Encoder) (text unused : List Byte) (byte : Byte)
    (room : 0 < unused.length) :
    (encoder.withText text unused).put byte =
      .ok (encoder.withText (text ++ [byte]) (unused.drop 1)) := by
  cases unused with
  | nil => exact absurd room (Nat.lt_irrefl 0)
  | cons old rest =>
    simp [Encoder.put, Encoder.withText, writeCell_between]

theorem updateCommand_text (encoder : Encoder) (front cells unused : List Byte) (command : Byte)
    (update : Byte → Byte) (pointer : encoder.pCmdByte = some front.length) :
    (encoder.withText (front ++ command :: cells) unused).updateCommand update =
      .ok (encoder.withText (front ++ update command :: cells) unused) := by
  simp [Encoder.updateCommand, Encoder.withText, pointer, readCell_between, writeCell_between]

theorem openCommand_text (encoder : Encoder) (text unused : List Byte) (command : Byte)
    (room : 0 < unused.length) :
    (encoder.withText text unused).openCommand command =
      .ok ({ encoder with pCmdByte := some text.length }.withText (text ++ [command])
        (unused.drop 1)) := by
  rw [Encoder.openCommand, put_text encoder text unused command room, ok_bind]
  rfl

/-- The header and the complete groups. -/
def Source.front (source : Source) (full : List (Token Byte)) : List Byte :=
  header (BitVec.ofNat 32 source.bytes.length) ++ pack 0 (full.map tokenItem)

/-- The output with a group that is being written. -/
def Source.text (source : Source) (full group : List (Token Byte)) : List Byte :=
  source.front full ++ opened (group.map tokenItem)

/-- A token that the encoder may choose: it repeats earlier input inside the window, as
    many bytes as the length field can hold. -/
def Choosable (source : Source) (position : Nat) : Token Byte → Prop
  | .literal byte => source.bytes[position]? = some byte
  | .copy back count => 3 ≤ count ∧ count ≤ 16 ∧ back < source.windowSize ∧ back < position ∧
      position + count ≤ source.bytes.length ∧ ∀ index < count,
        source.bytes[position - back - 1 + index]? = source.bytes[position + index]?

/-- The loop invariant of the encoder: the input before `position` has been consumed
    and the tokens of `full` and `group` have been written. -/
structure Writing (source : Source) (encoder : Encoder) (position : Nat)
    (full group : List (Token Byte)) (unused : List Byte) : Prop where
  window : Window source encoder.hash position
  lookAhead : encoder.pLookAhead = source.base + position
  remaining : encoder.inputLength = (source.bytes.length : Int) - position
  bounded : position ≤ source.bytes.length
  output : encoder.output = source.text full group ++ unused
  place : encoder.pOutput = (source.text full group).length
  capacity : (source.text full group).length + unused.length = source.bytes.length
  phase : encoder.putCmdByte = group.length
  unfinished : group.length < 8
  complete : full.length % 8 = 0
  command : group ≠ [] → encoder.pCmdByte = some (source.front full).length
  expanded : expand (full ++ group) [] = some (source.bytes.take position)
  choosable : ∀ token ∈ full ++ group, ∃ start, Choosable source start token

/-- The token for the best match. -/
def chosenToken (source : Source) (position : Nat) (symbol : Byte) (best : Match) : Token Byte :=
  if best.encodedLength ≥ 3 then
    .copy (source.base + position - best.pEncodedPosition - 1) best.encodedLength
  else .literal symbol

/-- A choosable token stands for the next bytes of the input. -/
theorem Choosable.expands {source : Source} {position : Nat} {token : Token Byte}
    (choosable : Choosable source position token) :
    0 < token.size ∧ position + token.size ≤ source.bytes.length ∧
      expand [token] (source.bytes.take position) =
        some (source.bytes.take (position + token.size)) := by
  cases token with
  | literal byte =>
    obtain ⟨inside, value⟩ := List.getElem?_eq_some_iff.mp choosable
    refine ⟨Nat.one_pos, inside, ?_⟩
    rw [expand, expand, ← value, List.take_append_getElem inside]
    rfl
  | copy back count =>
    obtain ⟨low, _, _, near, inside, repeated⟩ := choosable
    refine ⟨Nat.lt_of_lt_of_le (by decide) low, inside, ?_⟩
    have copied := copyBack_reproduces source.bytes (position - back - 1) back count position
      (by omega) inside repeated
    rw [expand, copied, Option.bind_some]
    rfl

/-- The match of the search gives the token of the greedy parse, and it starts as far
    back as the token says. -/
theorem chosenToken_greedy (source : Source) (position stale : Nat) (symbol : Byte)
    (holds : source.bytes[position]? = some symbol) (best : Match)
    (found : best = bestOf source position (min (source.bytes.length - position) 16)
      (occurrences source.bytes symbol (position - source.windowSize) position) ⟨0, stale⟩) :
    chosenToken source position symbol best =
        greedyToken source.bytes source.windowSize position ∧
      ∀ back count, greedyToken source.bytes source.windowSize position = .copy back count →
        best.pEncodedPosition + back + 1 = source.base + position := by
  rcases bestOf_occurrences source position stale symbol holds with
    ⟨kept, none⟩ | ⟨candidate, searched, _, latest⟩
  · rw [found, kept, greedyToken_literal holds fun candidate above below => by
      rw [none candidate above below]
      exact Nat.succ_pos 2]
    exact ⟨rfl, fun back count impossible => by cases impossible⟩
  · have below := latest.below
    rw [found, searched, chosenToken]
    by_cases long : repetition source.bytes position candidate ≥ 3
    · have distance : source.base + position - (source.base + candidate) - 1 =
          position - candidate - 1 := by omega
      rw [if_pos long, greedyToken_copy latest long, distance]
      refine ⟨rfl, ?_⟩
      rintro back count ⟨⟩
      dsimp only
      omega
    · have short := Nat.lt_of_not_le long
      rw [if_neg long, greedyToken_literal holds fun other above below =>
        Nat.lt_of_le_of_lt (latest.greatest other above below) short]
      exact ⟨rfl, fun back count impossible => by cases impossible⟩

/-- The match of the search gives a choosable token, whose bytes are those that are
    computed from the match. -/
theorem chosenToken_choosable (source : Source) (position stale : Nat) (symbol : Byte)
    (inside : position < source.bytes.length) (holds : source.bytes[position]? = some symbol)
    (fits : source.bytes.length < 2147483648) (best : Match)
    (found : best = bestOf source position (min (source.bytes.length - position) 16)
      (occurrences source.bytes symbol (position - source.windowSize) position) ⟨0, stale⟩) :
    Choosable source position (chosenToken source position symbol best) ∧
      (best.encodedLength ≥ 3 → tokenItem (chosenToken source position symbol best) =
        ⟨true, [(referenceBytes (source.base + position) best.pEncodedPosition best.encodedLength).1,
          (referenceBytes (source.base + position) best.pEncodedPosition
            best.encodedLength).2]⟩) := by
  by_cases long : best.encodedLength ≥ 3
  case neg =>
    rw [chosenToken, if_neg long]
    exact ⟨holds, fun reaches => absurd reaches long⟩
  case pos =>
    rcases bestOf_occurrences source position stale symbol holds with
      ⟨kept, _⟩ | ⟨candidate, searched, _, latest⟩
    · rw [found, kept] at long
      exact absurd long (Nat.not_succ_le_zero 2)
    · rw [searched] at found
      have above := latest.above
      have below := latest.below
      have limit := agreement_le source.bytes candidate position
        (min (source.bytes.length - position) 16)
      have equal := agreement_equal source.bytes candidate position
        (min (source.bytes.length - position) 16)
      rw [found, repetition] at long ⊢
      rw [chosenToken, if_pos long]
      clear found searched latest
      generalize agreement source.bytes candidate position
        (min (source.bytes.length - position) 16) = count at *
      have distance : source.base + position - (source.base + candidate) - 1 =
          position - candidate - 1 := by omega
      have start : position - (position - candidate - 1) - 1 = candidate := by omega
      dsimp only at long ⊢
      rw [distance]
      refine ⟨⟨long, by omega, by omega, by omega, by omega, ?_⟩, ?_⟩
      · intro index shorter
        rw [start]
        exact equal index shorter
      · intro _
        exact referenceBytes_item source.base position candidate count below (by omega) (by omega)

/-- An encoder is determined by its output split at its output pointer. -/
theorem withText_self (encoder : Encoder) (text unused : List Byte)
    (output : encoder.output = text ++ unused) (place : encoder.pOutput = text.length) :
    encoder = encoder.withText text unused := by
  rw [Encoder.withText, ← output, ← place]

/-- Beginning a token leaves the command byte of its group in front of the payloads. -/
theorem beginToken_text (encoder : Encoder) (front unused : List Byte) (group : List Item)
    (output : encoder.output = front ++ opened group ++ unused)
    (place : encoder.pOutput = (front ++ opened group).length)
    (phase : encoder.putCmdByte = group.length)
    (pointer : group ≠ [] → encoder.pCmdByte = some front.length) (room : 0 < unused.length) :
    encoder.beginToken =
      .ok ({ encoder with
        pCmdByte := some front.length
        putCmdByte := (group.length + 1) % 8 }.withText
          (front ++ progress group :: payloads group)
          (unused.drop (if group = [] then 1 else 0))) := by
  have counted : (encoder.putCmdByte + 1) &&& 0x07 = (group.length + 1) % 8 := by
    rw [phase]
    exact Nat.and_two_pow_sub_one_eq_mod (group.length + 1) 3
  have split := withText_self encoder (front ++ opened group) unused output place
  cases group with
  | nil =>
    have due : encoder.putCmdByte = 0 := phase
    have started := openCommand_text encoder (front ++ opened []) unused 0 room
    rw [← split] at started
    rw [Encoder.beginToken, if_pos due, started, ok_bind]
    simp only [Encoder.withText, counted, opened, List.append_nil]
    rfl
  | cons item rest =>
    have waiting : encoder.putCmdByte ≠ 0 := by
      rw [phase]
      exact Nat.succ_ne_zero _
    have kept := pointer (List.cons_ne_nil item rest)
    rw [Encoder.beginToken, if_neg waiting, ok_bind]
    simp only [opened] at output place
    simp [Encoder.withText, counted, kept, output, place]

/-- Writing a token shifts its flag into the command byte and appends its payload. -/
theorem putToken_text (source : Source) (encoder : Encoder) (position : Nat) (symbol : Byte)
    (best : Match) (front cells unused : List Byte) (command : Byte)
    (lookAhead : encoder.pLookAhead = source.base + position)
    (holds : source.bytes[position]? = some symbol)
    (pointer : encoder.pCmdByte = some front.length) (room : 2 ≤ unused.length)
    (reference : best.encodedLength ≥ 3 → tokenItem (chosenToken source position symbol best) =
      ⟨true, [(referenceBytes (source.base + position) best.pEncodedPosition best.encodedLength).1,
        (referenceBytes (source.base + position) best.pEncodedPosition best.encodedLength).2]⟩) :
    (encoder.withText (front ++ command :: cells) unused).putToken source best =
      .ok (encoder.withText
        (front ++ shiftIn command (tokenItem (chosenToken source position symbol best)).flag ::
          (cells ++ (tokenItem (chosenToken source position symbol best)).payload))
        (unused.drop (tokenItem (chosenToken source position symbol best)).payload.length),
        (chosenToken source position symbol best).size) := by
  have address (text left : List Byte) :
      (encoder.withText text left).pLookAhead = source.base + position := lookAhead
  by_cases long : best.encodedLength ≥ 3
  case pos =>
    have size : (chosenToken source position symbol best).size = best.encodedLength := by
      rw [chosenToken, if_pos long]
      rfl
    rw [reference long, size, Encoder.putToken, if_pos long,
      updateCommand_text encoder front cells unused command _ pointer, ok_bind]
    simp only [address]
    rw [put_text _ _ _ _ (by omega), ok_bind, put_text _ _ _ _ (by rw [List.length_drop]; omega),
      ok_bind]
    simp [shiftIn]
  case neg =>
    have literal : chosenToken source position symbol best = .literal symbol := by
      rw [chosenToken, if_neg long]
    rw [literal, Encoder.putToken, if_neg long,
      updateCommand_text encoder front cells unused command _ pointer, ok_bind]
    rw [address, source.load_stored position symbol holds, ok_bind, put_text _ _ _ _ (by omega),
      ok_bind]
    simp [shiftIn, tokenItem, Token.size]

/-- A written token completes its group or leaves it open. -/
theorem text_extended (source : Source) (full group : List (Token Byte)) (unfinished : group.length ≤ 8)
    (nonempty : group ≠ []) (complete : full.length % 8 = 0) :
    ∃ grown left, full ++ group = grown ++ left ∧ left.length < 8 ∧ grown.length % 8 = 0 ∧
      left.length = group.length % 8 ∧
      source.front full ++ progress (group.map tokenItem) :: payloads (group.map tokenItem) =
        source.text grown left ∧
      (left ≠ [] → source.front grown = source.front full) := by
  have itemsNonempty : group.map tokenItem ≠ [] := by simpa using nonempty
  by_cases last : group.length = 8
  case pos =>
    have eight : (group.map tokenItem).length = 8 := by rw [List.length_map, last]
    have closed : pack 0 ((full ++ group).map tokenItem) =
        pack 0 (full.map tokenItem) ++
          command (group.map tokenItem) :: payloads (group.map tokenItem) := by
      rw [List.map_append, pack_append 0 _ _ (by decide) (by rw [List.length_map]; omega),
        pack_group _ itemsNonempty (Nat.le_of_eq eight)]
    refine ⟨full ++ group, [], (List.append_nil _).symm, by decide, ?_, ?_, ?_,
      fun other => absurd rfl other⟩
    · rw [List.length_append, last]
      omega
    · rw [last]
      rfl
    · rw [Source.text, Source.front, Source.front, closed, progress_full _ eight, List.map_nil, opened,
        List.append_nil, List.append_assoc]
  case neg =>
    refine ⟨full, group, rfl, by omega, complete, by omega, ?_, fun _ => rfl⟩
    rw [Source.text]
    cases shape : group.map tokenItem with
    | nil => exact absurd shape itemsNonempty
    | cons item rest => rfl

/-- The encoder after a turn that has written a token. -/
def Encoder.afterToken (encoder : Encoder) (source : Source) (position : Nat)
    (full group : List (Token Byte)) (token : Token Byte) (unused : List Byte) (hash : Hash)
    (best : Match) : Encoder :=
  { hash := hash
    output := (source.front full ++ progress ((group ++ [token]).map tokenItem) ::
      payloads ((group ++ [token]).map tokenItem)) ++ unused
    pOutput := (source.front full ++ progress ((group ++ [token]).map tokenItem) ::
      payloads ((group ++ [token]).map tokenItem)).length
    pLookAhead := source.base + position + token.size
    inputLength := encoder.inputLength - token.size
    pEncodedPosition := best.pEncodedPosition
    pCmdByte := some (source.front full).length
    putCmdByte := (group.length + 1) % 8 }

/-- One turn writes the token of the greedy parse and moves the window over its bytes. -/
theorem turn_written {source : Source} (window : source.PowerWindow) (nonNull : source.base ≠ 0)
    (fits : source.bytes.length < 2147483648) (encoder : Encoder) (position : Nat)
    (full group : List (Token Byte)) (unused : List Byte)
    (writing : Writing source encoder position full group unused)
    (more : position < source.bytes.length) (room : 3 ≤ unused.length) :
    ∃ token hash best rest, token = greedyToken source.bytes source.windowSize position ∧
      (∀ back count, token = .copy back count →
        best.pEncodedPosition + back + 1 = source.base + position) ∧
      Choosable source position token ∧ Window source hash (position + token.size) ∧
      buildHashes source token.size encoder.hash (source.base + position) = .ok hash ∧
      encoder.turn source =
        .ok (encoder.afterToken source position full group token rest hash best) ∧
      rest <:+ unused ∧ rest.length + (if group.map tokenItem = [] then 1 else 0) + (tokenItem token).payload.length =
        unused.length := by
  have holds := List.getElem?_eq_getElem more
  have counted : (group.map tokenItem).length = group.length := List.length_map _
  have begun := beginToken_text encoder (source.front full) unused (group.map tokenItem)
    writing.output writing.place (by rw [counted]; exact writing.phase)
    (fun nonempty => writing.command (by simpa using nonempty)) (by omega)
  generalize source.bytes[position] = symbol at holds
  generalize bestIs : bestOf source position (min (source.bytes.length - position) 16)
    (occurrences source.bytes symbol (position - source.windowSize) position)
    ⟨0, encoder.pEncodedPosition⟩ = best
  obtain ⟨choosable, reference⟩ := chosenToken_choosable source position encoder.pEncodedPosition
    symbol more holds fits best bestIs.symm
  have limit : (min encoder.inputLength (lzssLookAhead : Int)).toNat =
      min (source.bytes.length - position) 16 := by
    have width : (lzssLookAhead : Int) = 16 := rfl
    rw [writing.remaining, width]
    omega
  have searched := search_window window encoder.hash position (min (source.bytes.length - position) 16)
    symbol ⟨0, encoder.pEncodedPosition⟩ writing.window (by omega)
  rw [bestIs] at searched
  have loaded := source.load_stored position symbol holds
  have dropped : (unused.drop (if group.map tokenItem = [] then 1 else 0)).length ≥ 2 := by
    rw [List.length_drop]
    split <;> omega
  have written := putToken_text source
    { encoder with
      pCmdByte := some (source.front full).length
      putCmdByte := ((group.map tokenItem).length + 1) % 8 }
    position symbol best (source.front full) (payloads (group.map tokenItem))
    (unused.drop (if group.map tokenItem = [] then 1 else 0)) (progress (group.map tokenItem))
    writing.lookAhead holds rfl dropped reference
  obtain ⟨greedy, distance⟩ := chosenToken_greedy source position encoder.pEncodedPosition symbol
    holds best bestIs.symm
  rw [← greedy] at distance
  generalize chosenToken source position symbol best = token at *
  obtain ⟨hash, built, moved⟩ := buildHashes_window window nonNull token.size encoder.hash position
    writing.window choosable.expands.2.1
  have items : (group ++ [token]).map tokenItem = group.map tokenItem ++ [tokenItem token] :=
    List.map_append
  have shifted := progress_added (group.map tokenItem) (tokenItem token)
    (by rw [counted]; exact writing.unfinished)
  have appended : payloads (group.map tokenItem) ++ (tokenItem token).payload =
      payloads ((group ++ [token]).map tokenItem) := by
    rw [items, payloads_append]
    simp [payloads]
  rw [shifted, appended, ← items] at written
  refine ⟨token, hash, best, (unused.drop (if group.map tokenItem = [] then 1 else 0)).drop
    (tokenItem token).payload.length, greedy, distance, choosable, moved, built, ?_,
    (List.drop_suffix _ _).trans (List.drop_suffix _ _), ?_⟩
  · rw [Encoder.turn, begun, ok_bind]
    simp only [Encoder.withText] at written ⊢
    rw [limit, writing.lookAhead, loaded, ok_bind, searched, ok_bind, ← writing.lookAhead, written,
      ok_bind]
    simp only [Encoder.afterToken, writing.lookAhead, built, ok_bind, counted]
  · have small := tokenItem_payload token
    rw [List.length_drop, List.length_drop]
    split <;> omega

/-- What a turn at a position shows: the token of the greedy parse, the input bytes and
    the place of its repetition, and its bytes in front of the output pointer. -/
structure Wrote (source : Source) (before after : Encoder) (position : Nat)
    (token : Token Byte) : Prop where
  chosen : token = greedyToken source.bytes source.windowSize position
  start : before.pLookAhead = source.base + position
  consumed : before.inputLength - after.inputLength = token.size
  distance : ∀ back count, token = .copy back count →
    after.pEncodedPosition + back + 1 = source.base + position
  built : buildHashes source token.size before.hash (source.base + position) = .ok after.hash
  stored : ∃ text unused, after.output = text ++ (tokenItem token).payload ++ unused ∧
    after.pOutput = (text ++ (tokenItem token).payload).length

/-- One turn consumes the bytes of one token and keeps the invariant. -/
theorem turn_writing {source : Source} (window : source.PowerWindow) (nonNull : source.base ≠ 0)
    (fits : source.bytes.length < 2147483648) (encoder : Encoder) (position : Nat)
    (full group : List (Token Byte)) (unused : List Byte)
    (writing : Writing source encoder position full group unused)
    (more : position < source.bytes.length) (room : 3 ≤ unused.length) :
    ∃ next token grown left rest, encoder.turn source = .ok next ∧
      Choosable source position token ∧ full ++ group ++ [token] = grown ++ left ∧
      Writing source next (position + token.size) grown left rest ∧
      Wrote source encoder next position token ∧ rest <:+ unused := by
  obtain ⟨token, hash, best, rest, greedy, distance, choosable, moved, built, turned, behind,
      spared⟩ :=
    turn_written window nonNull fits encoder position full group unused writing more room
  obtain ⟨_, reached, expanded⟩ := choosable.expands
  obtain ⟨grown, left, regrouped, unfinished, complete, phase, grownText, pointer⟩ :=
    text_extended source full (group ++ [token])
      (by rw [List.length_append]; exact writing.unfinished) (by simp) writing.complete
  have added : payloads ((group ++ [token]).map tokenItem) =
      payloads (group.map tokenItem) ++ (tokenItem token).payload := by
    rw [List.map_append, payloads_append]
    simp [payloads]
  have wrote : Wrote source encoder
      (encoder.afterToken source position full group token rest hash best) position token := by
    refine ⟨greedy, writing.lookAhead, Int.sub_sub_self _ _, distance, built,
      source.front full ++ progress ((group ++ [token]).map tokenItem) ::
        payloads (group.map tokenItem), rest, ?_, ?_⟩
    · rw [Encoder.afterToken, added]
      simp only [List.append_assoc, List.cons_append]
    · rw [Encoder.afterToken, added]
      simp only [List.append_assoc, List.cons_append]
  refine ⟨_, token, grown, left, rest, turned, choosable, by rw [List.append_assoc, regrouped], ?_,
    wrote, behind⟩
  constructor
  case window => exact moved
  case lookAhead => exact Nat.add_assoc _ _ _
  case remaining =>
    have spent := writing.remaining
    simp only [Encoder.afterToken]
    push_cast
    omega
  case bounded => exact reached
  case output => rw [Encoder.afterToken, grownText]
  case place => rw [Encoder.afterToken, grownText]
  case capacity =>
    have before := writing.capacity
    have beforeOpen := opened_length (group.map tokenItem)
    rw [Source.text, List.length_append] at before
    rw [← grownText, List.length_append, List.length_cons, added, List.length_append]
    omega
  case phase =>
    rw [phase, List.length_append]
    rfl
  case unfinished => exact unfinished
  case complete => exact complete
  case command =>
    intro nonempty
    rw [pointer nonempty]
    rfl
  case expanded =>
    rw [← regrouped, ← List.append_assoc, expand_append, writing.expanded]
    exact expanded
  case choosable =>
    intro other member
    rw [← regrouped, ← List.append_assoc] at member
    rcases List.mem_append.mp member with earlier | last
    · exact writing.choosable other earlier
    · rw [List.mem_singleton.mp last]
      exact ⟨position, choosable⟩

/-- Behind the whole input the token loop takes no turn. -/
theorem encodeLoop_done {source : Source} {encoder : Encoder} {full group : List (Token Byte)}
    {unused : List Byte} (pEnd turns : Nat)
    (writing : Writing source encoder source.bytes.length full group unused) :
    encodeLoop source pEnd turns encoder = .ok (some encoder) := by
  have done : ¬ encoder.inputLength > 0 := by
    rw [writing.remaining, Int.sub_self]
    exact lt_irrefl 0
  cases turns with
  | zero => rw [encodeLoop, if_neg done]
  | succ turns => rw [encodeLoop, if_neg done]

/-- The written text has the size of its tokens. -/
theorem text_length (source : Source) (full group : List (Token Byte))
    (unfinished : group.length < 8) (complete : full.length % 8 = 0) :
    (source.text full group).length = writtenSize (full ++ group) := by
  have first : (header (BitVec.ofNat 32 source.bytes.length)).length = headerSize := rfl
  have packed := pack_length 0 (full.map tokenItem) (by decide)
  have begun := opened_length (group.map tokenItem)
  have empty : group.map tokenItem = [] ↔ group.length = 0 := by
    rw [List.map_eq_nil_iff, List.length_eq_zero_iff]
  rw [List.length_map] at packed
  simp only [empty] at begun
  rw [Source.text, Source.front, List.length_append, List.length_append, first, packed, writtenSize,
    List.map_append, payloads_append, List.length_append, List.length_append]
  split_ifs at begun <;> omega

/-- The token loop writes the tokens of the greedy parse, and it is abandoned when they
    get too long; it never fails.

Induct over the bound: each turn consumes input, and the test of `pEnd` leaves 17 bytes,
which is more than the next turn takes. -/
theorem encodeLoop_greedy {source : Source} (window : source.PowerWindow)
    (nonNull : source.base ≠ 0) (fits : source.bytes.length < 2147483648) (turns : Nat)
    (encoder : Encoder) (position : Nat) (full group : List (Token Byte)) (unused : List Byte)
    (writing : Writing source encoder position full group unused)
    (more : position < source.bytes.length) (enough : source.bytes.length - position ≤ turns)
    (room : 3 ≤ unused.length) :
    ∃ result, encodeLoop source (source.bytes.length - headerSize - 8) turns encoder = .ok result ∧
      if writtenSize (greedyTokens source.bytes source.windowSize turns position (full ++ group)) + 16 ≥
          source.bytes.length then result = none
      else ∃ final grown left spare, result = some final ∧
        Writing source final source.bytes.length grown left spare ∧
        grown ++ left =
          greedyTokens source.bytes source.windowSize turns position (full ++ group) ∧
        spare <:+ unused := by
  induction turns generalizing encoder position full group unused with
  | zero => omega
  | succ turns inductionHypothesis =>
    have continues : encoder.inputLength > 0 := by
      rw [writing.remaining]
      omega
    obtain ⟨next, token, grown, left, rest, turned, choosable, regrouped, written, wrote, behind⟩ :=
      turn_writing window nonNull fits encoder position full group unused writing more room
    have size : headerSize = 8 := rfl
    have reached : next.pOutput = writtenSize (full ++ group ++ [token]) := by
      rw [written.place, text_length source grown left written.unfinished written.complete, regrouped]
    have limit : next.pOutput ≥ source.bytes.length - headerSize - 8 ↔
        writtenSize (full ++ group ++ [token]) + 16 ≥ source.bytes.length := by
      rw [reached]
      omega
    rw [encodeLoop, if_pos continues, turned, ok_bind]
    obtain rfl := wrote.chosen
    by_cases worse : next.pOutput ≥ source.bytes.length - headerSize - 8
    case pos =>
      refine ⟨none, if_pos worse, ?_⟩
      rw [greedyTokens_abandoned more (limit.mp worse), if_pos (limit.mp worse)]
    case neg =>
      have better := fun beyond => worse (limit.mpr beyond)
      have progressed := choosable.expands.1
      have bounded := written.bounded
      rw [if_neg worse, greedyTokens_continued more better, regrouped]
      generalize (greedyToken source.bytes source.windowSize position).size = step at *
      by_cases further : position + step < source.bytes.length
      case pos =>
        have spare : 3 ≤ rest.length := by
          have capacity := written.capacity
          rw [← written.place, reached] at capacity
          omega
        obtain ⟨result, looped, final⟩ := inductionHypothesis next (position + step) grown left rest
          written further (by omega) spare
        refine ⟨result, looped, ?_⟩
        split_ifs at final ⊢ with beyond
        · exact final
        · obtain ⟨encoder, grown, left, spare, returned, ended, tokens, suffix⟩ := final
          exact ⟨encoder, grown, left, spare, returned, ended, tokens, suffix.trans behind⟩
      case neg =>
        obtain last : position + step = source.bytes.length := by omega
        rw [last] at written ⊢
        refine ⟨some next, encodeLoop_done _ _ written, ?_⟩
        rw [greedyTokens_done, ← regrouped, if_neg better, regrouped]
        exact ⟨next, grown, left, rest, rfl, written, rfl, behind⟩

/-- The two bytes of the terminator are appended. -/
theorem putZeros_text (encoder : Encoder) (text unused : List Byte) (room : 2 ≤ unused.length) :
    ((encoder.withText text unused).put 0 >>= fun encoder => encoder.put 0) =
      .ok (encoder.withText (text ++ [0] ++ [0]) ((unused.drop 1).drop 1)) := by
  rw [put_text _ _ _ _ (by omega), ok_bind, put_text _ _ _ _ (by rw [List.length_drop]; omega)]

/-- Finishing completes the last group with the terminator. -/
theorem finish_writing {source : Source} (encoder : Encoder) (position : Nat)
    (full group : List (Token Byte)) (unused : List Byte)
    (writing : Writing source encoder position full group unused) (room : 3 ≤ unused.length) :
    ∃ (final : Encoder) (rest : List Byte), encoder.finish =
        .ok (final.withText (source.front full ++ pack 0 (group.map tokenItem ++ [terminator])) rest) ∧
      rest <:+ unused ∧
      (source.front full ++ pack 0 (group.map tokenItem ++ [terminator])).length + rest.length =
        source.bytes.length := by
  have capacity := writing.capacity
  have split := withText_self encoder (source.text full group) unused writing.output writing.place
  cases shape : group with
  | nil =>
    rw [shape] at split writing
    have due : encoder.putCmdByte = 0 := writing.phase
    have started := openCommand_text encoder (source.text full []) unused 0x01 (by omega)
    rw [← split] at started
    have last : source.text full [] ++ [0x01] ++ [0] ++ [0] =
        source.front full ++ pack 0 (([] : List (Token Byte)).map tokenItem ++ [terminator]) := by
      simp [Source.text, opened, pack, terminator, command, value, flags]
    rw [shape] at capacity
    refine ⟨{ encoder with pCmdByte := some (source.text full []).length },
      ((unused.drop 1).drop 1).drop 1, ?_, ?_, ?_⟩
    · rw [Encoder.finish, if_pos due, started, ok_bind, ← last]
      exact putZeros_text _ _ _ (by rw [List.length_drop]; omega)
    · rw [List.drop_drop, List.drop_drop]
      exact List.drop_suffix _ unused
    · rw [← last]
      simp only [List.length_append, List.length_singleton, List.length_drop] at capacity ⊢
      omega
  | cons token tokens =>
    have nonempty : group ≠ [] := by
      rw [shape]
      exact List.cons_ne_nil token tokens
    rw [← shape]
    have pointer := writing.command nonempty
    have unfinished := writing.unfinished
    have counted : (group.map tokenItem).length = group.length := List.length_map _
    have waiting : encoder.putCmdByte ≠ 0 := by
      rw [writing.phase]
      exact List.length_pos_iff.mpr nonempty |>.ne'
    have text : source.text full group =
        source.front full ++ progress (group.map tokenItem) :: payloads (group.map tokenItem) := by
      rw [Source.text, shape]
      rfl
    have longer : (group.map tokenItem ++ [terminator]).length ≤ 8 := by
      rw [List.length_append, counted]
      exact unfinished
    have shift : 7 - encoder.putCmdByte = 8 - (group.map tokenItem ++ [terminator]).length := by
      rw [writing.phase, List.length_append, counted, List.length_singleton]
      omega
    have aligned : (progress (group.map tokenItem) >>> 1 ||| 0x80) >>> (7 - encoder.putCmdByte) =
        command (group.map tokenItem ++ [terminator]) := by
      have added := progress_added (group.map tokenItem) terminator (by rw [counted]; exact unfinished)
      rw [shift, ← progress_aligned _ longer, ← added]
      rfl
    have last : source.front full ++
        command (group.map tokenItem ++ [terminator]) :: payloads (group.map tokenItem) ++ [0] ++ [0] =
          source.front full ++ pack 0 (group.map tokenItem ++ [terminator]) := by
      rw [pack_group _ (by simp) longer, payloads_append]
      simp [payloads, terminator]
    have updated := updateCommand_text encoder (source.front full) (payloads (group.map tokenItem))
      unused (progress (group.map tokenItem))
      (fun command => (command >>> 1 ||| 0x80) >>> (7 - encoder.putCmdByte)) pointer
    rw [← text, ← split, aligned] at updated
    refine ⟨encoder, (unused.drop 1).drop 1, ?_, ?_, ?_⟩
    · rw [Encoder.finish, if_neg waiting, updated, ok_bind, ← last]
      exact putZeros_text encoder _ unused (by omega)
    · rw [List.drop_drop]
      exact List.drop_suffix _ unused
    · have same : (progress (group.map tokenItem) :: payloads (group.map tokenItem)).length =
          (command (group.map tokenItem ++ [terminator]) :: payloads (group.map tokenItem)).length := rfl
      rw [← last]
      rw [text, List.length_append, same] at capacity
      simp only [List.length_append, List.length_singleton, List.length_drop] at capacity ⊢
      omega

/-- Finishing writes at most a command byte and the two bytes of the terminator. -/
theorem finished_length (source : Source) (full group : List (Token Byte))
    (unfinished : group.length < 8) :
    (source.front full ++ pack 0 (group.map tokenItem ++ [terminator])).length ≤
      (source.text full group).length + 3 := by
  have longer : (group.map tokenItem ++ [terminator]).length ≤ 8 := by
    rw [List.length_append, List.length_map]
    exact unfinished
  have last : (payloads [terminator]).length = 2 := rfl
  have before := opened_length (group.map tokenItem)
  rw [pack_group _ (by simp) longer, payloads_append, Source.text, List.length_append,
    List.length_append, List.length_cons, List.length_append, last]
  split_ifs at before <;> omega

/-- Finished output is the header and the packed tokens of the whole input, in front of
    untouched cells. The margin that the last test of `pEnd` has left covers what finishing
    writes. -/
theorem finish_packed {source : Source} (encoder : Encoder) (full group : List (Token Byte))
    (unused : List Byte)
    (writing : Writing source encoder source.bytes.length full group unused)
    (margin : 17 ≤ unused.length) :
    ∃ (final : Encoder) (rest : List Byte), encoder.finish =
        .ok (final.withText (packedText source.bytes (full ++ group)) rest) ∧ rest <:+ unused ∧
      (packedText source.bytes (full ++ group)).length + rest.length = source.bytes.length ∧
      (packedText source.bytes (full ++ group)).length + 14 ≤ source.bytes.length := by
  have whole : (0 + (full.map tokenItem).length) % 8 = 0 := by
    rw [Nat.zero_add, List.length_map]
    exact writing.complete
  have packed : source.front full ++ pack 0 (group.map tokenItem ++ [terminator]) =
      packedText source.bytes (full ++ group) := by
    rw [packedText, Source.front, List.map_append, List.append_assoc,
      List.append_assoc (full.map tokenItem), pack_append 0 _ _ (by decide) whole]
  obtain ⟨final, rest, finished, behind, filled⟩ := finish_writing encoder source.bytes.length full
    group unused writing (Nat.le_trans (by decide) margin)
  have bounded := finished_length source full group writing.unfinished
  have before := writing.capacity
  rw [packed] at finished bounded filled
  exact ⟨final, rest, finished, behind, filled, by omega⟩

/-- The header is written to the start of the output buffer. -/
theorem header_written (buffer : List Byte) (actualSize : BitVec 32) (room : headerSize ≤ buffer.length) :
    writeRange buffer 0 (wordBytes lzssId) = .ok (wordBytes lzssId ++ buffer.drop 4) ∧
      writeRange (wordBytes lzssId ++ buffer.drop 4) 4 (wordBytes actualSize) =
        .ok (header actualSize ++ buffer.drop headerSize) := by
  have size : headerSize = 8 := rfl
  have first := writeRange_between [] (buffer.take 4) (wordBytes lzssId) (buffer.drop 4)
    (by rw [List.length_take, wordBytes_length]; omega)
  have second := writeRange_between (wordBytes lzssId) ((buffer.drop 4).take 4) (wordBytes actualSize)
    ((buffer.drop 4).drop 4)
    (by rw [List.length_take, List.length_drop, wordBytes_length]; omega)
  rw [List.nil_append, List.take_append_drop, List.nil_append, List.length_nil] at first
  rw [List.append_assoc, List.take_append_drop, List.drop_drop] at second
  exact ⟨first, second⟩

/-- `CompressNoAlloc` enters its loop with the header written and nothing consumed. -/
theorem entered_writing (source : Source) (rest : List Byte)
    (capacity : headerSize + rest.length = source.bytes.length) :
    Writing source
      (Encoder.entered source (header (BitVec.ofNat 32 source.bytes.length) ++ rest)) 0 [] [] rest := by
  have text : source.text [] [] = header (BitVec.ofNat 32 source.bytes.length) := by
    simp [Source.text, Source.front, opened, pack]
  constructor
  case window => exact cleared_window source
  case lookAhead => rfl
  case remaining => exact (Int.sub_zero _).symm
  case bounded => exact Nat.zero_le _
  case output => rw [text, Encoder.entered]
  case place => rw [text]; rfl
  case capacity => rw [text]; exact capacity
  case phase => rfl
  case unfinished => exact Nat.succ_pos 7
  case complete => rfl
  case command => exact fun nonempty => absurd rfl nonempty
  case expanded => rfl
  case choosable => exact fun token member => absurd member List.not_mem_nil

/-- `CompressNoAlloc` always returns what the greedy parse of the input gives. The tokens
    of a returned text expand to the input, and the text leaves at least fourteen bytes
    of the buffer unused. -/
theorem compressNoAlloc_greedy {source : Source} (window : source.PowerWindow)
    (nonNull : 0 < source.bytes.length → source.base ≠ 0)
    (fits : source.bytes.length < 2147483648) (pOutputBuf : List Byte)
    (allocated : pOutputBuf.length = source.bytes.length) :
    compressNoAlloc source pOutputBuf =
        .ok (greedyCompress source.bytes source.windowSize pOutputBuf) ∧
      ∀ buffer size, greedyCompress source.bytes source.windowSize pOutputBuf =
          some (buffer, size) → ∃ tokens,
        buffer = packedText source.bytes tokens ++ pOutputBuf.drop size ∧
        size = (packedText source.bytes tokens).length ∧
        size + 14 ≤ source.bytes.length ∧
        expand tokens [] = some source.bytes ∧
        ∀ token ∈ tokens, ∃ start, Choosable source start token := by
  by_cases short : source.bytes.length ≤ headerSize + 8
  case pos =>
    rw [compressNoAlloc, greedyCompress, if_pos short, if_pos short]
    exact ⟨rfl, fun buffer size returned => by cases returned⟩
  case neg =>
    have size : headerSize = 8 := rfl
    have room : headerSize ≤ pOutputBuf.length := by omega
    have nonempty : 0 < source.bytes.length := by omega
    have capacity : headerSize + (pOutputBuf.drop headerSize).length = source.bytes.length := by
      rw [List.length_drop]
      omega
    obtain ⟨id, actualSize⟩ := header_written _ (BitVec.ofNat 32 source.bytes.length) room
    obtain ⟨result, looped, final⟩ := encodeLoop_greedy window (nonNull nonempty) fits
      source.bytes.length _ 0 [] [] _ (entered_writing source _ capacity) nonempty (Nat.sub_le _ _)
      (by omega)
    rw [compressNoAlloc, greedyCompress, if_neg short, if_neg short, id, ok_bind, actualSize, ok_bind,
      looped, ok_bind]
    rw [List.append_nil] at final
    by_cases worse : writtenSize (greedyTokens source.bytes source.windowSize source.bytes.length 0
        []) + 16 ≥ source.bytes.length
    case pos =>
      rw [if_pos worse] at final
      rw [final, if_pos worse]
      exact ⟨rfl, fun buffer size returned => by cases returned⟩
    case neg =>
      rw [if_neg worse] at final
      obtain ⟨encoder, full, group, unused, rfl, writing, tokens, behind⟩ := final
      have margin : 17 ≤ unused.length := by
        have filled := writing.capacity
        rw [text_length source full group writing.unfinished writing.complete, tokens] at filled
        omega
      obtain ⟨final, rest, finished, suffix, filled, bounded⟩ :=
        finish_packed encoder full group unused writing margin
      have consumed : ¬ encoder.inputLength ≠ 0 := by
        rw [writing.remaining, Int.sub_self]
        exact not_not_intro rfl
      have untouched : rest = pOutputBuf.drop (packedText source.bytes (full ++ group)).length := by
        have inside := (suffix.trans behind).trans (List.drop_suffix _ _)
        rw [List.suffix_iff_eq_drop.mp inside]
        congr 1
        omega
      have written := writing.expanded
      rw [List.take_length] at written
      rw [if_neg worse, ← tokens]
      dsimp only
      rw [if_neg consumed, finished, ok_bind, untouched]
      refine ⟨rfl, ?_⟩
      rintro buffer size ⟨⟩
      exact ⟨full ++ group, rfl, rfl, bounded, written, writing.choosable⟩

/-- It returns nothing for up to sixteen bytes. A returned buffer holds the header and the
    packed tokens of the whole input with the terminator. -/
theorem compressNoAlloc_written {source : Source} (window : source.PowerWindow)
    (nonNull : 0 < source.bytes.length → source.base ≠ 0)
    (fits : source.bytes.length < 2147483648) (pOutputBuf : List Byte)
    (allocated : pOutputBuf.length = source.bytes.length) :
    ∃ result, compressNoAlloc source pOutputBuf = .ok result ∧
      (source.bytes.length ≤ headerSize + 8 → result = none) ∧
      ∀ buffer size, result = some (buffer, size) → ∃ tokens rest,
        buffer = header (BitVec.ofNat 32 source.bytes.length) ++
          (pack 0 (tokens.map tokenItem ++ [terminator]) ++ rest) ∧
        size + rest.length = buffer.length ∧
        size + 14 ≤ source.bytes.length ∧
        expand tokens [] = some source.bytes ∧
        ∀ token ∈ tokens, ∃ start, Choosable source start token := by
  obtain ⟨returned, reached⟩ := compressNoAlloc_greedy window nonNull fits pOutputBuf allocated
  refine ⟨_, returned, fun short => if_pos short, ?_⟩
  intro buffer size successful
  obtain ⟨tokens, rfl, stated, bounded, expanded, choosable⟩ := reached buffer size successful
  refine ⟨tokens, pOutputBuf.drop size, List.append_assoc _ _ _, ?_, bounded, expanded, choosable⟩
  rw [List.length_append, ← stated]

/-- `Compress` gives it a buffer as long as the input. -/
theorem compress_written {source : Source} (window : source.PowerWindow) (nonNull : source.base ≠ 0)
    (fits : source.bytes.length < 2147483648) (fresh : Nat → Byte) :
    ∃ result, compress source fresh = .ok result ∧
      ∀ buffer size, result = some (buffer, size) → ∃ tokens rest,
        buffer = header (BitVec.ofNat 32 source.bytes.length) ++
          (pack 0 (tokens.map tokenItem ++ [terminator]) ++ rest) ∧
        size + rest.length = buffer.length ∧
        expand tokens [] = some source.bytes ∧
        ∀ token ∈ tokens, ∃ start, Choosable source start token := by
  obtain ⟨result, returned, _, written⟩ := compressNoAlloc_written window (fun _ => nonNull) fits
    (allocate fresh source.bytes.length) (allocate_length fresh source.bytes.length)
  refine ⟨result, returned, ?_⟩
  intro buffer size successful
  obtain ⟨tokens, rest, stored, reported, _, complete⟩ := written buffer size successful
  exact ⟨tokens, rest, stored, reported, complete⟩

end Sniffles.CLZSS
