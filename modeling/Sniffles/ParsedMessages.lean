import Sniffles.ParseRefinement

/-!
# The messages of accepted arrays

The loop of a generated parser is at its head or at the code of a field. From either
place the result is that of the records that are still to be read, so a jump to a field
whose tag was expected and a turn through the head of the loop agree. A parser therefore
accepts exactly the arrays that spell a sequence of records, and its message is what the
sequence puts together.
-/

namespace Sniffles.MessageClass

open BitSequences CheckedMemory TaggedRecords RecordLayouts WireFormatLite WireFormat
open CodedInputStream (At before)

variable (generated : MessageClass) (reader : TagReader) {window rest : List Byte}
  {input : CodedInputStream}

/-- Behind a field the parser goes on at the head of the loop, at the code of a field whose
    tag comes next, or ends with the array. -/
theorem expectNext_cases (index : generated.layout.Index) (here : At window input rest) :
    generated.expectNext window index input = .ok (.loop, input) ∨
      (∃ next behind, rest = tagBytes (generated.layout.field next).tag ++ behind ∧
        generated.expectNext window index input =
          .ok (.parse next, before window input behind)) ∨
      (rest = [] ∧ generated.expectNext window index input =
        .ok (.success, { input with lastTag := 0, legitimateMessageEnd := true })) := by
  have last : generated.expectAgain window index input = .ok (false, input) ∨
      ∃ behind, rest = tagBytes (generated.layout.field index).tag ++ behind ∧
        generated.expectAgain window index input = .ok (true, before window input behind) := by
    rw [expectAgain]
    split
    case isTrue => exact here.expectTag_spelled _
    case isFalse => exact .inl rfl
  rw [expectNext]
  rcases last with no | ⟨behind, spelled, yes⟩
  · rw [no, ok_bind]
    dsimp only
    rw [if_neg Bool.false_ne_true]
    rcases nextField generated.layout index with - | next
    · dsimp only
      rw [here.expectAtEnd_iff]
      by_cases ended : rest = []
      · rw [if_pos ended]
        exact .inr (.inr ⟨ended, rfl⟩)
      · rw [if_neg ended]
        exact .inl rfl
    · dsimp only
      rcases here.expectTag_spelled (generated.layout.field next).tag with
        other | ⟨behind, spelled, expected⟩
      · rw [other]
        exact .inl rfl
      · rw [expected]
        exact .inr (.inl ⟨next, behind, spelled, rfl⟩)
  · rw [yes]
    exact .inr (.inl ⟨index, behind, spelled, rfl⟩)

/-- The tag of a field sends the loop to the code of that field. -/
theorem merge_known (turns : Nat) (message : Message generated.layout) {head : List Byte}
    (index : generated.layout.Index) (here : At window input (head ++ rest))
    (spelled : SpellsTag head (generated.layout.field index).tag) :
    generated.mergePartialFromCodedStream reader window (turns + 1) .loop message input =
      generated.mergePartialFromCodedStream reader window turns (.parse index) message
        { before window input rest with lastTag := (generated.layout.field index).tag } := by
  have read := here.readTag_spelled spelled
  have low : reader.known window input generated.cutoff = true := by
    by_contra unknown
    rcases reader.above _ _ _ _ _ read (Bool.eq_false_iff.mpr unknown) with above | zero
    · exact absurd (generated.bounded index) (BitVec.not_le.mpr above)
    · exact spelled.1 zero
  have found : generated.layout.withNumber
      (getTagFieldNumber (generated.layout.field index).tag) = some index :=
    (generated.layout.withNumber_iff _ _).mpr (getTagFieldNumber_makeTag _ _).symm
  rw [mergePartialFromCodedStream, reader.reads, read, ok_bind, ok_bind]
  dsimp only
  rw [low, if_pos rfl, found]
  dsimp only
  rw [if_pos rfl]

/-- Any other tag ends the message or is skipped. -/
theorem merge_unusual (turns : Nat) (message : Message generated.layout) (tag : BitVec 32)
    (behind : CodedInputStream) (read : input.readTag window = .ok (tag, behind))
    (other : generated.layout.withTag tag = none) :
    generated.mergePartialFromCodedStream reader window (turns + 1) .loop message input =
      if tag = 0 ∨ getTagWireType tag = endGroupType then .ok (some message, behind)
      else (do
        let (field, input) ← skipField window turns behind tag
        match field with
        | none => .ok (none, input)
        | some field =>
          generated.mergePartialFromCodedStream reader window turns .loop (message.keep field)
            input) := by
  rw [mergePartialFromCodedStream, reader.reads, read, ok_bind, ok_bind]
  dsimp only
  split
  case isTrue =>
    split
    case h_1 => rfl
    case h_2 index found =>
      exact if_neg fun same => (generated.layout.withTag_none_iff tag).mp other index same.symm
  case isFalse => rfl

/-- The code of a field takes in its record. -/
theorem merge_field (turns : Nat) (message : Message generated.layout) {body : List Byte}
    {record : Record} (index : generated.layout.Index) (here : At window input (body ++ rest))
    (tagged : (generated.layout.field index).tag = record.tag) (held : Holds body record) :
    generated.mergePartialFromCodedStream reader window (turns + 1) (.parse index) message input =
      (do
        let (label, input) ← generated.expectNext window index (before window input rest)
        generated.mergePartialFromCodedStream reader window turns label (message.absorb record)
          input) := by
  obtain ⟨value, carried, read⟩ := readPrimitive_taken here tagged held
  have found := (generated.layout.withTag_iff record.tag index).mpr tagged
  have stored : message.absorb record = message.store index value := by
    rw [Message.absorb, found]
    dsimp only
    rw [carried]
  rw [mergePartialFromCodedStream, read, ok_bind, stored]

/-- The parser returns this message at a proper end. -/
def Parses (window : List Byte) (turns : Nat) (label : Label generated.layout)
    (message : Message generated.layout) (input : CodedInputStream)
    (result : Message generated.layout) : Prop :=
  ∃ behind, generated.mergePartialFromCodedStream reader window turns label message input =
    .ok (some result, behind) ∧ behind.legitimateMessageEnd = true

/-- What the parser does with a sequence of records from the head of its loop, and from the
    code of a field whose tag has been stepped over. -/
def Absorbs (window : List Byte) (records : List Record) : Prop :=
  ∀ bytes, Listed 100 bytes records → ∀ (turns : Nat) (message : Message generated.layout)
    (input : CodedInputStream),
      (At window input bytes → input.recursionDepth = 0 → 2 * bytes.length < turns →
        generated.Parses reader window turns .loop message input (message.absorbAll records)) ∧
      ∀ index behind, bytes = tagBytes (generated.layout.field index).tag ++ behind →
        At window input behind → input.recursionDepth = 0 → 2 * behind.length + 1 < turns →
          generated.Parses reader window turns (.parse index) message input
            (message.absorbAll records)

/-- The code of a field takes in its record, and the parser goes on with the others. -/
theorem field_absorbs {records : List Record} (others : generated.Absorbs reader window records)
    (turns : Nat) (message : Message generated.layout) {body : List Byte} {record : Record}
    (index : generated.layout.Index) (here : At window input (body ++ rest))
    (level : input.recursionDepth = 0) (enough : 2 * rest.length < turns)
    (tagged : (generated.layout.field index).tag = record.tag) (held : Holds body record)
    (listed : Listed 100 rest records) :
    generated.Parses reader window (turns + 1) (.parse index) message input
      ((message.absorb record).absorbAll records) := by
  rw [Parses, generated.merge_field reader turns message index here tagged held]
  rcases generated.expectNext_cases index here.before with
    loop | ⟨next, behind, rfl, jump⟩ | ⟨rfl, ended⟩
  · rw [loop]
    exact (others rest listed turns (message.absorb record) _).1 here.before level enough
  · rw [jump]
    rw [List.length_append] at enough
    have spelled : 0 < (tagBytes (generated.layout.field next).tag).length :=
      Base128.encode_nonempty _
    exact (others _ listed turns (message.absorb record) _).2 next behind rfl here.before.before
      level (by omega)
  · have none := listed.empty
    subst none
    rw [ended]
    refine ⟨{ before window input [] with lastTag := 0, legitimateMessageEnd := true }, ?_, rfl⟩
    cases turns <;> rfl

/-- A group is no field. -/
theorem field_held {depth : Nat} {body : List Byte} {record : Record}
    (index : generated.layout.Index) (tagged : (generated.layout.field index).tag = record.tag)
    (carried : Carries depth body record) : Holds body record := by
  cases record with
  | group number nested =>
    have type := (makeTag_injective tagged).2
    revert type
    cases (generated.layout.field index).kind <;> exact fun type => absurd type (by decide)
  | _ => exact carried

/-- A sequence of records is taken in. Induct over the records; the first one is that of a
    field or is skipped. -/
theorem absorbs (window : List Byte) (records : List Record) :
    generated.Absorbs reader window records := by
  induction records with
  | nil =>
    intro bytes listed turns message input
    cases listed
    constructor
    · intro here level enough
      obtain ⟨turns, rfl⟩ : ∃ before, turns = before + 1 := ⟨turns - 1, by omega⟩
      refine ⟨{ input with lastTag := 0, legitimateMessageEnd := true }, ?_, rfl⟩
      rw [generated.merge_unusual reader turns message 0 _ here.readTag_end
        generated.layout.withTag_zero, if_pos (.inl rfl)]
      rfl
    · intro index behind same
      have spelled : 0 < (tagBytes (generated.layout.field index).tag).length :=
        Base128.encode_nonempty _
      have length := congrArg List.length same
      rw [List.length_nil, List.length_append] at length
      omega
  | cons record records inductionHypothesis =>
    intro bytes listed turns message input
    obtain ⟨head, body, rest, rfl, tagged, carried, others⟩ := listed.uncons
    constructor
    · intro here level enough
      have taken := tagged.nonempty
      simp only [List.length_append] at enough
      obtain ⟨turns, rfl⟩ : ∃ before, turns = before + 1 + 1 := ⟨turns - 2, by omega⟩
      rw [List.append_assoc] at here
      cases found : generated.layout.withTag record.tag with
      | some index =>
        have same := (generated.layout.withTag_iff record.tag index).mp found
        have held := generated.field_held index same carried
        rw [← same] at tagged
        rw [Parses, generated.merge_known reader (turns + 1) message index here tagged]
        exact generated.field_absorbs reader inductionHypothesis turns message index
          (here.before.tagged _) level (by omega) same held others
      | none =>
        have read := here.readTag_spelled tagged
        have ordinary : ¬(record.tag = 0 ∨ getTagWireType record.tag = endGroupType) :=
          not_or.mpr ⟨tagged.1, record_open record⟩
        have there := here.before.tagged record.tag
        obtain ⟨last, skipped⟩ := skipField_taken carried (turns + 1) there (Nat.le_refl 100)
          (by
            show input.recursionDepth = _
            rw [level]
            rfl)
          (by rw [List.length_append]; omega)
        have kept : message.absorb record = message.keep record := by
          rw [Message.absorb, found]
        rw [Parses, generated.merge_unusual reader (turns + 1) message record.tag _ read found,
          if_neg ordinary, skipped, ok_bind]
        dsimp only
        rw [← kept]
        exact (inductionHypothesis rest others (turns + 1) (message.absorb record) _).1
          (there.before.tagged last) level (by omega)
    · intro index behind same here level enough
      have canonical := spellsTag_tagBytes (generated.layout.field index).tag
        (generated.layout.tag_nonzero index)
      have spelling : tagBytes (generated.layout.field index).tag ++ behind = head ++ (body ++ rest) := by
        rw [← same, List.append_assoc]
      obtain ⟨equal, rfl⟩ := canonical.unique tagged spelling
      have held := generated.field_held index equal carried
      rw [List.length_append] at enough
      obtain ⟨turns, rfl⟩ : ∃ before, turns = before + 1 := ⟨turns - 1, by omega⟩
      exact generated.field_absorbs reader inductionHypothesis turns message index here level
        (by omega) equal held others

/-- The bytes in front of a label: the tag of its field, if it is that of one. -/
def Label.Behind {layout : Layout} (head : List Byte) : Label layout → Prop
  | .loop => head = []
  | .parse index => SpellsTag head (layout.field index).tag
  | .success => False

/-- The turns that suffice from a label. -/
def Label.turns {layout : Layout} (length : Nat) : Label layout → Nat
  | .loop => 2 * length
  | .parse _ => 2 * length + 1
  | .success => 0

/-- Everything that the parser can do from a label: it fails, or it returns what some records
    make of the message, and at a proper end the remaining bytes spell those records. -/
def SoundAt (window : List Byte) (turns : Nat) (label : Label generated.layout)
    (message : Message generated.layout) (input : CodedInputStream) (rest : List Byte) : Prop :=
  (∃ behind, generated.mergePartialFromCodedStream reader window turns label message input =
    .ok (none, behind)) ∨
  ∃ records behind, generated.mergePartialFromCodedStream reader window turns label message input =
      .ok (some (message.absorbAll records), behind) ∧
    (behind.legitimateMessageEnd = true → ∀ head, label.Behind head →
      Listed 100 (head ++ rest) records)

def Sound (window : List Byte) (turns : Nat) : Prop :=
  ∀ (label : Label generated.layout) (message : Message generated.layout)
    (input : CodedInputStream) (rest : List Byte), At window input rest →
      input.recursionDepth = 0 → input.legitimateMessageEnd = false →
        label.turns rest.length < turns →
          generated.SoundAt reader window turns label message input rest

/-- One more turn from the code of a field. -/
theorem sound_parse {turns : Nat} (sound : generated.Sound reader window turns)
    (index : generated.layout.Index) (message : Message generated.layout)
    (here : At window input rest) (level : input.recursionDepth = 0)
    (unended : input.legitimateMessageEnd = false) (enough : 2 * rest.length + 1 < turns + 1) :
    generated.SoundAt reader window (turns + 1) (.parse index) message input rest := by
  rcases readPrimitive_sound here (generated.layout.field index).number
    (generated.layout.field index).kind with
      ⟨behind, failed⟩ | ⟨record, body, behind, rfl, tagged, held⟩
  · refine .inl ⟨behind, ?_⟩
    rw [mergePartialFromCodedStream, failed, ok_bind]
  have nonempty := held.nonempty
  rw [List.length_append] at enough
  have joined (records : List Record) (front : List Byte) (listed : Listed 100 behind records)
      (spelled : SpellsTag front (generated.layout.field index).tag) :
      Listed 100 (front ++ (body ++ behind)) (record :: records) := by
    have same : (generated.layout.field index).tag = record.tag := tagged
    rw [same] at spelled
    rw [← List.append_assoc]
    exact .cons spelled (.of_holds held) listed
  have step := generated.merge_field reader turns message index here tagged held
  rcases generated.expectNext_cases index here.before with
    loop | ⟨next, further, rfl, jump⟩ | ⟨rfl, ended⟩
  · rw [loop, ok_bind] at step
    have fewer : 2 * behind.length < turns := by omega
    rcases sound .loop (message.absorb record) _ behind here.before level unended fewer with
      ⟨last, failed⟩ | ⟨records, last, returned, listed⟩
    · exact .inl ⟨last, step.trans failed⟩
    · refine .inr ⟨record :: records, last, step.trans returned, fun legitimate front spelled => ?_⟩
      exact joined records front (listed legitimate [] rfl) spelled
  · rw [jump, ok_bind] at step
    have canonical : 0 < (tagBytes (generated.layout.field next).tag).length :=
      Base128.encode_nonempty _
    rw [List.length_append] at enough
    have fewer : 2 * further.length + 1 < turns := by omega
    rcases sound (.parse next) (message.absorb record) _ further here.before.before level unended
      fewer with ⟨last, failed⟩ | ⟨records, last, returned, listed⟩
    · exact .inl ⟨last, step.trans failed⟩
    · refine .inr ⟨record :: records, last, step.trans returned, fun legitimate front spelled => ?_⟩
      have tail := spellsTag_tagBytes (generated.layout.field next).tag
        (generated.layout.tag_nonzero next)
      exact joined records front (listed legitimate _ tail) spelled
  · rw [ended, ok_bind] at step
    refine .inr ⟨[record], { before window input [] with lastTag := 0, legitimateMessageEnd := true },
      step.trans ?_, fun _ front spelled => joined [] front (.nil 100) spelled⟩
    cases turns <;> rfl

/-- One more turn from the head of the loop. -/
theorem sound_loop {turns : Nat} (sound : generated.Sound reader window turns)
    (message : Message generated.layout) (here : At window input rest)
    (level : input.recursionDepth = 0) (unended : input.legitimateMessageEnd = false)
    (enough : 2 * rest.length < turns + 1) :
    generated.SoundAt reader window (turns + 1) .loop message input rest := by
  rcases readTag_cases here with ⟨behind, read, zero, legitimate⟩ | ⟨head, tag, behind, rfl, spelled, read⟩
  · have ended := generated.merge_unusual reader turns message 0 behind read
      generated.layout.withTag_zero
    rw [if_pos (.inl rfl)] at ended
    refine .inr ⟨[], behind, ended, fun proper front nothing => ?_⟩
    have empty : front = [] := nothing
    rcases legitimate proper with before | rfl
    · rw [unended] at before
      cases before
    · subst empty
      exact .nil 100
  have taken := spelled.nonempty
  rw [List.length_append] at enough
  have there := here.before.tagged tag
  cases found : generated.layout.withTag tag with
  | some index =>
    have same := (generated.layout.withTag_iff tag index).mp found
    subst same
    have step := generated.merge_known reader turns message index here spelled
    have fewer : 2 * behind.length + 1 < turns := by omega
    rcases sound (.parse index) message _ behind there level unended fewer with
      ⟨last, failed⟩ | ⟨records, last, returned, listed⟩
    · exact .inl ⟨last, step.trans failed⟩
    · refine .inr ⟨records, last, step.trans returned, fun legitimate front nothing => ?_⟩
      have empty : front = [] := nothing
      subst empty
      exact listed legitimate head spelled
  | none =>
    have step := generated.merge_unusual reader turns message tag _ read found
    by_cases ending : getTagWireType tag = endGroupType
    · rw [if_pos (.inr ending)] at step
      refine .inr ⟨[], _, step, fun proper => ?_⟩
      have before : input.legitimateMessageEnd = true := proper
      rw [unended] at before
      cases before
    · rw [if_neg (not_or.mpr ⟨spelled.1, ending⟩)] at step
      rcases (skip_sound window turns).1 100 _ behind tag there (Nat.le_refl 100)
        (by
          show input.recursionDepth = _
          rw [level]
          rfl) (by omega) with ⟨last, failed⟩ | ⟨record, body, further, rfl, rfl, carried⟩
      · rw [failed, ok_bind] at step
        exact .inl ⟨last, step⟩
      · rw [List.length_append] at enough
        obtain ⟨last, skipped⟩ := skipField_taken carried turns there (Nat.le_refl 100)
          (by
            show input.recursionDepth = _
            rw [level]
            rfl)
          (by rw [List.length_append]; omega)
        have kept : message.absorb record = message.keep record := by
          rw [Message.absorb, found]
        rw [skipped, ok_bind] at step
        dsimp only at step
        rw [← kept] at step
        have fewer : 2 * further.length < turns := by omega
        rcases sound .loop (message.absorb record) _ further (there.before.tagged last) level unended
          fewer with ⟨final, failed⟩ | ⟨records, final, returned, listed⟩
        · exact .inl ⟨final, step.trans failed⟩
        · refine .inr ⟨record :: records, final, step.trans returned, fun legitimate front nothing => ?_⟩
          have empty : front = [] := nothing
          subst empty
          rw [List.nil_append, ← List.append_assoc]
          exact .cons spelled carried (listed legitimate [] rfl)

/-- Every run of the parser with enough turns. Induct over the turns. -/
theorem sound (window : List Byte) (turns : Nat) : generated.Sound reader window turns := by
  induction turns with
  | zero =>
    intro label message input rest _ _ _ enough
    exact absurd enough (Nat.not_lt_zero _)
  | succ turns inductionHypothesis =>
    intro label message input rest here level unended enough
    cases label with
    | loop => exact generated.sound_loop reader inductionHypothesis message here level unended enough
    | parse index =>
      exact generated.sound_parse reader inductionHypothesis index message here level unended enough
    | success => exact .inr ⟨[], input, rfl, fun _ _ impossible => absurd impossible id⟩

variable (window) (turns : Nat)

/-- An array that spells some records is accepted, and the message is what they put
    together. -/
theorem parse_of_listed {records : List Record} (bounded : window.length ≤ 67108864)
    (enough : 2 * window.length < turns) (listed : Listed 100 window records) :
    generated.parseFromArray reader turns window window.length =
      .ok (some ((Message.empty generated.layout).absorbAll records)) := by
  have here := CodedInputStream.construct_at window bounded
  obtain ⟨behind, returned, proper⟩ := (generated.absorbs reader window records window listed turns
    (Message.empty generated.layout) _).1 here rfl enough
  rw [parseFromArray, returned, ok_bind]
  dsimp only
  rw [CodedInputStream.consumedEntireMessage, if_pos proper]

/-- Any array spells some records or is refused. -/
theorem parse_outcome (bounded : window.length ≤ 67108864) (enough : 2 * window.length < turns) :
    (∃ records, Listed 100 window records) ∨
      generated.parseFromArray reader turns window window.length = .ok none := by
  have here := CodedInputStream.construct_at window bounded
  have uses : Label.turns window.length (.loop : Label generated.layout) < turns := enough
  rcases generated.sound reader window turns .loop (Message.empty generated.layout) _ window here
    rfl rfl uses with ⟨behind, failed⟩ | ⟨records, behind, returned, listed⟩
  · refine .inr ?_
    rw [parseFromArray, failed, ok_bind]
    dsimp only
    rw [ite_self]
  · by_cases proper : behind.legitimateMessageEnd = true
    · exact .inl ⟨records, listed proper [] rfl⟩
    · refine .inr ?_
      rw [parseFromArray, returned, ok_bind]
      dsimp only
      rw [CodedInputStream.consumedEntireMessage, if_neg proper]

/-- A parser with enough turns comes back without a fault. -/
theorem parse_safe (bounded : window.length ≤ 67108864) (enough : 2 * window.length < turns) :
    Safe (generated.parseFromArray reader turns window window.length) := by
  rcases generated.parse_outcome reader window turns bounded enough with ⟨records, listed⟩ | refused
  · exact ⟨_, generated.parse_of_listed reader window turns bounded enough listed⟩
  · exact ⟨none, refused⟩

/-- A parser that returned a message has read the records that it was put together from. -/
theorem parse_listed {message : Message generated.layout} (bounded : window.length ≤ 67108864)
    (enough : 2 * window.length < turns)
    (parsed : generated.parseFromArray reader turns window window.length = .ok (some message)) :
    ∃ records, Listed 100 window records ∧
      message = (Message.empty generated.layout).absorbAll records := by
  rcases generated.parse_outcome reader window turns bounded enough with ⟨records, listed⟩ | refused
  · rw [generated.parse_of_listed reader window turns bounded enough listed] at parsed
    cases parsed
    exact ⟨records, listed, rfl⟩
  · rw [refused] at parsed
    cases parsed

/-- Whatever the paths for numbers, the jumps between fields and the tag reader: a generated
    parser comes back without a fault, and it accepts exactly the arrays that spell a
    sequence of records, with the message that these put together. -/
theorem parseFromArray_exact (generated : MessageClass) (reader : TagReader) (window : List Byte)
    (turns : Nat) (bounded : window.length ≤ 67108864) (enough : 2 * window.length < turns) :
    Safe (generated.parseFromArray reader turns window window.length) ∧
      ∀ message, generated.parseFromArray reader turns window window.length = .ok (some message) ↔
        ∃ records, Listed 100 window records ∧
          message = (Message.empty generated.layout).absorbAll records := by
  refine ⟨generated.parse_safe reader window turns bounded enough, fun message => ⟨?_, ?_⟩⟩
  · exact generated.parse_listed reader window turns bounded enough
  · rintro ⟨records, listed, rfl⟩
    exact generated.parse_of_listed reader window turns bounded enough listed

/-- Two fields and an unknown one, with the cutoff compared on every path. -/
theorem tick_array_exact :
    Safe (CNETMsg_Tick.parseFromArray .plain 15 [0x08, 0x2A, 0x20, 0x80, 0x01, 0x38, 0x07] 7) ∧
      ∀ message, CNETMsg_Tick.parseFromArray .plain 15 [0x08, 0x2A, 0x20, 0x80, 0x01, 0x38, 0x07] 7 =
          .ok (some message) ↔
        ∃ records, Listed 100 [0x08, 0x2A, 0x20, 0x80, 0x01, 0x38, 0x07] records ∧
          message = (Message.empty CNETMsg_Tick.layout).absorbAll records :=
  parseFromArray_exact CNETMsg_Tick .plain [0x08, 0x2A, 0x20, 0x80, 0x01, 0x38, 0x07] 15 (by decide)
    (by decide)

end Sniffles.MessageClass
