import Sniffles.LzssEncoding

/-!
# The turns of a compression

The token loop is described by the encoder before and after each of its turns,
also where it is abandoned in the end. The turns write the tokens of the greedy
parse, one after the other, and before each of them the lists are those that
`BuildHash` makes of the input bytes before the look-ahead.

What `CompressNoAlloc` returns follows from its turns. Each of them adds a byte to
the lists, so none returns without a node in the array.
-/

namespace Sniffles.CLZSS

open BitSequences CheckedMemory BackReferences FlaggedGroups

/-- The encoder before and after each turn of the token loop, the turn after which it is
    abandoned included. -/
def turnsTaken (source : Source) (pEnd : Nat) : Nat → Encoder → Checked (List (Encoder × Encoder))
  | turns, encoder =>
    if encoder.inputLength > 0 then
      match turns with
      | 0 => .error .unfinished
      | turns + 1 => do
        let next ← encoder.turn source
        if next.pOutput ≥ pEnd then .ok [(encoder, next)]
        else do
          let rest ← turnsTaken source pEnd turns next
          .ok ((encoder, next) :: rest)
    else .ok []

/-- What the token loop returns after some turns. -/
def outcome (pEnd : Nat) (encoder : Encoder) (steps : List (Encoder × Encoder)) : Option Encoder :=
  match steps.getLast? with
  | none => some encoder
  | some step => if step.2.pOutput ≥ pEnd then none else some step.2

/-- `CompressNoAlloc` behind its token loop. -/
def afterLoop (reached : Option Encoder) : Checked (Option (List Byte × Nat)) :=
  match reached with
  | none => .ok none
  | some encoder =>
    if encoder.inputLength ≠ 0 then .ok none
    else do
      let encoder ← encoder.finish
      .ok (some (encoder.output, encoder.pOutput))

/-- What `CompressNoAlloc` returns after some turns: nothing without any, since only inputs
    of up to sixteen bytes take none. -/
def afterTurns (source : Source) (steps : List (Encoder × Encoder)) :
    Checked (Option (List Byte × Nat)) :=
  match steps.getLast? with
  | none => .ok none
  | some step =>
    if step.2.pOutput ≥ source.bytes.length - headerSize - 8 then .ok none
    else afterLoop (some step.2)

/-- The turns of `CompressNoAlloc`. -/
def compressTurns (source : Source) (pOutputBuf : List Byte) :
    Checked (List (Encoder × Encoder)) := do
  let inputLength := source.bytes.length
  if inputLength ≤ headerSize + 8 then .ok []
  else
    let output ← writeRange pOutputBuf 0 (wordBytes lzssId)
    let output ← writeRange output 4 (wordBytes (BitVec.ofNat 32 inputLength))
    turnsTaken source (inputLength - headerSize - 8) inputLength (Encoder.entered source output)

/-- Behind a turn that does not abandon the loop the outcome is that of the rest. -/
theorem outcome_cons (pEnd : Nat) (encoder next : Encoder) (rest : List (Encoder × Encoder))
    (better : ¬ next.pOutput ≥ pEnd) :
    outcome pEnd encoder ((encoder, next) :: rest) = outcome pEnd next rest := by
  cases rest with
  | nil => exact if_neg better
  | cons step rest =>
    rw [outcome, outcome, List.getLast?_cons_cons]
    cases last : (step :: rest).getLast? with
    | none => exact absurd last (by simp)
    | some step => rfl

/-- The loop takes exactly these turns.

Induct over the bound: both take the same next turn. -/
theorem encodeLoop_turns (source : Source) (pEnd turns : Nat) (encoder : Encoder) :
    encodeLoop source pEnd turns encoder =
      (turnsTaken source pEnd turns encoder).map (outcome pEnd encoder) := by
  induction turns generalizing encoder with
  | zero =>
    rw [encodeLoop, turnsTaken]
    split <;> rfl
  | succ turns inductionHypothesis =>
    rw [encodeLoop, turnsTaken]
    split
    case isFalse => rfl
    case isTrue =>
      cases encoder.turn source with
      | error fault => rfl
      | ok next =>
        rw [ok_bind, ok_bind, inductionHypothesis]
        by_cases worse : next.pOutput ≥ pEnd
        · rw [if_pos worse, if_pos worse]
          exact congrArg Except.ok (if_pos worse).symm
        · rw [if_neg worse, if_neg worse]
          cases turnsTaken source pEnd turns next with
          | error fault => rfl
          | ok rest => exact congrArg Except.ok (outcome_cons pEnd encoder next rest worse).symm

/-- Each listed turn is one of the loop body.

Induct over the bound. -/
theorem turnsTaken_turn {source : Source} {pEnd turns : Nat} {encoder : Encoder}
    {steps : List (Encoder × Encoder)} (taken : turnsTaken source pEnd turns encoder = .ok steps) :
    ∀ step ∈ steps, step.1.turn source = .ok step.2 := by
  induction turns generalizing encoder steps with
  | zero =>
    rw [turnsTaken] at taken
    split at taken
    · cases taken
    · cases taken
      exact fun step member => absurd member List.not_mem_nil
  | succ turns inductionHypothesis =>
    rw [turnsTaken] at taken
    split at taken
    case isFalse =>
      cases taken
      exact fun step member => absurd member List.not_mem_nil
    case isTrue =>
      obtain ⟨next, turned, taken⟩ := bind_returned taken
      by_cases worse : next.pOutput ≥ pEnd
      · rw [if_pos worse] at taken
        cases taken
        intro step member
        rw [List.mem_singleton.mp member]
        exact turned
      · rw [if_neg worse] at taken
        obtain ⟨rest, later, same⟩ := bind_returned taken
        cases same
        intro step member
        rcases List.mem_cons.mp member with rfl | member
        · exact turned
        · exact inductionHypothesis later step member

/-- An encoder with input left takes a turn, if the loop returns. -/
theorem turnsTaken_first {source : Source} {pEnd turns : Nat} {encoder : Encoder}
    {steps : List (Encoder × Encoder)} (taken : turnsTaken source pEnd turns encoder = .ok steps)
    (more : encoder.inputLength > 0) : ∃ next rest, steps = (encoder, next) :: rest := by
  cases turns with
  | zero =>
    rw [turnsTaken, if_pos more] at taken
    cases taken
  | succ turns =>
    rw [turnsTaken, if_pos more] at taken
    obtain ⟨next, turned, taken⟩ := bind_returned taken
    by_cases worse : next.pOutput ≥ pEnd
    · rw [if_pos worse] at taken
      cases taken
      exact ⟨_, _, rfl⟩
    · rw [if_neg worse] at taken
      obtain ⟨rest, later, same⟩ := bind_returned taken
      cases same
      exact ⟨_, _, rfl⟩

/-- `CompressNoAlloc` takes its turns and returns what follows from them. -/
theorem compressNoAlloc_turns (source : Source) (pOutputBuf : List Byte) :
    compressNoAlloc source pOutputBuf =
      compressTurns source pOutputBuf >>= afterTurns source := by
  rw [compressNoAlloc, compressTurns]
  by_cases short : source.bytes.length ≤ headerSize + 8
  · rw [if_pos short, if_pos short]
    rfl
  · rw [if_neg short, if_neg short]
    cases writeRange pOutputBuf 0 (wordBytes lzssId) with
    | error fault => rfl
    | ok output =>
      rw [ok_bind, ok_bind]
      cases writeRange output 4 (wordBytes (BitVec.ofNat 32 source.bytes.length)) with
      | error fault => rfl
      | ok output =>
        rw [ok_bind, ok_bind, encodeLoop_turns]
        cases taken : turnsTaken source (source.bytes.length - headerSize - 8) source.bytes.length
            (Encoder.entered source output) with
        | error fault => rfl
        | ok steps =>
          have more : (Encoder.entered source output).inputLength > 0 := by
            have long : 0 < source.bytes.length := by omega
            exact Int.natCast_pos.mpr long
          obtain ⟨next, rest, rfl⟩ := turnsTaken_first taken more
          rw [ok_bind, afterTurns]
          cases last : ((Encoder.entered source output, next) :: rest).getLast? with
          | none => exact absurd last (by simp)
          | some step =>
            simp only [Except.map, outcome, last, ok_bind]
            by_cases worse : step.2.pOutput ≥ source.bytes.length - headerSize - 8
            · rw [if_pos worse, if_pos worse]
            · rw [if_neg worse, if_neg worse]
              rfl

/-- A compression that returns has taken its turns. -/
theorem compressTurns_taken {source : Source} {pOutputBuf : List Byte}
    {steps : List (Encoder × Encoder)} (taken : compressTurns source pOutputBuf = .ok steps) :
    compressNoAlloc source pOutputBuf = afterTurns source steps ∧
      ∀ step ∈ steps, step.1.turn source = .ok step.2 := by
  constructor
  · rw [compressNoAlloc_turns, taken, ok_bind]
  · rw [compressTurns] at taken
    by_cases short : source.bytes.length ≤ headerSize + 8
    · rw [if_pos short] at taken
      cases taken
      exact fun step member => absurd member List.not_mem_nil
    · rw [if_neg short] at taken
      obtain ⟨output, _, taken⟩ := bind_returned taken
      obtain ⟨output, _, taken⟩ := bind_returned taken
      exact turnsTaken_turn taken

/-- Writing to the output leaves the lists alone. -/
theorem put_hash {encoder next : Encoder} {byte : Byte} (written : encoder.put byte = .ok next) :
    next.hash = encoder.hash := by
  obtain ⟨output, _, same⟩ := bind_returned written
  cases same
  rfl

theorem updateCommand_hash {encoder next : Encoder} {update : Byte → Byte}
    (written : encoder.updateCommand update = .ok next) : next.hash = encoder.hash := by
  obtain ⟨pCmdByte, _, written⟩ := bind_returned written
  obtain ⟨command, _, written⟩ := bind_returned written
  obtain ⟨output, _, same⟩ := bind_returned written
  cases same
  rfl

theorem beginToken_hash {encoder next : Encoder} (begun : encoder.beginToken = .ok next) :
    next.hash = encoder.hash := by
  rw [Encoder.beginToken] at begun
  by_cases due : encoder.putCmdByte = 0
  · rw [if_pos due] at begun
    obtain ⟨opened, started, same⟩ := bind_returned begun
    obtain ⟨written, stored, pointed⟩ := bind_returned started
    have kept := put_hash stored
    cases pointed
    cases same
    exact kept
  · rw [if_neg due, ok_bind] at begun
    cases begun
    rfl

/-- A token stands for at least one byte, and writing it leaves the lists alone. -/
theorem putToken_hash {source : Source} {encoder next : Encoder} {best : Match} {count : Nat}
    (written : encoder.putToken source best = .ok (next, count)) :
    next.hash = encoder.hash ∧ 0 < count := by
  rw [Encoder.putToken] at written
  by_cases long : best.encodedLength ≥ 3
  · rw [if_pos long] at written
    obtain ⟨first, updated, written⟩ := bind_returned written
    obtain ⟨second, high, written⟩ := bind_returned written
    obtain ⟨third, low, same⟩ := bind_returned written
    cases same
    exact ⟨(put_hash low).trans ((put_hash high).trans (updateCommand_hash updated)), by omega⟩
  · rw [if_neg long] at written
    obtain ⟨first, updated, written⟩ := bind_returned written
    obtain ⟨byte, _, written⟩ := bind_returned written
    obtain ⟨second, stored, same⟩ := bind_returned written
    cases same
    exact ⟨(put_hash stored).trans (updateCommand_hash updated), Nat.one_pos⟩

/-- A turn that returns has found a node for its first byte. -/
theorem turn_nodes {source : Source} {encoder next : Encoder}
    (turned : encoder.turn source = .ok next) : encoder.hash.nodes ≠ 0 := by
  obtain ⟨begun, started, turned⟩ := bind_returned turned
  obtain ⟨symbol, _, turned⟩ := bind_returned turned
  obtain ⟨best, _, turned⟩ := bind_returned turned
  obtain ⟨⟨written, count⟩, token, turned⟩ := bind_returned turned
  obtain ⟨hash, built, _⟩ := bind_returned turned
  obtain ⟨kept, positive⟩ := putToken_hash token
  obtain ⟨rest, rfl⟩ := Nat.exists_eq_add_of_le' positive
  rw [buildHashes] at built
  obtain ⟨middle, added, _⟩ := bind_returned built
  intro absent
  rw [buildHash_unallocated source written.hash written.pLookAhead
    (by rw [kept, beginToken_hash started, absent])] at added
  cases added

/-- A compression that takes turns has nodes. -/
theorem compressTurns_nodes {source : Source} {pOutputBuf : List Byte}
    {steps : List (Encoder × Encoder)} (taken : compressTurns source pOutputBuf = .ok steps)
    (long : headerSize + 8 < source.bytes.length) :
    targetBytes source.windowSize / nodeSize ≠ 0 := by
  rw [compressTurns, if_neg (Nat.not_le_of_lt long)] at taken
  obtain ⟨output, _, taken⟩ := bind_returned taken
  obtain ⟨output, _, taken⟩ := bind_returned taken
  have more : (Encoder.entered source output).inputLength > 0 := by
    have positive : 0 < source.bytes.length := by omega
    exact Int.natCast_pos.mpr positive
  obtain ⟨next, rest, rfl⟩ := turnsTaken_first taken more
  exact turn_nodes (turnsTaken_turn taken _ List.mem_cons_self)

/-- Adding bytes one after the other can be interrupted. -/
theorem buildHashes_add (source : Source) (first second : Nat) (hash : Hash) (pLookAhead : Nat) :
    buildHashes source (first + second) hash pLookAhead =
      (buildHashes source first hash pLookAhead >>= fun middle =>
        buildHashes source second middle (pLookAhead + first)) := by
  induction first generalizing hash pLookAhead with
  | zero => rw [Nat.zero_add]; rfl
  | succ first inductionHypothesis =>
    rw [Nat.succ_add, buildHashes, buildHashes]
    cases buildHash source hash pLookAhead with
    | error fault => rfl
    | ok middle =>
      rw [ok_bind, ok_bind, inductionHypothesis, Nat.add_assoc, Nat.add_comm 1 first]

/-- Of two related lists each entry is related to one of the other list. -/
theorem related_entries {First Second : Type} {relation : First → Second → Prop}
    {firsts : List First} {seconds : List Second} (related : List.Forall₂ relation firsts seconds) :
    (∀ first ∈ firsts, ∃ second ∈ seconds, relation first second) ∧
      ∀ second ∈ seconds, ∃ first ∈ firsts, relation first second := by
  induction related with
  | nil => exact ⟨fun _ member => absurd member List.not_mem_nil,
      fun _ member => absurd member List.not_mem_nil⟩
  | cons here _ inductionHypothesis =>
    obtain ⟨forth, back⟩ := inductionHypothesis
    constructor
    · intro first member
      rcases List.mem_cons.mp member with rfl | member
      · exact ⟨_, List.mem_cons_self, here⟩
      · obtain ⟨second, inside, follows⟩ := forth first member
        exact ⟨second, List.mem_cons_of_mem _ inside, follows⟩
    · intro second member
      rcases List.mem_cons.mp member with rfl | member
      · exact ⟨_, List.mem_cons_self, here⟩
      · obtain ⟨first, inside, follows⟩ := back second member
        exact ⟨first, List.mem_cons_of_mem _ inside, follows⟩

/-- A turn of the loop writes the token of a turn of the parse, over the lists of the
    input before it. -/
def Follows (source : Source) (step : Encoder × Encoder) (turn : Nat × Token Byte) : Prop :=
  Wrote source step.1 step.2 turn.1 turn.2 ∧ turn.1 < source.bytes.length ∧
    buildHashes source turn.1 (Hash.cleared source.windowSize) source.base = .ok step.1.hash

/-- Behind the whole input neither side takes a turn. -/
theorem turnsTaken_done {source : Source} {encoder : Encoder} {full group : List (Token Byte)}
    {unused : List Byte} (pEnd turns : Nat)
    (writing : Writing source encoder source.bytes.length full group unused) :
    turnsTaken source pEnd turns encoder = .ok [] ∧
      greedyTurns source.bytes source.windowSize turns source.bytes.length (full ++ group) = [] := by
  have done : ¬ encoder.inputLength > 0 := by
    rw [writing.remaining, Int.sub_self]
    exact lt_irrefl 0
  cases turns with
  | zero => exact ⟨by rw [turnsTaken, if_neg done], rfl⟩
  | succ turns => exact ⟨by rw [turnsTaken, if_neg done], if_neg (Nat.lt_irrefl _)⟩

/-- The turns of the loop follow those of the greedy parse.

Induct over the bound: each turn consumes input, and both sides give up together. -/
theorem turnsTaken_greedy {source : Source} (window : source.PowerWindow)
    (nonNull : source.base ≠ 0) (fits : source.bytes.length < 2147483648) (turns : Nat)
    (encoder : Encoder) (position : Nat) (full group : List (Token Byte)) (unused : List Byte)
    (writing : Writing source encoder position full group unused)
    (built : buildHashes source position (Hash.cleared source.windowSize) source.base = .ok encoder.hash)
    (enough : source.bytes.length - position ≤ turns) (room : 3 ≤ unused.length) :
    ∃ steps, turnsTaken source (source.bytes.length - headerSize - 8) turns encoder = .ok steps ∧
      List.Forall₂ (Follows source) steps
        (greedyTurns source.bytes source.windowSize turns position (full ++ group)) := by
  induction turns generalizing encoder position full group unused with
  | zero =>
    have bounded := writing.bounded
    obtain rfl : position = source.bytes.length := by omega
    obtain ⟨taken, parsed⟩ := turnsTaken_done (source.bytes.length - headerSize - 8) 0 writing
    exact ⟨[], taken, parsed ▸ .nil⟩
  | succ turns inductionHypothesis =>
    have bounded := writing.bounded
    by_cases more : position < source.bytes.length
    case neg =>
      obtain rfl : position = source.bytes.length := by omega
      obtain ⟨taken, parsed⟩ :=
        turnsTaken_done (source.bytes.length - headerSize - 8) (turns + 1) writing
      exact ⟨[], taken, parsed ▸ .nil⟩
    case pos =>
      have continues : encoder.inputLength > 0 := by
        rw [writing.remaining]
        omega
      obtain ⟨next, token, grown, left, rest, turned, choosable, regrouped, written, wrote, _⟩ :=
        turn_writing window nonNull fits encoder position full group unused writing more room
      have size : headerSize = 8 := rfl
      have reached : next.pOutput = writtenSize (full ++ group ++ [token]) := by
        rw [written.place, text_length source grown left written.unfinished written.complete,
          regrouped]
      have limit : next.pOutput ≥ source.bytes.length - headerSize - 8 ↔
          writtenSize (full ++ group ++ [token]) + 16 ≥ source.bytes.length := by
        rw [reached]
        omega
      have follows : Follows source (encoder, next) (position, token) := ⟨wrote, more, built⟩
      have moved : buildHashes source (position + token.size) (Hash.cleared source.windowSize) source.base =
          .ok next.hash := by
        rw [buildHashes_add, built, ok_bind, wrote.built]
      rw [turnsTaken, if_pos continues, turned, ok_bind, greedyTurns, if_pos more]
      obtain rfl := wrote.chosen
      by_cases worse : next.pOutput ≥ source.bytes.length - headerSize - 8
      case pos =>
        refine ⟨[(encoder, next)], if_pos worse, ?_⟩
        simp only [if_pos (limit.mp worse)]
        exact .cons follows .nil
      case neg =>
        have better := fun beyond => worse (limit.mpr beyond)
        have progressed := choosable.expands.1
        have spare : 3 ≤ rest.length := by
          have capacity := written.capacity
          rw [← written.place, reached] at capacity
          omega
        obtain ⟨steps, taken, follow⟩ := inductionHypothesis next _ grown left rest written moved
          (by omega) spare
        refine ⟨(encoder, next) :: steps, ?_, ?_⟩
        · rw [if_neg worse, taken, ok_bind]
        · rw [← regrouped] at follow
          simp only [if_neg better]
          exact .cons follows follow

/-- The turns of `CompressNoAlloc` follow the greedy parse of its input. -/
theorem compressTurns_greedy {source : Source} (window : source.PowerWindow)
    (nonNull : 0 < source.bytes.length → source.base ≠ 0)
    (fits : source.bytes.length < 2147483648) (pOutputBuf : List Byte)
    (allocated : pOutputBuf.length = source.bytes.length) :
    ∃ steps, compressTurns source pOutputBuf = .ok steps ∧
      List.Forall₂ (Follows source) steps
        (if source.bytes.length ≤ headerSize + 8 then []
          else greedyTurns source.bytes source.windowSize source.bytes.length 0 []) := by
  by_cases short : source.bytes.length ≤ headerSize + 8
  case pos =>
    refine ⟨[], if_pos short, ?_⟩
    rw [if_pos short]
    exact .nil
  case neg =>
    have size : headerSize = 8 := rfl
    have room : headerSize ≤ pOutputBuf.length := by omega
    have capacity : headerSize + (pOutputBuf.drop headerSize).length = source.bytes.length := by
      rw [List.length_drop]
      omega
    obtain ⟨id, actualSize⟩ := header_written _ (BitVec.ofNat 32 source.bytes.length) room
    obtain ⟨steps, taken, follow⟩ := turnsTaken_greedy window (nonNull (by omega)) fits
      source.bytes.length _ 0 [] [] _ (entered_writing source _ capacity) rfl (Nat.sub_le _ _)
      (by omega)
    refine ⟨steps, ?_, ?_⟩
    · rw [compressTurns, if_neg short, id, ok_bind, actualSize, ok_bind, taken]
    · rw [if_neg short]
      exact follow

end Sniffles.CLZSS
