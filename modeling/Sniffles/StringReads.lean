import Sniffles.ReaderRuns

/-!
# Texts of bounded length

`ReadString` consumes characters up to a terminator and keeps as many of them as
the caller has room for. The loop has no bound of its own. Behind the last whole
character the reader answers zero, whatever bits are left over, and zero is a
terminator; so the loop ends on every buffer, and a missing terminator is told
from a stored one by the overflow flag.

The text is therefore a function of the whole characters left: those before the
first terminator. Its length alone decides what is stored, the count and the
result, and comparing it with the number of whole characters decides where the
reader ends.
-/

namespace Sniffles.CBitRead

open BitSequences MachineIntegers

/-- A NUL ends the text, and a newline does if a line is asked for. -/
def ends (bLine : Bool) (char : Byte) : Bool := char = 0#8 || (bLine && char = 0x0A#8)

/-- The characters before the first terminator. -/
def textOf (bLine : Bool) (characters : List Byte) : List Byte :=
  characters.takeWhile (fun char => !ends bLine char)

/-- The whole characters left behind a position. -/
def charactersLeft (memory : Int → Byte) (bytes position : Nat) : List Byte :=
  bytesFrom (bitList memory bytes) position ((8 * bytes - position) / 8)

/-- Where a text of a given length leaves the reader: behind the terminator, or with
    the flag raised if all characters belong to the text. -/
def EndsAfter (memory : Int → Byte) (bytes position length left : Nat) (r : CBitRead) : Prop :=
  if length < left then Ready memory bytes r (position + 8 * (length + 1)) else r.overflow = true

/-- The contract of `ReadString`. The characters before the first terminator are
    stored as far as they fit, with a NUL behind them and nothing elsewhere. A
    terminator among the whole characters left is stepped over even if the text is
    cut, as the reported position shows, and the result says whether it was; without one
    the flag is raised. -/
structure KeepsContract (memory : Int → Byte) (bytes position : Nat) (maxLen : Int)
    (pOutNumChars : Bool) (text : List Byte) (outcome : ReadStringOutcome) : Prop where
  asserted : outcome.asserted = true
  stores : outcome.stores = storedFrom 0 (text.take (maxLen - 1).toNat) ++
    [(((min text.length (maxLen - 1).toNat : Nat) : Int), 0#8)]
  bounded : ∀ store ∈ outcome.stores, 0 ≤ store.1 ∧ store.1 < maxLen
  counted : outcome.outNumChars =
    if pOutNumChars then some ((min text.length (maxLen - 1).toNat : Nat) : Int) else none
  terminated : text.length < (charactersLeft memory bytes position).length →
    Ready memory bytes outcome.reader (position + 8 * (text.length + 1)) ∧
      StandsAt memory bytes outcome.reader (position + 8 * (text.length + 1)) ∧
      (outcome.result = true ↔ (text.length : Int) ≤ maxLen - 1)
  unterminated : ¬ text.length < (charactersLeft memory bytes position).length →
    text = charactersLeft memory bytes position ∧ outcome.reader.overflow = true ∧
      outcome.result = false

/-- A character before the text moves its end by eight bits. -/
theorem EndsAfter.shift {memory : Int → Byte} {bytes position length left : Nat} {r : CBitRead}
    (place : EndsAfter memory bytes (position + 8) length left r) :
    EndsAfter memory bytes position (length + 1) (left + 1) r := by
  have moved : position + 8 + 8 * (length + 1) = position + 8 * (length + 1 + 1) := by ring
  simpa only [EndsAfter, Nat.add_lt_add_iff_right, moved] using place

/-- A character is what is left of an unsigned byte that was sign-extended. -/
theorem readChar_byte (memory : Int → Byte) (r : CBitRead) :
    BitVec.ofInt 8 (r.readChar memory).1 = (r.readUBitLong memory 8).1.setWidth 8 ∧
      (r.readChar memory).2 = (r.readUBitLong memory 8).2 := by
  refine ⟨?_, rfl⟩
  have extended : (r.readChar memory).1 =
      (((r.readUBitLong memory 8).1 <<< 24).sshiftRight 24).toInt := by
    simp only [readChar, readSBitLong, Nat.reduceSub]
  have narrowed (word : BitVec 32) : BitVec.ofInt 8 word.toInt = word.signExtend 8 := by
    rw [BitVec.signExtend]
  rw [extended, narrowed, BitVec.signExtend_eq_setWidth_of_le _ (by decide)]
  apply BitVec.eq_of_getLsbD_eq
  intro index inside
  simp only [BitVec.getLsbD_setWidth, BitVec.getLsbD_sshiftRight, BitVec.getLsbD_shiftLeft]
  have place : 24 + index < 32 := by omega
  have back : 24 + index - 24 = index := by omega
  simp [place, back, inside]
  omega

/-- A whole character is read as the next byte. -/
theorem readChar_within (memory : Int → Byte) (bytes : Nat) (r : CBitRead) (position : Nat)
    (placed : Placed memory bytes r position) (inside : position + 8 ≤ 8 * bytes) :
    BitVec.ofInt 8 (r.readChar memory).1 = byteAt (bitList memory bytes) position ∧
      Ready memory bytes (r.readChar memory).2 (position + 8) := by
  obtain ⟨result, next⟩ := serve_within memory bytes r position
    (.readUBitLong 8 (by decide) (by decide)) (placed.ready (by omega)) inside
  obtain ⟨narrowed, same⟩ := readChar_byte memory r
  rw [narrowed, same]
  refine ⟨?_, next⟩
  have unsigned : (r.readUBitLong memory 8).1.toNat =
      value (window (bitList memory bytes) position 8) := Int.ofNat.inj result
  rw [byteAt, ← unsigned, BitVec.ofNat_toNat]

/-- Where no whole character is left, a NUL is read and the flag raised. -/
theorem readChar_crossing (memory : Int → Byte) (bytes : Nat) (r : CBitRead) (position : Nat)
    (placed : Placed memory bytes r position) (crossing : 8 * bytes < position + 8) :
    BitVec.ofInt 8 (r.readChar memory).1 = 0#8 ∧ (r.readChar memory).2.overflow = true := by
  obtain ⟨zero, beyond⟩ := placed.crossing 8 (by decide) (by decide) crossing
  obtain ⟨narrowed, same⟩ := readChar_byte memory r
  rw [narrowed, same, zero]
  exact ⟨rfl, beyond.flag⟩

/-- One round of the loop, on the character that is read. -/
theorem readStringLoop_round (memory : Int → Byte) (maxLen : Int) (bLine : Bool) (rounds : Nat)
    (iChar : Int) (bTooSmall : Bool) (stores : List (Int × Byte)) (r : CBitRead) (char : Byte)
    (read : BitVec.ofInt 8 (r.readChar memory).1 = char) :
    readStringLoop memory maxLen bLine (rounds + 1) iChar bTooSmall stores r =
      if ends bLine char then some (iChar, bTooSmall, stores, (r.readChar memory).2)
      else if iChar < maxLen - 1 then
        readStringLoop memory maxLen bLine rounds (iChar + 1) bTooSmall (stores ++ [(iChar, char)])
          (r.readChar memory).2
      else readStringLoop memory maxLen bLine rounds iChar true stores (r.readChar memory).2 := by
  rw [readStringLoop]
  simp only [read, ends]
  by_cases nul : char = 0#8
  · simp [nul]
  · by_cases newline : bLine = true ∧ char = 0x0A#8
    · obtain ⟨line, rfl⟩ := newline
      simp [line]
    · have other : ¬ (bLine && decide (char = 0x0A#8)) = true := by
        rwa [Bool.and_eq_true, decide_eq_true_iff]
      simp [nul, newline, other]

/-- The whole loop.

Induct over the whole characters left. A character that belongs to the text is
stored while there is room and dropped otherwise; the rest of the loop then sees
one character less and as much room as remains. Without a whole character left
the round reads a NUL and raises the flag. -/
theorem readStringLoop_spec (memory : Int → Byte) (bytes : Nat) (maxLen : Int) (bLine : Bool)
    (left : Nat) (position : Nat) (r : CBitRead) (placed : Placed memory bytes r position)
    (counted : (8 * bytes - position) / 8 = left) (rounds : Nat) (enough : left < rounds)
    (iChar : Int) (room : Nat) (fits : iChar + room = maxLen - 1) (bTooSmall : Bool)
    (stores : List (Int × Byte)) :
    ∃ behind,
      readStringLoop memory maxLen bLine rounds iChar bTooSmall stores r =
        some (iChar + (min (textOf bLine (bytesFrom (bitList memory bytes) position left)).length
            room : Nat),
          bTooSmall || decide
            (room < (textOf bLine (bytesFrom (bitList memory bytes) position left)).length),
          stores ++ storedFrom iChar
            ((textOf bLine (bytesFrom (bitList memory bytes) position left)).take room),
          behind) ∧
      EndsAfter memory bytes position
        (textOf bLine (bytesFrom (bitList memory bytes) position left)).length left behind := by
  have bound := placed.bound
  induction left generalizing position r rounds iChar room bTooSmall stores with
  | zero =>
    obtain ⟨rounds, rfl⟩ := Nat.exists_eq_succ_of_ne_zero (Nat.ne_of_gt enough)
    obtain ⟨nul, raised⟩ := readChar_crossing memory bytes r position placed (by omega)
    refine ⟨(r.readChar memory).2, ?_, ?_⟩
    · rw [readStringLoop_round memory maxLen bLine rounds iChar bTooSmall stores r _ nul]
      simp [ends, textOf, bytesFrom, storedFrom]
    · simpa [EndsAfter, textOf, bytesFrom] using raised
  | succ left inductionHypothesis =>
    obtain ⟨rounds, rfl⟩ := Nat.exists_eq_succ_of_ne_zero (Nat.ne_of_gt (Nat.zero_lt_of_lt enough))
    obtain ⟨read, next⟩ := readChar_within memory bytes r position placed (by omega)
    rw [readStringLoop_round memory maxLen bLine rounds iChar bTooSmall stores r _ read, bytesFrom]
    by_cases final : ends bLine (byteAt (bitList memory bytes) position) = true
    · refine ⟨(r.readChar memory).2, ?_, ?_⟩
      · simp [final, textOf, storedFrom]
      · simpa [EndsAfter, textOf, final] using next
    · have counted : (8 * bytes - (position + 8)) / 8 = left := by omega
      have more : textOf bLine (byteAt (bitList memory bytes) position ::
          bytesFrom (bitList memory bytes) (position + 8) left) =
          byteAt (bitList memory bytes) position ::
            textOf bLine (bytesFrom (bitList memory bytes) (position + 8) left) := by
        simp [textOf, final]
      rw [more, if_neg final]
      have reached := next.standing.bound
      cases room with
      | zero =>
        have full : ¬ iChar < maxLen - 1 := by omega
        rw [if_neg full]
        obtain ⟨behind, loop, place⟩ := inductionHypothesis (position + 8) _ (.inl next) counted
          rounds (Nat.lt_of_succ_lt_succ enough) iChar 0 fits true stores reached
        refine ⟨behind, ?_, place.shift⟩
        rw [loop]
        simp
      | succ room =>
        have free : iChar < maxLen - 1 := by omega
        rw [if_pos free]
        obtain ⟨behind, loop, place⟩ := inductionHypothesis (position + 8) _ (.inl next) counted
          rounds (Nat.lt_of_succ_lt_succ enough) (iChar + 1) room (by omega) bTooSmall
          (stores ++ [(iChar, byteAt (bitList memory bytes) position)]) reached
        refine ⟨behind, ?_, place.shift⟩
        rw [loop]
        simp [storedFrom]
        omega

/-- A loop that ends within some rounds ends the same way within more. -/
theorem readStringLoop_more (memory : Int → Byte) (maxLen : Int) (bLine : Bool) (rounds more : Nat)
    (iChar : Int) (bTooSmall : Bool) (stores : List (Int × Byte)) (r : CBitRead)
    (outcome : Int × Bool × List (Int × Byte) × CBitRead)
    (ended : readStringLoop memory maxLen bLine rounds iChar bTooSmall stores r = some outcome) :
    readStringLoop memory maxLen bLine (rounds + more) iChar bTooSmall stores r = some outcome := by
  induction rounds generalizing iChar bTooSmall stores r with
  | zero => cases ended
  | succ rounds inductionHypothesis =>
    rw [readStringLoop_round memory maxLen bLine rounds iChar bTooSmall stores r _ rfl] at ended
    rw [Nat.succ_add, readStringLoop_round memory maxLen bLine _ iChar bTooSmall stores r _ rfl]
    split_ifs at ended ⊢ with final free
    · exact ended
    · exact inductionHypothesis _ _ _ _ ended
    · exact inductionHypothesis _ _ _ _ ended

/-- The text is never longer than the characters it is taken from. -/
theorem textOf_length (bLine : Bool) (characters : List Byte) :
    (textOf bLine characters).length ≤ characters.length :=
  (List.takeWhile_sublist _).length_le

/-- A text that leaves no character over is all of them. -/
theorem textOf_all (bLine : Bool) (characters : List Byte)
    (all : ¬ (textOf bLine characters).length < characters.length) :
    textOf bLine characters = characters :=
  (List.takeWhile_sublist _).eq_of_length_le (Nat.le_of_not_lt all)

/-- `ReadString` ends after one round more than there are whole characters left, and
    keeps its contract, for every reader with a clear flag, every length and both
    kinds of text. -/
theorem readString_keeps_contract (memory : Int → Byte) (bytes position : Nat) (r : CBitRead)
    (placed : Placed memory bytes r position) (maxLen : Int) (room : 1 ≤ maxLen)
    (bLine pOutNumChars : Bool) :
    ∃ outcome,
      (∀ rounds, (charactersLeft memory bytes position).length < rounds →
        readString memory rounds r maxLen bLine pOutNumChars = some outcome) ∧
      KeepsContract memory bytes position maxLen pOutNumChars
        (textOf bLine (charactersLeft memory bytes position)) outcome := by
  obtain ⟨behind, loop, place⟩ := readStringLoop_spec memory bytes maxLen bLine
    ((8 * bytes - position) / 8) position r placed rfl ((8 * bytes - position) / 8 + 1)
    (Nat.lt_succ_self _) 0 (maxLen - 1).toNat (by omega) false []
  have left : (charactersLeft memory bytes position).length = (8 * bytes - position) / 8 :=
    bytesFrom_length _ _ _
  have characters : bytesFrom (bitList memory bytes) position ((8 * bytes - position) / 8) =
      charactersLeft memory bytes position := rfl
  rw [characters, ← left] at loop place
  have longest := textOf_length bLine (charactersLeft memory bytes position)
  have all := textOf_all bLine (charactersLeft memory bytes position)
  generalize textOf bLine (charactersLeft memory bytes position) = text at loop place longest all ⊢
  refine ⟨⟨!behind.isOverflowed && !decide ((maxLen - 1).toNat < text.length), true,
    storedFrom 0 (text.take (maxLen - 1).toNat) ++
      [(((min text.length (maxLen - 1).toNat : Nat) : Int), 0#8)],
    if pOutNumChars then some ((min text.length (maxLen - 1).toNat : Nat) : Int) else none,
    behind⟩, ?_, ?_⟩
  · intro rounds enough
    obtain ⟨more, rfl⟩ := Nat.exists_eq_add_of_lt enough
    have longer := readStringLoop_more memory maxLen bLine _ more 0 false [] r _ loop
    have total : (charactersLeft memory bytes position).length + more + 1 =
        (charactersLeft memory bytes position).length + 1 + more := by omega
    have asserted : maxLen ≠ 0 ∧ ((min text.length (maxLen - 1).toNat : Nat) : Int) < maxLen := by
      omega
    rw [readString, total, longer]
    simp [asserted.1]
    omega
  · refine ⟨rfl, rfl, ?_, rfl, ?_, ?_⟩
    · intro store stored
      rcases List.mem_append.mp stored with inText | last
      · obtain ⟨low, high⟩ := storedFrom_bounded 0 _ store inText
        rw [List.length_take] at high
        omega
      · rw [List.mem_singleton.mp last]
        constructor <;> simp only <;> omega
    · intro inside
      rw [EndsAfter, if_pos inside] at place
      refine ⟨place, place.standing.standsAt, ?_⟩
      have clear := place.standing.flag
      simp only [isOverflowed, clear, Bool.not_false, Bool.true_and, Bool.not_eq_true',
        decide_eq_false_iff_not]
      omega
    · intro outside
      rw [EndsAfter, if_neg outside] at place
      exact ⟨all outside, place, by simp [isOverflowed, place]⟩

/-- A five-byte buffer whose bits from the fourth on spell two letters and a NUL. -/
def shiftedLetters (address : Int) : Byte :=
  if address = 0 then 0x40#8 else if address = 1 then 0x4A#8 else if address = 2 then 0x03#8 else 0#8

/-- A reader of that buffer before its fourth bit. -/
def beforeLetters : CBitRead :=
  ((construct shiftedLetters ⟨0, 0, 0, 0, false, false, 0, 0⟩ 5).seek shiftedLetters
    ((3 : Nat) : Int)).2

/-- With room for one letter and the NUL, the text is cut and the reader still ends
    behind its terminator. -/
theorem two_letters_cut :
    ∃ outcome, readString shiftedLetters 5 beforeLetters 2 false true = some outcome ∧
      outcome.stores = [(0, 0x48#8), (1, 0#8)] ∧ outcome.outNumChars = some 1 ∧
      Ready shiftedLetters 5 outcome.reader 27 ∧ ¬ outcome.result = true := by
  have opened := construct_at shiftedLetters ⟨0, 0, 0, 0, false, false, 0, 0⟩ 5 (by decide)
    (by decide)
  have standing := (seek_at shiftedLetters 5 false _ 3 opened.opened opened.flag (by decide)
    (by decide)).2
  have spelled : textOf false (charactersLeft shiftedLetters 5 3) = [0x48#8, 0x69#8] := by
    decide +kernel
  have four : (charactersLeft shiftedLetters 5 3).length = 4 := by decide +kernel
  obtain ⟨outcome, ended, kept⟩ := readString_keeps_contract shiftedLetters 5 3 beforeLetters
    standing.placed 2 (by decide) false true
  rw [spelled] at kept
  obtain ⟨behind, _, judged⟩ := kept.terminated (by rw [four]; decide)
  refine ⟨outcome, ended 5 (by rw [four]; decide), kept.stores, kept.counted, behind, ?_⟩
  rw [judged]
  decide

end Sniffles.CBitRead
