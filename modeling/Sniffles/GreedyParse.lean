import Sniffles.Foundations.LatestMaxima
import Sniffles.LzssDecoding
import Sniffles.MatchSearch

/-!
# The greedy parse of a text

What the compressor is for can be said without addresses, nodes or lists. At each
position it looks for the longest repetition of up to sixteen bytes that starts
inside the window, takes the nearest one of that length, and writes a reference
if the length is at least three and a literal otherwise. It gives up after the
token with which the output gets within eight bytes of the size of the text
without its header.

The parse depends on the text and the window size only.
-/

namespace Sniffles.CLZSS

open BitSequences BackReferences LatestMaxima

/-- How many bytes from a candidate on agree with those from a position on, inside
    the text and up to the longest length of a reference. -/
def repetition (bytes : List Byte) (position candidate : Nat) : Nat :=
  agreement bytes candidate position (min (bytes.length - position) 16)

/-- The nearest one of the longest repetitions that start inside the window. -/
def nearestLongest (bytes : List Byte) (windowSize position : Nat) : Option Nat :=
  latestMaximum (repetition bytes position) (position - windowSize)
    (position - (position - windowSize))

/-- The token at a position. -/
def greedyToken (bytes : List Byte) (windowSize position : Nat) : Token Byte :=
  match nearestLongest bytes windowSize position with
  | none => .literal (bytes.getD position 0)
  | some candidate =>
    if repetition bytes position candidate ≥ 3 then
      .copy (position - candidate - 1) (repetition bytes position candidate)
    else .literal (bytes.getD position 0)

/-- The size of the header, the payloads and the command bytes of some tokens. -/
def writtenSize (tokens : List (Token Byte)) : Nat :=
  headerSize + (FlaggedGroups.payloads (tokens.map tokenItem)).length + (tokens.length + 7) / 8

/-- The tokens from a position on with the positions at which they start, for at most
    the given number of turns. The last one is that with which the parse gives up or
    reaches the end of the text. -/
def greedyTurns (bytes : List Byte) (windowSize : Nat) :
    Nat → Nat → List (Token Byte) → List (Nat × Token Byte)
  | 0, _, _ => []
  | turns + 1, position, before =>
    if position < bytes.length then
      let token := greedyToken bytes windowSize position
      (position, token) :: if writtenSize (before ++ [token]) + 16 ≥ bytes.length then []
        else greedyTurns bytes windowSize turns (position + token.size) (before ++ [token])
    else []

/-- All tokens of a parse that has reached a position with some tokens before it. -/
def greedyTokens (bytes : List Byte) (windowSize turns position : Nat)
    (before : List (Token Byte)) : List (Token Byte) :=
  before ++ (greedyTurns bytes windowSize turns position before).map Prod.snd

/-- The header and the packed tokens with the terminator. -/
def packedText (bytes : List Byte) (tokens : List (Token Byte)) : List Byte :=
  header (BitVec.ofNat 32 bytes.length) ++ FlaggedGroups.pack 0 (tokens.map tokenItem ++ [terminator])

/-- What compression leaves in an output buffer, and the size of the text in it. -/
def greedyCompress (bytes : List Byte) (windowSize : Nat) (pOutputBuf : List Byte) :
    Option (List Byte × Nat) :=
  let tokens := greedyTokens bytes windowSize bytes.length 0 []
  if bytes.length ≤ headerSize + 8 then none
  else if writtenSize tokens + 16 ≥ bytes.length then none
  else some (packedText bytes tokens ++ pOutputBuf.drop (packedText bytes tokens).length,
    (packedText bytes tokens).length)

/-- A token with which the parse gives up is its last one. -/
theorem greedyTokens_abandoned {bytes : List Byte} {windowSize turns position : Nat}
    {before : List (Token Byte)} (more : position < bytes.length)
    (worse : writtenSize (before ++ [greedyToken bytes windowSize position]) + 16 ≥ bytes.length) :
    greedyTokens bytes windowSize (turns + 1) position before =
      before ++ [greedyToken bytes windowSize position] := by
  rw [greedyTokens, greedyTurns, if_pos more]
  simp only [if_pos worse, List.map_cons, List.map_nil]

/-- Otherwise the parse goes on behind it. -/
theorem greedyTokens_continued {bytes : List Byte} {windowSize turns position : Nat}
    {before : List (Token Byte)} (more : position < bytes.length)
    (better : ¬ writtenSize (before ++ [greedyToken bytes windowSize position]) + 16 ≥ bytes.length) :
    greedyTokens bytes windowSize (turns + 1) position before =
      greedyTokens bytes windowSize turns
        (position + (greedyToken bytes windowSize position).size)
        (before ++ [greedyToken bytes windowSize position]) := by
  rw [greedyTokens, greedyTurns, if_pos more]
  simp only [if_neg better, List.map_cons, greedyTokens, List.append_assoc, List.singleton_append]

/-- At the end of the text no token is added. -/
theorem greedyTokens_done (bytes : List Byte) (windowSize turns : Nat)
    (before : List (Token Byte)) :
    greedyTokens bytes windowSize turns bytes.length before = before := by
  cases turns with
  | zero => exact List.append_nil before
  | succ turns =>
    rw [greedyTokens, greedyTurns, if_neg (Nat.lt_irrefl _)]
    exact List.append_nil before

/-- The nearest longest repetition gives a reference if it is long enough. -/
theorem greedyToken_copy {bytes : List Byte} {windowSize position candidate : Nat}
    (best : LatestMaximum (repetition bytes position) (position - windowSize) position candidate)
    (long : 3 ≤ repetition bytes position candidate) :
    greedyToken bytes windowSize position =
      .copy (position - candidate - 1) (repetition bytes position candidate) := by
  rw [greedyToken, nearestLongest, best.found]
  exact if_pos long

/-- Without a repetition of three bytes there is a literal. -/
theorem greedyToken_literal {bytes : List Byte} {windowSize position : Nat} {symbol : Byte}
    (holds : bytes[position]? = some symbol)
    (short : ∀ candidate, position - windowSize ≤ candidate → candidate < position →
      repetition bytes position candidate < 3) :
    greedyToken bytes windowSize position = .literal symbol := by
  have stored : bytes.getD position 0 = symbol := by
    rw [List.getD_eq_getElem?_getD, holds, Option.getD_some]
  rw [greedyToken, nearestLongest, stored]
  cases width : position - (position - windowSize) with
  | zero => rfl
  | succ count =>
    obtain ⟨candidate, found, best⟩ :=
      latestMaximum_found (repetition bytes position) (position - windowSize) count
    have below := best.below
    rw [found]
    exact if_neg (Nat.not_le_of_lt (short candidate best.above (by omega)))

/-- A token is the nearest longest repetition, or a literal where no three bytes are
    repeated. -/
theorem greedyToken_cases {bytes : List Byte} {windowSize position : Nat} {symbol : Byte}
    (holds : bytes[position]? = some symbol) :
    (∃ candidate,
      LatestMaximum (repetition bytes position) (position - windowSize) position candidate ∧
      3 ≤ repetition bytes position candidate ∧ greedyToken bytes windowSize position =
        .copy (position - candidate - 1) (repetition bytes position candidate)) ∨
    ((∀ candidate, position - windowSize ≤ candidate → candidate < position →
      repetition bytes position candidate < 3) ∧
      greedyToken bytes windowSize position = .literal symbol) := by
  by_cases short : ∀ candidate, position - windowSize ≤ candidate → candidate < position →
    repetition bytes position candidate < 3
  · exact .inr ⟨short, greedyToken_literal holds short⟩
  · push Not at short
    obtain ⟨other, above, below, long⟩ := short
    obtain ⟨count, width⟩ : ∃ count, position = position - windowSize + (count + 1) :=
      ⟨position - (position - windowSize) - 1, by omega⟩
    obtain ⟨candidate, _, best⟩ :=
      latestMaximum_found (repetition bytes position) (position - windowSize) count
    rw [← width] at best
    have longer := Nat.le_trans long (best.greatest other above below)
    exact .inl ⟨candidate, best, longer, greedyToken_copy best longer⟩

/-- A candidate with another first byte repeats nothing. -/
theorem repetition_distinct (bytes : List Byte) (position candidate : Nat) (symbol : Byte)
    (holds : bytes[position]? = some symbol) (distinct : bytes[candidate]? ≠ some symbol) :
    repetition bytes position candidate = 0 := by
  rw [repetition]
  cases min (bytes.length - position) 16 with
  | zero => rfl
  | succ limit => rw [agreement, holds, if_neg distinct]

/-- The walk over the occurrences of the first byte finds the nearest one of the longest
    repetitions, or nothing when no byte is repeated. -/
theorem bestOf_occurrences (source : Source) (position stale : Nat) (symbol : Byte)
    (holds : source.bytes[position]? = some symbol) :
    (bestOf source position (min (source.bytes.length - position) 16)
        (occurrences source.bytes symbol (position - source.windowSize) position) ⟨0, stale⟩ =
          ⟨0, stale⟩ ∧
      ∀ candidate, position - source.windowSize ≤ candidate → candidate < position →
        repetition source.bytes position candidate = 0) ∨
    ∃ candidate, bestOf source position (min (source.bytes.length - position) 16)
        (occurrences source.bytes symbol (position - source.windowSize) position) ⟨0, stale⟩ =
          ⟨repetition source.bytes position candidate, source.base + candidate⟩ ∧
      0 < repetition source.bytes position candidate ∧
      LatestMaximum (repetition source.bytes position) (position - source.windowSize) position
        candidate := by
  have elsewhere (other : Nat) (above : position - source.windowSize ≤ other)
      (below : other < position)
      (absent : other ∉ occurrences source.bytes symbol (position - source.windowSize) position) :
      repetition source.bytes position other = 0 := by
    refine repetition_distinct source.bytes position other symbol holds fun same => absent ?_
    exact (mem_occurrences _ _ _ _ _).mpr ⟨above, below, same⟩
  rcases bestOf_greatest source position (min (source.bytes.length - position) 16)
    (occurrences source.bytes symbol (position - source.windowSize) position) ⟨0, stale⟩
    (occurrences_decreasing _ _ _ _) with ⟨kept, none⟩ | ⟨candidate, member, found, some, most⟩
  · refine .inl ⟨kept, ?_⟩
    intro other above below
    by_cases inside : other ∈ occurrences source.bytes symbol (position - source.windowSize) position
    · exact Nat.le_zero.mp (none other inside)
    · exact elsewhere other above below inside
  · obtain ⟨above, below, _⟩ := (mem_occurrences _ _ _ _ _).mp member
    refine .inr ⟨candidate, found, some, above, below, ?_, ?_⟩
    · intro other low high
      by_cases inside : other ∈ occurrences source.bytes symbol (position - source.windowSize) position
      · exact (most other inside).1
      · rw [elsewhere other low high inside]
        exact Nat.zero_le _
    · intro other later high
      by_cases inside : other ∈ occurrences source.bytes symbol (position - source.windowSize) position
      · exact (most other inside).2 later
      · rw [elsewhere other (by omega) high inside]
        exact some

end Sniffles.CLZSS
