import Sniffles.EncoderTurns

/-!
# Exact chains and best matches

A walk along the list of a byte meets exactly the positions of the window that
hold it, the latest first, and the links back run the other way. The search
over such a list therefore finds the longest repetition in the window and the
nearest one of that length. Nothing of this depends on where the input lies in
memory, and neither does the output.

It does depend on the nodes being there. For windows of 2^28 bytes and more the
size of their block wraps to zero, and no byte can be added to the lists.
-/

namespace Sniffles.CLZSS

open BitSequences CheckedMemory LinkedChains BackReferences LatestMaxima

/-- The walk along the list of a byte visits some nodes, which hold the positions from
    `low` to below `high` with that byte, each once and in decreasing order; each node
    names the node before it, and `pEnd` the last one. -/
structure Visited (source : Source) (hash : Hash) (symbol : Byte) (low high : Nat)
    (nodes positions : List Nat) : Prop where
  walked : follow hash.links source.windowSize (hash.table symbol).pStart = some nodes
  addresses : nodes.map (fun node => (hash.target node).pData) = positions.map (source.base + ·)
  decreasing : positions.Pairwise (· > ·)
  exact : ∀ position, position ∈ positions ↔
    low ≤ position ∧ position < high ∧ source.bytes[position]? = some symbol
  inverse : ∀ front node rear, nodes = front ++ node :: rear →
    (hash.target node).pPrev = front.getLast? ∧ (hash.target node).pNext = rear.head?
  last : (hash.table symbol).pEnd = nodes.getLast?

/-- After `BuildHash` of any number of bytes, all lists are exact for the window before
    the next position. -/
def ChainsExact (source : Source) : Prop :=
  ∀ position ≤ source.bytes.length, ∃ hash,
    buildHashes source position (Hash.cleared source.windowSize) source.base = .ok hash ∧
    ∀ symbol, ∃ nodes positions,
      Visited source hash symbol (position - source.windowSize) position nodes positions

/-- Over the lists before a position, the search finds the nearest one of the longest
    repetitions in the window, or that there is none. -/
def SearchesBest (source : Source) : Prop :=
  ∀ position symbol, source.bytes[position]? = some symbol → ∃ hash,
    buildHashes source position (Hash.cleared source.windowSize) source.base = .ok hash ∧
    ∀ stale, ∃ best,
      search source hash (source.base + position) (min (source.bytes.length - position) 16)
        source.windowSize (hash.table symbol).pStart ⟨0, stale⟩ = .ok best ∧
      ((best = ⟨0, stale⟩ ∧ ∀ candidate, position - source.windowSize ≤ candidate →
          candidate < position → repetition source.bytes position candidate = 0) ∨
        ∃ candidate,
          LatestMaximum (repetition source.bytes position) (position - source.windowSize) position
            candidate ∧
          best = ⟨repetition source.bytes position candidate, source.base + candidate⟩)

/-- A turn from a position takes the nearest one of the longest repetitions in the window
    if it has at least three bytes, and one byte otherwise. -/
def TakesBest (source : Source) (before after : Encoder) (position : Nat) : Prop :=
  (∃ candidate,
    LatestMaximum (repetition source.bytes position) (position - source.windowSize) position
      candidate ∧
    3 ≤ repetition source.bytes position candidate ∧
    before.inputLength - after.inputLength = repetition source.bytes position candidate ∧
    after.pEncodedPosition = source.base + candidate) ∨
  ((∀ candidate, position - source.windowSize ≤ candidate → candidate < position →
    repetition source.bytes position candidate < 3) ∧
    before.inputLength - after.inputLength = 1)

/-- A compression takes some turns of its loop body and returns what follows from them.
    Every turn is taken at a position of the input, over the lists of the input before it,
    and takes the best match. -/
def CompressesBest (source : Source) : Prop :=
  ∀ pOutputBuf : List Byte, pOutputBuf.length = source.bytes.length → ∃ steps,
    compressTurns source pOutputBuf = .ok steps ∧
    compressNoAlloc source pOutputBuf = afterTurns source steps ∧ ∀ step ∈ steps,
      step.1.turn source = .ok step.2 ∧ ∃ position,
        position < source.bytes.length ∧ step.1.pLookAhead = source.base + position ∧
        buildHashes source position (Hash.cleared source.windowSize) source.base =
          .ok step.1.hash ∧
        TakesBest source step.1 step.2 position

/-- The input may lie anywhere else in memory. -/
def AddressFree (source : Source) : Prop :=
  ∀ base ≠ 0, ∀ pOutputBuf : List Byte, pOutputBuf.length = source.bytes.length →
    compressNoAlloc { source with base := base } pOutputBuf = compressNoAlloc source pOutputBuf

/-- Represented lists are walked exactly. -/
theorem Window.visited {source : Source} {hash : Hash} {position : Nat}
    (window : Window source hash position) (symbol : Byte) :
    Visited source hash symbol (position - source.windowSize) position
      (source.chain symbol (position - source.windowSize) position)
      (occurrences source.bytes symbol (position - source.windowSize) position) := by
  have represents := window.represents
  have linked := represents.linked symbol
  have few := occurrences_length source.bytes symbol (position - source.windowSize) position
  constructor
  case walked =>
    rw [represents.start symbol]
    refine follow_linked hash.links none _ source.windowSize linked ?_
    rw [Source.chain, List.length_map]
    omega
  case addresses =>
    rw [Source.chain, List.map_map]
    refine List.map_congr_left ?_
    intro live member
    obtain ⟨above, below, _⟩ := (mem_occurrences _ _ _ _ _).mp member
    exact represents.stored live above below
  case decreasing => exact occurrences_decreasing _ _ _ _
  case exact => exact mem_occurrences _ _ _ _
  case inverse =>
    intro front node rear split
    rw [split] at linked
    obtain ⟨back, forth⟩ := linked_between hash.links none front rear node linked
    rw [Option.or_none] at back
    exact ⟨back, forth⟩
  case last => exact represents.last symbol

/-- After `BuildHash` of the first bytes the lists represent the window. -/
theorem buildHashes_cleared {source : Source} (window : source.PowerWindow)
    (nonNull : source.base ≠ 0) (position : Nat) (inside : position ≤ source.bytes.length) :
    ∃ hash, buildHashes source position (Hash.cleared source.windowSize) source.base = .ok hash ∧
      Window source hash position := by
  obtain ⟨hash, built, reached⟩ := buildHashes_window window nonNull position
    (Hash.cleared source.windowSize) 0 (cleared_window source) (by rwa [Nat.zero_add])
  rw [Nat.zero_add] at reached
  exact ⟨hash, built, reached⟩

/-- A turn that follows the greedy parse takes the best match. -/
theorem Follows.takesBest {source : Source} {step : Encoder × Encoder} {turn : Nat × Token Byte}
    (follows : Follows source step turn) : TakesBest source step.1 step.2 turn.1 := by
  obtain ⟨wrote, inside, _⟩ := follows
  have consumed := wrote.consumed
  have distance := wrote.distance
  rw [wrote.chosen] at consumed distance
  have holds := List.getElem?_eq_getElem inside
  rcases @greedyToken_cases source.bytes source.windowSize turn.1 _ holds with
    ⟨candidate, best, long, copied⟩ | ⟨short, literal⟩
  · have below := best.below
    have back := distance _ _ copied
    rw [copied] at consumed
    exact .inl ⟨candidate, best, long, consumed, by omega⟩
  · rw [literal] at consumed
    exact .inr ⟨short, consumed⟩

/-- The lists are exact, the search and every turn of the compressor find the longest
    repetition in the window and the nearest one of that length, and the output does not
    depend on the address. -/
structure ExactAndBest (source : Source) : Prop where
  chains : ChainsExact source
  searches : SearchesBest source
  compresses : CompressesBest source
  addressFree : AddressFree source

/-- With its nodes allocated the compressor is exact and best. -/
theorem exactAndBest_allocated {source : Source} (window : source.PowerWindow)
    (nonNull : source.base ≠ 0) (fits : source.bytes.length < 2147483648) :
    ExactAndBest source := by
  constructor
  case chains =>
    intro position inside
    obtain ⟨hash, built, reached⟩ := buildHashes_cleared window nonNull position inside
    exact ⟨hash, built, fun symbol => ⟨_, _, reached.visited symbol⟩⟩
  case searches =>
    intro position symbol holds
    obtain ⟨inside, _⟩ := List.getElem?_eq_some_iff.mp holds
    obtain ⟨hash, built, reached⟩ := buildHashes_cleared window nonNull position inside.le
    refine ⟨hash, built, ?_⟩
    intro stale
    refine ⟨_, search_window window hash position _ symbol ⟨0, stale⟩ reached (by omega), ?_⟩
    rcases bestOf_occurrences source position stale symbol holds with
      none | ⟨candidate, found, _, best⟩
    · exact .inl none
    · exact .inr ⟨candidate, best, found⟩
  case compresses =>
    intro pOutputBuf allocated
    obtain ⟨steps, taken, follow⟩ := compressTurns_greedy window (fun _ => nonNull) fits pOutputBuf
      allocated
    obtain ⟨returned, turned⟩ := compressTurns_taken taken
    refine ⟨steps, taken, returned, ?_⟩
    intro step member
    obtain ⟨turn, _, follows⟩ := (related_entries follow).1 step member
    exact ⟨turned step member, turn.1, follows.2.1, follows.1.start, follows.2.2,
      follows.takesBest⟩
  case addressFree =>
    intro base present pOutputBuf allocated
    have moved : ({ source with base := base } : Source).PowerWindow := window
    rw [(compressNoAlloc_greedy moved (fun _ => present) fits pOutputBuf allocated).1,
      (compressNoAlloc_greedy window (fun _ => nonNull) fits pOutputBuf allocated).1]

/-- Without input nothing is added and nothing is compressed. -/
theorem exactAndBest_empty {source : Source} (empty : source.bytes = []) : ExactAndBest source := by
  have none : source.bytes.length = 0 := by rw [empty, List.length_nil]
  have short : source.bytes.length ≤ headerSize + 8 := by omega
  have returned (base : Nat) (pOutputBuf : List Byte) :
      compressNoAlloc { source with base := base } pOutputBuf = .ok Option.none := by
    rw [compressNoAlloc]
    exact if_pos short
  constructor
  case chains =>
    intro position inside
    obtain rfl : position = 0 := by omega
    exact ⟨_, rfl, fun symbol => ⟨_, _, (cleared_window source).visited symbol⟩⟩
  case searches =>
    intro position symbol holds
    rw [empty, List.getElem?_nil] at holds
    cases holds
  case compresses =>
    intro pOutputBuf _
    have taken : compressTurns source pOutputBuf = .ok [] := if_pos short
    exact ⟨[], taken, returned source.base pOutputBuf, fun step member =>
      absurd member List.not_mem_nil⟩
  case addressFree =>
    intro base _ pOutputBuf _
    rw [returned base, ← returned source.base pOutputBuf]

/-- Without nodes the first byte cannot be added. -/
theorem chains_unallocated {source : Source} {power : Nat} (size : source.windowSize = 2 ^ power)
    (wide : 268435456 ≤ source.windowSize) (nonempty : source.bytes ≠ []) :
    ¬ ChainsExact source := by
  intro exact
  obtain ⟨hash, built, _⟩ := exact 1 (List.length_pos_iff.mpr nonempty)
  rw [buildHashes, buildHash_unallocated source _ _ (source.unallocated size wide)] at built
  cases built

/-- For every power-of-two window, every address but null and every input, the compressor is
    exact and best exactly when the window is below 2^28 bytes or the input is empty. -/
theorem chains_exact_and_best_iff (source : Source) (power : Nat)
    (size : source.windowSize = 2 ^ power) (nonNull : source.base ≠ 0)
    (fits : source.bytes.length < 2147483648) :
    ExactAndBest source ↔ source.windowSize < 268435456 ∨ source.bytes = [] := by
  constructor
  · intro exactAndBest
    by_contra neither
    obtain ⟨wide, nonempty⟩ := not_or.mp neither
    exact chains_unallocated size (Nat.le_of_not_lt wide) nonempty exactAndBest.chains
  · rintro (narrow | empty)
    · exact exactAndBest_allocated (Source.powerWindow size narrow) nonNull fits
    · exact exactAndBest_empty empty

/-- Thirty-one equal bytes at address 23, in a window of eight bytes. -/
theorem equal_bytes_chains : ExactAndBest ⟨8, 23, List.replicate 31 0x41⟩ :=
  (chains_exact_and_best_iff ⟨8, 23, List.replicate 31 0x41⟩ 3 rfl (by decide) (by decide)).mpr
    (.inl (by decide))

/-- In a window of 2^28 bytes not even one byte is added. -/
theorem single_byte_overrun : ¬ ExactAndBest ⟨268435456, 23, [0x41]⟩ := by
  have size : (Source.mk 268435456 23 [0x41]).windowSize = 2 ^ 28 := by decide
  exact fun exactAndBest => chains_unallocated size (Nat.le_refl _) (List.cons_ne_nil _ _)
    exactAndBest.chains

end Sniffles.CLZSS
