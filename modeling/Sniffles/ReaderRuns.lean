import Sniffles.CursorRefinement

/-!
# Runs of unsigned reads to the end and beyond

A request asks for one bit or for a number of between one and 32 bits. While the
word holds a bit, a single bit and a number of one bit are the same read, so
every request is an unsigned read of its width.

A run passes through three kinds of states. A ready reader stands at a position
with at least one bit in hand. At the end that bit belongs to the fake word. The
first request for more bits than remain leaves the reader beyond the end, where
the word is cleared, the pointer no longer moves and every further request
answers zero. The bits still counted in the cleared word are pushed behind the
end by the balance of pointer and word, and the clamp hides them again.
-/

namespace Sniffles.CBitRead

open BitSequences MachineIntegers

/-- A call of `ReadOneBit` or of `ReadUBitLong` with an admitted width. -/
inductive Request where
  | readOneBit
  | readUBitLong (numbits : Nat) (positive : 1 ≤ numbits) (width : numbits ≤ 32)

/-- The number of bits asked for. -/
def Request.numbits : Request → Nat
  | .readOneBit => 1
  | .readUBitLong numbits _ _ => numbits

/-- Perform a request on the concrete reader. -/
def serve (memory : Int → Byte) (r : CBitRead) : Request → Int × CBitRead
  | .readOneBit => r.readOneBit memory
  | .readUBitLong numbits _ _ => let (word, r) := r.readUBitLong memory numbits; (word.toNat, r)

/-- Perform a sequence of requests, for the state it leads to. -/
def run (memory : Int → Byte) (r : CBitRead) (requests : List Request) : CBitRead :=
  requests.foldl (fun r request => (r.serve memory request).2) r

/-- The number of bits that a sequence asks for. -/
def asked (requests : List Request) : Nat := (requests.map Request.numbits).sum

/-- The word counts between one and 32 bits. -/
def Available (r : CBitRead) : Prop := 1 ≤ r.bitsAvail ∧ r.bitsAvail ≤ 32

/-- A reader with a clear flag and at least one bit in hand, which at the end is
    the bit of the fake word. -/
structure Ready (memory : Int → Byte) (bytes : Nat) (r : CBitRead) (position : Nat) : Prop where
  standing : At memory bytes false r position
  available : Available r

/-- A reader that has been asked for more bits than remained. -/
structure Beyond (bytes : Nat) (r : CBitRead) : Prop where
  opened : Opened bytes r
  flag : r.overflow = true
  pointer : r.dataIn = bytes + 4
  zero : r.inBufWord = 0
  available : Available r

/-- A reader with a clear flag behind the last bit of a buffer shorter than a word,
    with nothing in hand. A seek to the end leads there, and further bits taken one
    at a time only lower the count. -/
structure Overdrawn (bytes : Nat) (r : CBitRead) (position : Nat) : Prop where
  opened : Opened bytes r
  clear : r.overflow = false
  finished : position = 8 * bytes
  pointer : r.dataIn = bytes
  empty : r.bitsAvail ≤ 0

/-- A reader at a position with a clear flag. -/
def Placed (memory : Int → Byte) (bytes : Nat) (r : CBitRead) (position : Nat) : Prop :=
  Ready memory bytes r position ∨ Overdrawn bytes r position

/-- Every request asks for at least one bit. -/
theorem Request.numbits_positive (request : Request) : 1 ≤ request.numbits := by
  cases request with
  | readOneBit => exact Nat.le_refl 1
  | readUBitLong numbits positive width => exact positive

/-- No request asks for more bits than a word has. -/
theorem Request.numbits_width (request : Request) : request.numbits ≤ 32 := by
  cases request with
  | readOneBit => exact (by decide : 1 ≤ 32)
  | readUBitLong numbits positive width => exact width

/-- A request is an unsigned read of its width while a bit is in hand. -/
theorem serve_eq (memory : Int → Byte) (r : CBitRead) (request : Request)
    (available : Available r) :
    r.serve memory request =
      (((r.readUBitLong memory request.numbits).1.toNat : Int),
        (r.readUBitLong memory request.numbits).2) := by
  cases request with
  | readOneBit => exact readOneBit_eq memory r available.1 available.2
  | readUBitLong numbits positive width => rfl

/-- A sequence with one more request is the shorter run followed by it. -/
theorem run_append (memory : Int → Byte) (r : CBitRead) (requests : List Request)
    (request : Request) :
    run memory r (requests ++ [request]) = ((run memory r requests).serve memory request).2 := by
  simp [run]

@[simp] theorem asked_nil : asked [] = 0 := rfl

@[simp] theorem asked_cons (request : Request) (rest : List Request) :
    asked (request :: rest) = request.numbits + asked rest := by
  simp [asked]

@[simp] theorem asked_append (requests : List Request) (request : Request) :
    asked (requests ++ [request]) = asked requests + request.numbits := by
  simp [asked]

@[simp] theorem asked_single_bits (count : Nat) :
    asked (List.replicate count .readOneBit) = count := by
  simp [asked, Request.numbits]

/-- A refill leaves a bit in hand. -/
theorem fetchNext_available (memory : Int → Byte) (r : CBitRead) :
    Available (r.fetchNext memory) := by
  unfold fetchNext grabNextDWord Available
  split
  · simp
  · split <;> simp

/-- A read of more bits than the word holds answers zero where the flag is raised
    already, although the next complete word is loaded and stepped over. -/
theorem readUBitLong_stuck (memory : Int → Byte) (r : CBitRead) (count : Nat)
    (short : r.bitsAvail < count) (raised : r.overflow = true) (before : r.dataIn < r.bufferEnd) :
    r.readUBitLong memory count =
      (0, { r with inBufWord := loadWord memory r.dataIn, dataIn := r.dataIn + 4 }) := by
  have merging : ¬ r.bitsAvail ≥ count := by omega
  simp only [readUBitLong, merging, if_false, grabNextDWord_inside memory r true before, raised,
    if_true]

/-- At the exact end it answers zero, raises the flag and installs the fake word. -/
theorem readUBitLong_finished (memory : Int → Byte) (r : CBitRead) (count : Nat)
    (short : r.bitsAvail < count) (finished : r.dataIn = r.bufferEnd) :
    r.readUBitLong memory count =
      (0, { r with bitsAvail := 1, inBufWord := 0, dataIn := r.dataIn + 4, overflow := true }) := by
  have merging : ¬ r.bitsAvail ≥ count := by omega
  simp only [readUBitLong, merging, if_false, grabNextDWord_end memory r true finished,
    Bool.or_true, if_true]

/-- Beyond the end it answers zero and raises the flag. -/
theorem readUBitLong_past (memory : Int → Byte) (r : CBitRead) (count : Nat)
    (short : r.bitsAvail < count) (past : r.bufferEnd < r.dataIn) :
    r.readUBitLong memory count = (0, { r with overflow := true, inBufWord := 0 }) := by
  have merging : ¬ r.bitsAvail ≥ count := by omega
  simp only [readUBitLong, merging, if_false, grabNextDWord_past memory r true past, if_true]

/-- A cleared word beyond the end answers zero. The flag rises as soon as its
    bits are used up, and only their count changes. -/
theorem readUBitLong_cleared (memory : Int → Byte) (r : CBitRead) (count : Nat)
    (past : r.bufferEnd < r.dataIn) (zero : r.inBufWord = 0) :
    r.readUBitLong memory count = (0, { r with
      bitsAvail := if r.bitsAvail < count then r.bitsAvail
        else if r.bitsAvail = count then 32 else r.bitsAvail - count
      overflow := r.overflow || decide (r.bitsAvail ≤ count) }) := by
  rcases lt_trichotomy r.bitsAvail count with short | emptied | more
  · rw [readUBitLong_past memory r count short past]
    simp [short, Int.le_of_lt short, zero]
  · rw [readUBitLong_emptied memory r count emptied, fetchNext,
      grabNextDWord_past memory { r with bitsAvail := 32 } false past]
    simp [zero, emptied]
  · rw [readUBitLong_held memory r count more]
    have kept : ¬ r.bitsAvail ≤ count := by omega
    have enough : ¬ r.bitsAvail < count := by omega
    have rest : r.bitsAvail ≠ count := by omega
    simp [zero, kept, enough, rest]

/-- An unsigned read leaves a bit in hand, whichever way it ends. -/
theorem readUBitLong_available (memory : Int → Byte) (r : CBitRead) (count : Nat)
    (width : count ≤ 32) (available : Available r) :
    Available (r.readUBitLong memory count).2 := by
  obtain ⟨lower, upper⟩ := available
  rcases lt_trichotomy r.bitsAvail count with short | emptied | more
  · rcases lt_trichotomy r.dataIn r.bufferEnd with before | finished | past
    · cases raised : r.overflow with
      | true =>
        rw [readUBitLong_stuck memory r count short raised before]
        exact ⟨lower, upper⟩
      | false =>
        have positive : 0 ≤ r.bitsAvail := Int.le_of_lt lower
        obtain ⟨avail, counted⟩ := Int.eq_ofNat_of_zero_le positive
        rw [readUBitLong_merged memory r count avail counted (by omega) raised before]
        constructor <;> simp only <;> omega
    · rw [readUBitLong_finished memory r count short finished]
      exact ⟨(by decide : (1 : Int) ≤ 1), (by decide : (1 : Int) ≤ 32)⟩
    · rw [readUBitLong_past memory r count short past]
      exact ⟨lower, upper⟩
  · rw [readUBitLong_emptied memory r count emptied]
    exact fetchNext_available memory _
  · rw [readUBitLong_held memory r count more]
    constructor <;> simp only <;> omega

/-- A request inside the buffer returns the window and leaves the reader ready
    behind it. -/
theorem serve_within (memory : Int → Byte) (bytes : Nat) (r : CBitRead) (position : Nat)
    (request : Request) (ready : Ready memory bytes r position)
    (inside : position + request.numbits ≤ 8 * bytes) :
    (r.serve memory request).1 =
        value (window (bitList memory bytes) position request.numbits) ∧
      Ready memory bytes (r.serve memory request).2 (position + request.numbits) := by
  obtain ⟨standing, available⟩ := ready
  obtain ⟨result, advanced⟩ := readUBitLong_at memory bytes r position request.numbits standing
    request.numbits_positive request.numbits_width inside
  rw [serve_eq memory r request available]
  constructor
  · exact congrArg Int.ofNat result
  · exact ⟨advanced, readUBitLong_available memory r request.numbits request.numbits_width available⟩

/-- The first request for more bits than remain answers zero and leaves the reader
    beyond the end.

Either the bits in hand are too few and the next load meets the end, or they are
the one bit of the fake word, which every request uses up. -/
theorem serve_crossing (memory : Int → Byte) (bytes : Nat) (r : CBitRead) (position : Nat)
    (request : Request) (ready : Ready memory bytes r position)
    (crossing : 8 * bytes < position + request.numbits) :
    (r.serve memory request).1 = 0 ∧ Beyond bytes (r.serve memory request).2 := by
  have kept := readUBitLong_available memory r request.numbits request.numbits_width ready.available
  have positive := request.numbits_positive
  have width := request.numbits_width
  rw [serve_eq memory r request ready.available]
  obtain ⟨⟨opened, flag, loaded | spent⟩, lower, upper⟩ := ready
  · have balance := loaded.balance
    have inside := loaded.inside
    have aligned := loaded.aligned
    have limit := opened.bufferEnd
    have short : r.bitsAvail < request.numbits := by omega
    have finished : r.dataIn = r.bufferEnd := by omega
    rw [readUBitLong_finished memory r request.numbits short finished] at kept ⊢
    refine ⟨rfl, opened.moved .., rfl, ?_, rfl, kept⟩
    exact congrArg (· + 4) (finished.trans limit)
  · obtain ⟨-, pointer, fake, zero⟩ := spent
    have limit := opened.bufferEnd
    have past : r.bufferEnd < r.dataIn := by omega
    have used : r.bitsAvail ≤ request.numbits := by omega
    rw [readUBitLong_cleared memory r request.numbits past zero] at kept ⊢
    refine ⟨rfl, opened.moved .., ?_, pointer,
      zero, kept⟩
    simp [used]

/-- Beyond the end every request answers zero and stays there. -/
theorem serve_beyond (memory : Int → Byte) (bytes : Nat) (r : CBitRead) (request : Request)
    (beyond : Beyond bytes r) :
    (r.serve memory request).1 = 0 ∧ Beyond bytes (r.serve memory request).2 := by
  have kept := readUBitLong_available memory r request.numbits request.numbits_width beyond.available
  rw [serve_eq memory r request beyond.available]
  obtain ⟨opened, flag, pointer, zero, available⟩ := beyond
  have limit := opened.bufferEnd
  have past : r.bufferEnd < r.dataIn := by omega
  rw [readUBitLong_cleared memory r request.numbits past zero] at kept ⊢
  refine ⟨rfl, opened.moved .., ?_, pointer,
    zero, kept⟩
  simp [flag]

/-- A run beyond the end stays there. -/
theorem run_beyond (memory : Int → Byte) (bytes : Nat) (r : CBitRead) (requests : List Request)
    (beyond : Beyond bytes r) : Beyond bytes (run memory r requests) := by
  induction requests generalizing r with
  | nil => exact beyond
  | cons request rest inductionHypothesis =>
    exact inductionHypothesis _ (serve_beyond memory bytes r request beyond).2

/-- A run inside the buffer leaves the reader ready behind all bits asked for. -/
theorem run_within (memory : Int → Byte) (bytes : Nat) (r : CBitRead) (position : Nat)
    (requests : List Request) (ready : Ready memory bytes r position)
    (inside : position + asked requests ≤ 8 * bytes) :
    Ready memory bytes (run memory r requests) (position + asked requests) := by
  induction requests generalizing r position with
  | nil => exact ready
  | cons request rest inductionHypothesis =>
    rw [asked_cons, ← Nat.add_assoc] at inside ⊢
    obtain ⟨-, next⟩ := serve_within memory bytes r position request ready (by omega)
    exact inductionHypothesis _ _ next inside

/-- A run that asks for more bits than remain ends beyond the end. The request
    that crosses it leads there and the others stay. -/
theorem run_crossing (memory : Int → Byte) (bytes : Nat) (r : CBitRead) (position : Nat)
    (requests : List Request) (ready : Ready memory bytes r position)
    (crossing : 8 * bytes < position + asked requests) : Beyond bytes (run memory r requests) := by
  induction requests generalizing r position with
  | nil =>
    have := ready.standing.bound
    rw [asked_nil] at crossing
    omega
  | cons request rest inductionHypothesis =>
    rw [asked_cons, ← Nat.add_assoc] at crossing
    by_cases inside : position + request.numbits ≤ 8 * bytes
    · obtain ⟨-, next⟩ := serve_within memory bytes r position request ready inside
      exact inductionHypothesis _ _ next crossing
    · obtain ⟨-, beyond⟩ := serve_crossing memory bytes r position request ready (by omega)
      exact run_beyond memory bytes _ rest beyond

/-- A standing reader with a clear flag is ready, or has nothing in hand at the end. -/
theorem At.placed {memory : Int → Byte} {bytes : Nat} {r : CBitRead} {position : Nat}
    (standing : At memory bytes false r position) : Placed memory bytes r position := by
  rcases standing.place with loaded | spent
  · have lower := loaded.lower
    have balance := loaded.balance
    by_cases drained : r.bitsAvail = 0
    · have finished := (loaded.drained drained).1
      exact .inr ⟨standing.opened, standing.flag, finished, by omega, by omega⟩
    · exact .inl ⟨standing, by omega, loaded.upper⟩
  · have fake := spent.fake
    exact .inl ⟨standing, by omega, by omega⟩

/-- A placed reader has not passed the last bit. -/
theorem Placed.bound {memory : Int → Byte} {bytes : Nat} {r : CBitRead} {position : Nat}
    (placed : Placed memory bytes r position) : position ≤ 8 * bytes := by
  rcases placed with ready | overdrawn
  · exact ready.standing.bound
  · exact Nat.le_of_eq overdrawn.finished

/-- The flag of a placed reader is clear. -/
theorem Placed.clear {memory : Int → Byte} {bytes : Nat} {r : CBitRead} {position : Nat}
    (placed : Placed memory bytes r position) : r.overflow = false := by
  rcases placed with ready | overdrawn
  · exact ready.standing.flag
  · exact overdrawn.clear

/-- A placed reader is ready wherever bits remain. -/
theorem Placed.ready {memory : Int → Byte} {bytes : Nat} {r : CBitRead} {position : Nat}
    (placed : Placed memory bytes r position) (before : position < 8 * bytes) :
    Ready memory bytes r position := by
  rcases placed with ready | overdrawn
  · exact ready
  · have finished := overdrawn.finished
    omega

/-- A placed reader that is asked for more bits than remain answers zero and is
    beyond the end then. -/
theorem Placed.crossing {memory : Int → Byte} {bytes : Nat} {r : CBitRead} {position : Nat}
    (placed : Placed memory bytes r position) (count : Nat) (positive : 1 ≤ count)
    (width : count ≤ 32) (crossing : 8 * bytes < position + count) :
    (r.readUBitLong memory count).1 = 0 ∧ Beyond bytes (r.readUBitLong memory count).2 := by
  rcases placed with ready | overdrawn
  · obtain ⟨zero, beyond⟩ :=
      serve_crossing memory bytes r position (.readUBitLong count positive width) ready crossing
    exact ⟨BitVec.eq_of_toNat_eq (Int.ofNat.inj zero), beyond⟩
  · obtain ⟨opened, -, -, pointer, empty⟩ := overdrawn
    have short : r.bitsAvail < count := by omega
    rw [readUBitLong_finished memory r count short (pointer.trans opened.bufferEnd.symm)]
    refine ⟨rfl, opened.moved .., rfl, ?_, rfl, ?_⟩
    · exact congrArg (· + 4) pointer
    · exact ⟨(by decide : (1 : Int) ≤ 1), (by decide : (1 : Int) ≤ 32)⟩

/-- Two readers of one buffer that are ready at one position are the same.

Both pointers lie less than a word behind the position on the same word
boundaries, so they agree, and so do the bits in hand and the bits of the word. -/
theorem Ready.unique {memory : Int → Byte} {bytes : Nat} {first second : CBitRead}
    {position : Nat} (one : Ready memory bytes first position)
    (other : Ready memory bytes second position) : first = second := by
  obtain ⟨⟨opened, flag, place⟩, lower, upper⟩ := one
  obtain ⟨⟨opened', flag', place'⟩, lower', upper'⟩ := other
  have members (word : first.inBufWord = second.inBufWord) (avail : first.bitsAvail = second.bitsAvail)
      (pointer : first.dataIn = second.dataIn) : first = second := by
    cases first
    cases second
    simp only [CBitRead.mk.injEq]
    exact ⟨word, avail, pointer, opened.bufferEnd.trans opened'.bufferEnd.symm,
      opened.data.trans opened'.data.symm, flag.trans flag'.symm,
      opened.dataBits.trans opened'.dataBits.symm, opened.dataBytes.trans opened'.dataBytes.symm⟩
  rcases place with loaded | spent <;> rcases place' with loaded' | spent'
  · have pointer : first.dataIn = second.dataIn := by
      have := loaded.balance
      have := loaded'.balance
      have := loaded.aligned
      have := loaded'.aligned
      omega
    have avail : first.bitsAvail = second.bitsAvail := by
      have := loaded.balance
      have := loaded'.balance
      omega
    apply members _ avail pointer
    apply BitVec.eq_of_getLsbD_eq
    intro index _
    rw [loaded.word, loaded'.word, avail]
  · have := loaded.balance
    have := loaded.inside
    have := spent'.finished
    omega
  · have := loaded'.balance
    have := loaded'.inside
    have := spent.finished
    omega
  · exact members (spent.zero.trans spent'.zero.symm) (spent.fake.trans spent'.fake.symm)
      (spent.pointer.trans spent'.pointer.symm)

/-- What a placed reader is asked for is the window, or more than remains. -/
theorem Placed.read {memory : Int → Byte} {bytes : Nat} {r : CBitRead} {position : Nat}
    (placed : Placed memory bytes r position) (count : Nat) (positive : 1 ≤ count)
    (width : count ≤ 32) :
    (position + count ≤ 8 * bytes ∧
        (r.readUBitLong memory count).1.toNat =
          value (window (bitList memory bytes) position count) ∧
        Ready memory bytes (r.readUBitLong memory count).2 (position + count)) ∨
      (8 * bytes < position + count ∧ Beyond bytes (r.readUBitLong memory count).2) := by
  by_cases inside : position + count ≤ 8 * bytes
  · obtain ⟨result, next⟩ := serve_within memory bytes r position
      (.readUBitLong count positive width) (placed.ready (by omega)) inside
    exact .inl ⟨inside, Int.ofNat.inj result, next⟩
  · have crossing : 8 * bytes < position + count := Nat.lt_of_not_le inside
    exact .inr ⟨crossing, (placed.crossing count positive width crossing).2⟩

/-- A standing reader has a bit in hand, at the end in a buffer of at least one word. -/
theorem At.available {memory : Int → Byte} {bytes : Nat} {raised : Bool} {r : CBitRead}
    {position : Nat} (standing : At memory bytes raised r position)
    (room : position < 8 * bytes ∨ 4 ≤ bytes) : Available r := by
  obtain ⟨-, -, loaded | spent⟩ := standing
  · have lower := loaded.lower
    have drained := loaded.drained
    exact ⟨by omega, loaded.upper⟩
  · have fake := spent.fake
    have finished := spent.finished
    exact ⟨by omega, by omega⟩

/-- A seek to a position below the last bit leaves a bit in hand there. At the end
    this takes a buffer of at least one word. -/
theorem seek_ready (memory : Int → Byte) (bytes : Nat) (r : CBitRead) (position : Nat)
    (opened : Opened bytes r) (clear : r.overflow = false) (inside : position ≤ 8 * bytes)
    (room : position < 8 * bytes ∨ 4 ≤ bytes) :
    Ready memory bytes (r.seek memory position).2 position := by
  obtain ⟨-, standing⟩ := seek_at memory bytes false r position opened clear (by omega) inside
  exact ⟨standing, standing.available room⟩

/-- A freshly constructed reader is ready at the first bit. -/
theorem construct_ready (memory : Int → Byte) (storage : CBitRead) (bytes : Nat)
    (nonempty : 1 ≤ bytes) (fits : 8 * bytes < 2147483648) :
    Ready memory bytes (construct memory storage bytes) 0 := by
  have standing := construct_at memory storage bytes nonempty fits
  obtain ⟨loaded, lower⟩ := standing.loaded (by omega)
  exact ⟨standing, lower, loaded.upper⟩

end Sniffles.CBitRead
