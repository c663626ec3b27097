import Sniffles.SeekEquivalence

/-!
# Readers after any calls

Reads and seeks in any order keep a reader of at least one word framed: a bit is
in hand, and the pointer stands at a word boundary no farther than one word
behind the end. While the flag is clear the reader is even ready at a position.
Once it is raised this may be lost, since a read that lacks bits then loads the
next word without merging it.

The frame alone determines the reported position, which only a pointer behind
the end leaves to the clamp.
-/

namespace Sniffles.CBitRead

open BitSequences MachineIntegers

/-- A bit is in hand and the pointer stands at a word boundary, at most one word
    behind the end and never before the bits in hand. -/
structure Framed (bytes : Nat) (r : CBitRead) : Prop where
  opened : Opened bytes r
  available : Available r
  aligned : r.dataIn % 4 = (bytes : Int) % 4
  covered : r.bitsAvail ≤ 8 * r.dataIn
  high : r.dataIn ≤ bytes + 4

/-- What any calls leave behind. -/
structure Reached (memory : Int → Byte) (bytes : Nat) (r : CBitRead) : Prop where
  framed : Framed bytes r
  ready : r.overflow = false → ∃ position, Ready memory bytes r position

/-- A reader that stands at a position with a bit in hand is framed. -/
theorem At.framed {memory : Int → Byte} {bytes : Nat} {raised : Bool} {r : CBitRead}
    {position : Nat} (standing : At memory bytes raised r position) (available : Available r) :
    Framed bytes r := by
  obtain ⟨opened, -, loaded | spent⟩ := standing
  · have balance := loaded.balance
    have inside := loaded.inside
    have lower := loaded.lower
    exact ⟨opened, available, loaded.aligned, by omega, by omega⟩
  · have pointer := spent.pointer
    have fake := spent.fake
    exact ⟨opened, available, by omega, by omega, by omega⟩

/-- A refill of a framed reader that is not behind the end steps over one word. -/
theorem fetchNext_framed (memory : Int → Byte) (bytes : Nat) (r : CBitRead)
    (opened : Opened bytes r) (aligned : r.dataIn % 4 = (bytes : Int) % 4) (low : 0 ≤ r.dataIn)
    (high : r.dataIn ≤ bytes + 4) : Framed bytes (r.fetchNext memory) := by
  have limit := opened.bufferEnd
  have available := fetchNext_available memory r
  rcases lt_trichotomy r.dataIn r.bufferEnd with before | finished | past
  · rw [fetchNext, grabNextDWord_inside memory { r with bitsAvail := 32 } false before] at available ⊢
    exact ⟨opened.moved .., available,
      by simp only; omega, by simp only; omega, by simp only; omega⟩
  · rw [fetchNext, grabNextDWord_end memory { r with bitsAvail := 32 } false finished] at available ⊢
    exact ⟨opened.moved .., available,
      by simp only; omega, by simp only; omega, by simp only; omega⟩
  · rw [fetchNext, grabNextDWord_past memory { r with bitsAvail := 32 } false past] at available ⊢
    exact ⟨opened.moved .., available, aligned,
      by simp only; omega, high⟩

/-- An unsigned read keeps the frame, whether or not the flag is raised. -/
theorem readUBitLong_framed (memory : Int → Byte) (bytes : Nat) (r : CBitRead) (count : Nat)
    (framed : Framed bytes r) (width : count ≤ 32) :
    Framed bytes (r.readUBitLong memory count).2 := by
  have kept := readUBitLong_available memory r count width framed.available
  obtain ⟨opened, ⟨lower, upper⟩, aligned, covered, high⟩ := framed
  have limit := opened.bufferEnd
  rcases lt_trichotomy r.bitsAvail count with short | emptied | more
  · rcases lt_trichotomy r.dataIn r.bufferEnd with before | finished | past
    · cases raised : r.overflow with
      | true =>
        rw [readUBitLong_stuck memory r count short raised before] at kept ⊢
        exact ⟨opened.moved .., kept,
          by simp only; omega, by simp only; omega, by simp only; omega⟩
      | false =>
        have positive : 0 ≤ r.bitsAvail := by omega
        obtain ⟨avail, counted⟩ := Int.eq_ofNat_of_zero_le positive
        rw [readUBitLong_merged memory r count avail counted (by omega) raised before] at kept ⊢
        exact ⟨opened.moved .., kept,
          by simp only; omega, by simp only; omega, by simp only; omega⟩
    · rw [readUBitLong_finished memory r count short finished] at kept ⊢
      exact ⟨opened.moved .., kept,
        by simp only; omega, by simp only; omega, by simp only; omega⟩
    · rw [readUBitLong_past memory r count short past] at kept ⊢
      exact ⟨opened.moved .., kept, aligned, covered,
        high⟩
  · rw [readUBitLong_emptied memory r count emptied]
    exact fetchNext_framed memory bytes { r with bitsAvail := 0 }
      (opened.moved ..) aligned (by simp only; omega) high
  · rw [readUBitLong_held memory r count more] at kept ⊢
    exact ⟨opened.moved .., kept, aligned,
      by simp only; omega, high⟩

/-- A raised flag stays raised through a refill. -/
theorem fetchNext_sticky (memory : Int → Byte) (r : CBitRead) (raised : r.overflow = true) :
    (r.fetchNext memory).overflow = true := by
  unfold fetchNext grabNextDWord
  split
  · simp [raised]
  · split
    · rfl
    · exact raised

/-- A raised flag stays raised through a read. -/
theorem readUBitLong_sticky (memory : Int → Byte) (r : CBitRead) (count : Nat)
    (raised : r.overflow = true) : (r.readUBitLong memory count).2.overflow = true := by
  rcases lt_trichotomy r.bitsAvail count with short | emptied | more
  · rcases lt_trichotomy r.dataIn r.bufferEnd with before | finished | past
    · rw [readUBitLong_stuck memory r count short raised before]
      exact raised
    · rw [readUBitLong_finished memory r count short finished]
    · rw [readUBitLong_past memory r count short past]
  · rw [readUBitLong_emptied memory r count emptied]
    exact fetchNext_sticky memory { r with bitsAvail := 0 } raised
  · rw [readUBitLong_held memory r count more]
    exact raised

/-- A request is answered by a reader that calls can reach. -/
theorem serve_reached (memory : Int → Byte) (bytes : Nat) (r : CBitRead) (request : Request)
    (reached : Reached memory bytes r) : Reached memory bytes (r.serve memory request).2 := by
  obtain ⟨framed, ready⟩ := reached
  have next := readUBitLong_framed memory bytes r request.numbits framed request.numbits_width
  have served := serve_eq memory r request framed.available
  constructor
  · rw [served]
    exact next
  · intro clear
    cases raised : r.overflow with
    | true =>
      have kept := readUBitLong_sticky memory r request.numbits raised
      rw [served] at clear
      exact absurd (clear.symm.trans kept) (by decide)
    | false =>
      obtain ⟨position, standing⟩ := ready raised
      by_cases inside : position + request.numbits ≤ 8 * bytes
      · exact ⟨_, (serve_within memory bytes r position request standing inside).2⟩
      · have beyond := (serve_crossing memory bytes r position request standing (by omega)).2.flag
        exact absurd (clear.symm.trans beyond) (by decide)

/-- A seek to any target leads to a reader that calls can reach. -/
theorem seek_reached (memory : Int → Byte) (bytes : Nat) (r : CBitRead) (target : Int)
    (opened : Opened bytes r) (large : 4 ≤ bytes) :
    Reached memory bytes (r.seek memory target).2 := by
  by_cases inside : 0 ≤ target ∧ target ≤ 8 * (bytes : Int)
  · obtain ⟨position, rfl⟩ := Int.eq_ofNat_of_zero_le inside.1
    obtain ⟨-, standing⟩ := seek_at memory bytes r.overflow r position opened rfl (by omega) (by omega)
    have available := standing.available (.inr large)
    refine ⟨standing.framed available, fun clear => ⟨position, ?_, available⟩⟩
    rwa [← standing.flag, clear] at standing
  · obtain ⟨-, standing⟩ := seek_refused memory bytes r target opened (by omega) (by omega)
    refine ⟨standing.framed (standing.available (.inr large)), ?_⟩
    intro clear
    exact absurd (clear.symm.trans standing.flag) (by decide)

/-- A freshly constructed reader is one that calls can reach. -/
theorem construct_reached (memory : Int → Byte) (storage : CBitRead) (bytes : Nat)
    (nonempty : 1 ≤ bytes) (fits : 8 * bytes < 2147483648) :
    Reached memory bytes (construct memory storage bytes) := by
  have ready := construct_ready memory storage bytes nonempty fits
  exact ⟨ready.standing.framed ready.available, fun _ => ⟨0, ready⟩⟩

/-- All calls in any order keep what calls leave behind. -/
theorem called_reached (memory : Int → Byte) (bytes : Nat) (r : CBitRead) (calls : List Call)
    (reached : Reached memory bytes r) (large : 4 ≤ bytes) :
    Reached memory bytes (called memory r calls) := by
  induction calls generalizing r with
  | nil => exact reached
  | cons next rest inductionHypothesis =>
    apply inductionHypothesis
    cases next with
    | read request => exact serve_reached memory bytes r request reached
    | seek nPosition => exact seek_reached memory bytes r nPosition reached.framed.opened large

end Sniffles.CBitRead
