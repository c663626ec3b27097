import Sniffles.ReaderRuns

/-!
# When the overflow flag is raised

A run of reads is reported exactly if the flag is set after a read precisely
when the reads so far ask for more bits than the buffer has, and if every read
from then on answers zero and reports the end of the buffer with no bits left.

The flag and the answers are always exact. The reported position is computed
from the pointer behind the fake word and the bits still counted in it, before it
is clamped; what the pointer is ahead must fit an `int`. The bits counted depend
on the widths of the requests behind the end alone: it is one bit after the
request that crosses the end, or a word's worth where that takes just the bit of
the fake word, and later requests take from it in the same way. So in every buffer
with 31 bits to spare all runs are reported exactly, and in every larger one those
are whose requests never leave too few bits counted.
-/

namespace Sniffles.CBitRead

open BitSequences MachineIntegers CursorRefinement

/-- What is promised about the read that follows a run: its answer and the state
    behind it, for the bits asked for up to and including that read. -/
structure ReportedExactly (bytes total : Nat) (answer : Int) (r : CBitRead) : Prop where
  flag : r.isOverflowed = decide (8 * bytes < total)
  zero : 8 * bytes < total → answer = 0
  bitsRead : 8 * bytes < total → r.getNumBitsRead = 8 * bytes
  bitsLeft : 8 * bytes < total → r.getNumBitsLeft = 0

/-- The promise about one more read after a run of a freshly constructed reader. -/
def ReportsOverflow (memory : Int → Byte) (storage : CBitRead) (bytes : Nat)
    (before : List Request) (request : Request) : Prop :=
  let served := (run memory (construct memory storage bytes) before).serve memory request
  ReportedExactly bytes (asked (before ++ [request])) served.1 served.2

/-- Every read of a run is reported exactly. -/
def RunReported (memory : Int → Byte) (storage : CBitRead) (bytes : Nat) (requests : List Request) :
    Prop :=
  ∀ before request, before ++ [request] <+: requests →
    ReportsOverflow memory storage bytes before request

/-- The bits counted in a cleared word behind a request. One that uses them up exactly
    leaves the count of a whole word, and one for more leaves them alone. -/
def leftOver (counted numbits : Nat) : Nat :=
  if counted < numbits then counted else if counted = numbits then 32 else counted - numbits

/-- The bits counted behind a run over the bits left in the buffer. -/
def countedBehind : Nat → Nat → List Request → Nat
  | _, counted, [] => counted
  | left, counted, request :: rest =>
    if request.numbits ≤ left then countedBehind (left - request.numbits) counted rest
    else countedBehind 0 (leftOver counted request.numbits) rest

/-- A run that asks for more bits than a buffer has leaves so many counted that the
    pointer's lead fits an `int`. -/
def EndCounted (bytes : Nat) (requests : List Request) : Prop :=
  8 * bytes < asked requests → 8 * bytes + 32 < 2147483648 + countedBehind (8 * bytes) 1 requests

/-- Beyond the end the pointer is balanced by the bits counted in the cleared word. -/
theorem Beyond.position {bytes : Nat} {r : CBitRead} (beyond : Beyond bytes r)
    (fits : 8 * bytes < 2147483648) :
    r.getNumBitsRead = if int32 (8 * bytes + 32 - r.bitsAvail) < 8 * bytes
      then int32 (8 * bytes + 32 - r.bitsAvail) else 8 * bytes := by
  obtain ⟨opened, -, pointer, -, lower, upper⟩ := beyond
  have balance : 8 * r.dataIn - r.bitsAvail = 8 * bytes + 32 - r.bitsAvail := by
    rw [pointer]
    ring
  rw [← balance]
  apply getNumBitsRead_balance bytes r opened fits
  case word => exact .inr lower
  all_goals omega

/-- A reader beyond the end reports that end exactly if the pointer's lead fits. -/
theorem Beyond.reported_iff {bytes : Nat} {r : CBitRead} (beyond : Beyond bytes r)
    (fits : 8 * bytes < 2147483648) :
    (r.getNumBitsRead = 8 * bytes ∧ r.getNumBitsLeft = 0) ↔
      8 * (bytes : Int) + 32 < 2147483648 + r.bitsAvail := by
  obtain ⟨lower, upper⟩ := beyond.available
  constructor
  · rintro ⟨position, -⟩
    rw [beyond.position fits] at position
    unfold int32 at position
    omega
  · intro room
    have position : r.getNumBitsRead = 8 * bytes := by
      rw [beyond.position fits, int32_of_fits (by omega) (by omega)]
      split
      · omega
      · rfl
    refine ⟨position, ?_⟩
    rw [getNumBitsLeft, tell, position, beyond.opened.dataBits, Int.sub_self]
    rfl

/-- Beyond the end a request takes from the bits counted. -/
theorem serve_beyond_counted (memory : Int → Byte) (bytes : Nat) (r : CBitRead) (request : Request)
    (beyond : Beyond bytes r) (counted : Nat) (has : r.bitsAvail = counted) :
    (r.serve memory request).2.bitsAvail = leftOver counted request.numbits := by
  have limit := beyond.opened.bufferEnd
  have pointer := beyond.pointer
  rw [serve_eq memory r request beyond.available,
    readUBitLong_cleared memory r request.numbits (by omega) beyond.zero]
  simp only [has, leftOver]
  split_ifs <;> omega

/-- The request that crosses the end takes from the one bit of the fake word. -/
theorem serve_crossing_counted (memory : Int → Byte) (bytes : Nat) (r : CBitRead) (position : Nat)
    (request : Request) (ready : Ready memory bytes r position)
    (crossing : 8 * bytes < position + request.numbits) :
    (r.serve memory request).2.bitsAvail = leftOver 1 request.numbits := by
  have width := request.numbits_width
  rw [serve_eq memory r request ready.available]
  obtain ⟨⟨opened, -, loaded | spent⟩, lower, upper⟩ := ready
  · have balance := loaded.balance
    have inside := loaded.inside
    have aligned := loaded.aligned
    have limit := opened.bufferEnd
    have several : 1 < request.numbits := by omega
    rw [readUBitLong_finished memory r request.numbits (by omega) (by omega), leftOver, if_pos several]
    rfl
  · obtain ⟨-, pointer, fake, zero⟩ := spent
    have limit := opened.bufferEnd
    rw [readUBitLong_cleared memory r request.numbits (by omega) zero]
    simp only [fake, leftOver]
    split_ifs <;> omega

/-- The count behind a run that starts beyond the end. -/
theorem run_beyond_counted (memory : Int → Byte) (bytes : Nat) (r : CBitRead)
    (requests : List Request) (beyond : Beyond bytes r) (counted : Nat)
    (has : r.bitsAvail = counted) :
    (run memory r requests).bitsAvail = countedBehind 0 counted requests := by
  induction requests generalizing r counted with
  | nil => exact has
  | cons request rest inductionHypothesis =>
    have positive : ¬ request.numbits ≤ 0 := Nat.not_le_of_lt request.numbits_positive
    rw [countedBehind, if_neg positive]
    exact inductionHypothesis _ (serve_beyond memory bytes r request beyond).2 _
      (serve_beyond_counted memory bytes r request beyond counted has)

/-- The count behind a run that crosses the end.

Induct over the run: requests within the buffer only move the position, and behind
the one that crosses its end the count follows the other requests. -/
theorem run_counted (memory : Int → Byte) (bytes : Nat) (r : CBitRead) (position : Nat)
    (requests : List Request) (ready : Ready memory bytes r position)
    (crossing : 8 * bytes < position + asked requests) :
    (run memory r requests).bitsAvail = countedBehind (8 * bytes - position) 1 requests := by
  have bound := ready.standing.bound
  induction requests generalizing r position with
  | nil =>
    rw [asked_nil] at crossing
    omega
  | cons request rest inductionHypothesis =>
    rw [asked_cons, ← Nat.add_assoc] at crossing
    rw [countedBehind]
    by_cases inside : position + request.numbits ≤ 8 * bytes
    · obtain ⟨-, next⟩ := serve_within memory bytes r position request ready inside
      have within : request.numbits ≤ 8 * bytes - position := by omega
      have left : 8 * bytes - position - request.numbits = 8 * bytes - (position + request.numbits) :=
        Nat.sub_sub _ _ _
      rw [if_pos within, left]
      exact inductionHypothesis _ _ next crossing inside
    · have past : ¬ request.numbits ≤ 8 * bytes - position := by omega
      have crosses : 8 * bytes < position + request.numbits := Nat.lt_of_not_le inside
      rw [if_neg past]
      exact run_beyond_counted memory bytes _ rest
        (serve_crossing memory bytes r position request ready crosses).2 _
        (serve_crossing_counted memory bytes r position request ready crosses)

/-- At least one bit stays counted. -/
theorem countedBehind_positive (left counted : Nat) (requests : List Request) (some : 1 ≤ counted) :
    1 ≤ countedBehind left counted requests := by
  induction requests generalizing left counted with
  | nil => exact some
  | cons request rest inductionHypothesis =>
    rw [countedBehind]
    split_ifs
    · exact inductionHypothesis _ _ some
    · apply inductionHypothesis
      unfold leftOver
      split_ifs <;> omega

/-- Requests within the buffer leave the count to those behind them. -/
theorem countedBehind_within (left counted : Nat) (before rest : List Request)
    (inside : asked before ≤ left) :
    countedBehind left counted (before ++ rest) = countedBehind (left - asked before) counted rest := by
  induction before generalizing left with
  | nil => rfl
  | cons request others inductionHypothesis =>
    rw [asked_cons] at inside ⊢
    rw [List.cons_append, countedBehind, if_pos (by omega), inductionHypothesis _ (by omega),
      Nat.sub_sub]

/-- Where 31 bits fit behind the end, every run leaves enough bits counted. -/
theorem endReported_counted {bytes : Nat} (reportable : EndReported bytes) (requests : List Request) :
    EndCounted bytes requests := by
  intro _
  have positive := countedBehind_positive (8 * bytes) 1 requests (Nat.le_refl 1)
  unfold EndReported at reportable
  omega

/-- No position is reported that an `int` cannot hold. -/
theorem getNumBitsRead_lt (r : CBitRead) : r.getNumBitsRead < 2147483648 := by
  have clamped (total : Int) :
      (if int32 total < r.dataBits then int32 total else r.dataBits) < 2147483648 := by
    have bound := (int32_bounds total).2
    split <;> omega
  unfold getNumBitsRead
  split
  · exact clamped _
  · decide

/-- One more read after any run is reported exactly if and only if the bits counted
    behind it suffice.

The run is either still inside the buffer, and then this read stays inside or is
the first to cross the end, or it has crossed the end before. -/
theorem reports_overflow_iff (memory : Int → Byte) (storage : CBitRead) (bytes : Nat)
    (before : List Request) (request : Request) (nonempty : 1 ≤ bytes)
    (fits : 8 * bytes < 2147483648) :
    ReportsOverflow memory storage bytes before request ↔ EndCounted bytes (before ++ [request]) := by
  have ready := construct_ready memory storage bytes nonempty fits
  by_cases crossing : 8 * bytes < asked (before ++ [request])
  · have behind := run_crossing memory bytes _ 0 (before ++ [request]) ready (by omega)
    have counted := run_counted memory bytes _ 0 (before ++ [request]) ready (by omega)
    have answer : ((run memory (construct memory storage bytes) before).serve memory request).1 = 0 := by
      by_cases inside : asked before ≤ 8 * bytes
      · have reached := run_within memory bytes _ 0 before ready (by omega)
        rw [asked_append] at crossing
        exact (serve_crossing memory bytes _ _ request reached (by omega)).1
      · exact (serve_beyond memory bytes _ request
          (run_crossing memory bytes _ 0 before ready (by omega))).1
    rw [run_append] at behind counted
    have reported := behind.reported_iff fits
    rw [counted, Nat.sub_zero] at reported
    constructor
    · intro exactly _
      have room := reported.mp ⟨exactly.bitsRead crossing, exactly.bitsLeft crossing⟩
      omega
    · intro enough
      have room := enough crossing
      obtain ⟨position, left⟩ := reported.mpr (by omega)
      refine ⟨?_, fun _ => answer, fun _ => position, fun _ => left⟩
      rw [decide_eq_true crossing]
      exact behind.flag
  · have next := run_within memory bytes _ 0 (before ++ [request]) ready (by omega)
    rw [run_append] at next
    refine ⟨fun _ past => absurd past crossing, fun _ => ⟨?_, fun past => absurd past crossing,
      fun past => absurd past crossing, fun past => absurd past crossing⟩⟩
    rw [decide_eq_false crossing]
    exact next.standing.flag

/-- A run over a whole buffer bit by bit and then two more bits leaves the single fake
    bit counted, which is the farthest the pointer can get. -/
theorem two_bits_misreported (memory : Int → Byte) (storage : CBitRead) (bytes : Nat)
    (nonempty : 1 ≤ bytes) (fits : 8 * bytes < 2147483648) (tight : ¬ EndReported bytes) :
    ¬ ReportsOverflow memory storage bytes (List.replicate (8 * bytes) .readOneBit)
      (.readUBitLong 2 (by decide) (by decide)) := by
  rw [reports_overflow_iff memory storage bytes _ _ nonempty fits]
  intro enough
  have room := enough (by simp [Request.numbits])
  rw [countedBehind_within _ _ _ _ (by rw [asked_single_bits]), asked_single_bits, Nat.sub_self] at room
  have single : countedBehind 0 1 [.readUBitLong 2 (by decide) (by decide)] = 1 := rfl
  unfold EndReported at tight
  omega

/-- A run over a buffer whose bit count fits an `int` is reported exactly if and only if
    each of its parts that crosses the end leaves enough bits counted; every run over
    every buffer of a size is, if and only if 31 bits behind its end still fit. -/
theorem overflow_reported_exactly_iff (bytes : Nat) (nonempty : 1 ≤ bytes) :
    (8 * bytes < 2147483648 → ∀ (memory : Int → Byte) (storage : CBitRead) (requests : List Request),
      RunReported memory storage bytes requests ↔
        ∀ before request, before ++ [request] <+: requests → EndCounted bytes (before ++ [request])) ∧
      ((∀ (memory : Int → Byte) (storage : CBitRead) (requests : List Request),
        RunReported memory storage bytes requests) ↔ EndReported bytes) := by
  refine ⟨?_, ?_, ?_⟩
  · intro fits memory storage requests
    apply forall_congr'
    intro before
    apply forall_congr'
    intro request
    apply imp_congr_right
    intro _
    exact reports_overflow_iff memory storage bytes before request nonempty fits
  · intro promised
    by_contra tight
    by_cases fits : 8 * bytes < 2147483648
    · exact two_bits_misreported (fun _ => 0) ⟨0, 0, 0, 0, false, false, 0, 0⟩ bytes nonempty fits
        tight (promised _ _ _ _ _ (List.prefix_refl _))
    · have past := promised (fun _ => 0) ⟨0, 0, 0, 0, false, false, 0, 0⟩ _
        (List.replicate (8 * bytes) .readOneBit) .readOneBit (List.prefix_refl _)
      have position := past.bitsRead (by simp [Request.numbits])
      have bound := getNumBitsRead_lt (serve (fun _ => 0) (run (fun _ => 0)
        (construct (fun _ => 0) ⟨0, 0, 0, 0, false, false, 0, 0⟩ bytes)
        (List.replicate (8 * bytes) .readOneBit)) .readOneBit).2
      omega
  · intro reportable memory storage requests before request _
    have fits : 8 * bytes < 2147483648 := by
      unfold EndReported at reportable
      omega
    exact (reports_overflow_iff memory storage bytes before request nonempty fits).mpr
      (endReported_counted reportable _)

/-- A run over three bytes that reads twenty bits and then asks for five more is
    reported exactly. -/
theorem three_bytes_reported :
    RunReported (fun _ => 0xA5#8) ⟨0, 0, 0, 0, false, false, 0, 0⟩ 3
      [.readUBitLong 20 (by decide) (by decide), .readUBitLong 5 (by decide) (by decide)] := by
  have small : EndReported 3 := by
    unfold EndReported
    decide
  apply ((overflow_reported_exactly_iff 3 (by decide)).1 (by decide) _ _ _).mpr
  intro before request _
  exact endReported_counted small _

/-- The largest buffer whose bit count fits an `int` misreports the position
    behind its end. -/
theorem largest_buffer_misreported :
    ¬ RunReported (fun _ => 0) ⟨0, 0, 0, 0, false, false, 0, 0⟩ 268435455
      (List.replicate (8 * 268435455) .readOneBit ++
        [.readUBitLong 2 (by decide) (by decide)]) := by
  intro reported
  have tight : ¬ EndReported 268435455 := by
    unfold EndReported
    decide
  exact two_bits_misreported _ _ 268435455 (by decide) (by decide) tight
    (reported _ _ (List.prefix_refl _))

end Sniffles.CBitRead
