import Mathlib.Data.Vector.Basic
import Mathlib.Data.List.Basic

/-!
# Checked access to owned buffers

A buffer is the list of its cells. Every access checks that its cells lie in
the buffer and otherwise reports a fault instead of a value, so a computation
that returns normally has touched no memory outside its buffers. A pointer that
may be null is optional; using it checks that it is present. An access to no
cells succeeds at every offset up to the length.
-/

namespace CheckedMemory

/-- How a computation can fail. -/
inductive Fault where
  | nullDereference
  | outOfBounds
  | unfinished
  deriving DecidableEq, Repr

/-- A computation that stops at its first fault. -/
abbrev Checked := Except Fault

/-- A computation is safe when it returns without a fault. -/
def Safe {Value : Type} (computation : Checked Value) : Prop :=
  ∃ value, computation = .ok value

/-- Follow a pointer. -/
def dereference {Value : Type} : Option Value → Checked Value
  | some target => .ok target
  | none => .error .nullDereference

/-- A computation that has returned passes its value on. -/
@[simp] theorem ok_bind {Value Result : Type} (value : Value) (next : Value → Checked Result) :
    ((Except.ok value : Checked Value) >>= next) = next value := rfl

/-- A fault ends the whole computation. -/
@[simp] theorem error_bind {Value Result : Type} (fault : Fault) (next : Value → Checked Result) :
    ((Except.error fault : Checked Value) >>= next) = .error fault := rfl

/-- A computation that returns has returned its first part. -/
theorem bind_returned {Value Result : Type} {first : Checked Value}
    {next : Value → Checked Result} {result : Result} (returned : first >>= next = .ok result) :
    ∃ value, first = .ok value ∧ next value = .ok result := by
  cases first with
  | error fault => cases returned
  | ok value => exact ⟨value, rfl, returned⟩

@[simp] theorem dereference_some {Value : Type} (target : Value) :
    dereference (some target) = .ok target := rfl

@[simp] theorem dereference_none {Value : Type} :
    dereference (none : Option Value) = .error .nullDereference := rfl

variable {Cell : Type}

/-- Cells of a fresh buffer hold whatever the allocator left there. -/
def allocate (contents : Nat → Cell) (count : Nat) : List Cell := (List.range count).map contents

/-- Read one cell. -/
def readCell (buffer : List Cell) (offset : Nat) : Checked Cell :=
  if inside : offset < buffer.length then .ok buffer[offset] else .error .outOfBounds

/-- Read one cell at a signed offset, such as a difference of pointers. -/
def readAt (buffer : List Cell) (offset : Int) : Checked Cell :=
  if 0 ≤ offset then readCell buffer offset.toNat else .error .outOfBounds

/-- Read consecutive cells. -/
def readRange (buffer : List Cell) (offset count : Nat) : Checked (List Cell) :=
  if offset + count ≤ buffer.length then .ok ((buffer.drop offset).take count)
  else .error .outOfBounds

/-- Read consecutive cells into a vector of fixed width. -/
def readVector (width : Nat) (buffer : List Cell) (offset : Nat) : Checked (Vector Cell width) :=
  if inside : offset + width ≤ buffer.length then
    .ok ⟨((buffer.drop offset).take width).toArray, by simp; omega⟩
  else .error .outOfBounds

/-- Overwrite consecutive cells. -/
def writeRange (buffer : List Cell) (offset : Nat) (cells : List Cell) : Checked (List Cell) :=
  if offset + cells.length ≤ buffer.length then
    .ok (buffer.take offset ++ cells ++ buffer.drop (offset + cells.length))
  else .error .outOfBounds

/-- Overwrite one cell. -/
def writeCell (buffer : List Cell) (offset : Nat) (cell : Cell) : Checked (List Cell) :=
  writeRange buffer offset [cell]

/-- Overwrite one cell at a signed offset. -/
def writeAt (buffer : List Cell) (offset : Int) (cell : Cell) : Checked (List Cell) :=
  if 0 ≤ offset then writeCell buffer offset.toNat cell else .error .outOfBounds

@[simp] theorem allocate_length (contents : Nat → Cell) (count : Nat) :
    (allocate contents count).length = count := by
  simp [allocate]

/-- The first cell of a nonempty buffer can be read. -/
@[simp] theorem readCell_first (cell : Cell) (rest : List Cell) :
    readCell (cell :: rest) 0 = .ok cell := rfl

/-- An empty buffer has no cell to read. -/
@[simp] theorem readCell_empty (offset : Nat) :
    readCell ([] : List Cell) offset = .error .outOfBounds := rfl

/-- A buffer partitioned around the accessed cells yields exactly those cells. -/
theorem readRange_between (before cells after : List Cell) :
    readRange (before ++ cells ++ after) before.length cells.length = .ok cells := by
  have inside : before.length + cells.length ≤ (before ++ cells ++ after).length := by simp
  rw [readRange, if_pos inside, List.append_assoc, List.drop_left, List.take_left]

/-- A read that returns yields as many cells as were asked for. -/
theorem readRange_length {buffer cells : List Cell} {offset count : Nat}
    (read : readRange buffer offset count = .ok cells) : cells.length = count := by
  rw [readRange] at read
  split at read
  case isTrue inside =>
    cases read
    rw [List.length_take, List.length_drop]
    omega
  case isFalse => cases read

/-- Exactly the reads inside the buffer are safe. -/
theorem readRange_safe (buffer : List Cell) (offset count : Nat) :
    Safe (readRange buffer offset count) ↔ offset + count ≤ buffer.length := by
  rw [readRange]
  split
  case isTrue room => exact ⟨fun _ => room, fun _ => ⟨_, rfl⟩⟩
  case isFalse outside =>
    refine ⟨?_, fun room => absurd room outside⟩
    rintro ⟨_, read⟩
    cases read

/-- Exactly the writes inside the buffer are safe. -/
theorem writeRange_safe (buffer cells : List Cell) (offset : Nat) :
    Safe (writeRange buffer offset cells) ↔ offset + cells.length ≤ buffer.length := by
  rw [writeRange]
  split
  case isTrue room => exact ⟨fun _ => room, fun _ => ⟨_, rfl⟩⟩
  case isFalse outside =>
    refine ⟨?_, fun room => absurd room outside⟩
    rintro ⟨_, written⟩
    cases written

/-- Exactly the vectors inside the buffer can be read. -/
theorem readVector_safe (width : Nat) (buffer : List Cell) (offset : Nat) :
    Safe (readVector width buffer offset) ↔ offset + width ≤ buffer.length := by
  rw [readVector]
  split
  case isTrue room => exact ⟨fun _ => room, fun _ => ⟨_, rfl⟩⟩
  case isFalse outside =>
    refine ⟨?_, fun room => absurd room outside⟩
    rintro ⟨_, read⟩
    cases read

/-- A write keeps the size of the buffer. -/
theorem writeRange_length {buffer cells written : List Cell} {offset : Nat}
    (stored : writeRange buffer offset cells = .ok written) : written.length = buffer.length := by
  have room := (writeRange_safe buffer cells offset).mp ⟨_, stored⟩
  rw [writeRange, if_pos room] at stored
  cases stored
  simp only [List.length_append, List.length_take, List.length_drop]
  omega

/-- A read yields the cells from its offset on. -/
theorem readRange_get {buffer cells : List Cell} {offset count : Nat}
    (read : readRange buffer offset count = .ok cells) (index : Nat) (inside : index < count) :
    cells[index]? = buffer[offset + index]? := by
  rw [readRange] at read
  split at read
  case isTrue =>
    cases read
    rw [List.getElem?_take_of_lt inside, List.getElem?_drop]
  case isFalse => cases read

/-- A vector stored in a buffer is read back. -/
theorem readVector_between {width : Nat} (before after : List Cell) (cells : Vector Cell width) :
    readVector width (before ++ cells.toList ++ after) before.length = .ok cells := by
  have inside : before.length + width ≤ (before ++ cells.toList ++ after).length := by
    simp [Vector.length_toList]
  have taken : ((before ++ cells.toList ++ after).drop before.length).take width = cells.toList := by
    rw [List.append_assoc, List.drop_left]
    exact List.take_left' cells.length_toList
  rw [readVector, dif_pos inside]
  congr

/-- Overwriting the middle of a partitioned buffer leaves both ends unchanged. -/
theorem writeRange_between (before old cells after : List Cell) (fits : cells.length = old.length) :
    writeRange (before ++ old ++ after) before.length cells = .ok (before ++ cells ++ after) := by
  have inside : before.length + cells.length ≤ (before ++ old ++ after).length := by simp [fits]
  have head : (before ++ old ++ after).take before.length = before := by
    rw [List.append_assoc, List.take_left]
  have tail : (before ++ old ++ after).drop (before.length + cells.length) = after := by
    rw [← List.drop_drop, List.append_assoc, List.drop_left, fits, List.drop_left]
  rw [writeRange, if_pos inside, head, tail]

/-- A write replaces the cells from its offset on and no others. -/
theorem writeRange_get {buffer cells written : List Cell} {offset : Nat}
    (stored : writeRange buffer offset cells = .ok written) (index : Nat) :
    written[index]? = if offset ≤ index ∧ index < offset + cells.length then cells[index - offset]?
      else buffer[index]? := by
  rw [writeRange] at stored
  split at stored
  case isTrue room =>
    cases stored
    have front : (buffer.take offset).length = offset := by
      rw [List.length_take]
      omega
    rw [List.append_assoc]
    by_cases before : index < offset
    · rw [List.getElem?_append_left (by omega), List.getElem?_take_of_lt before,
        if_neg (by omega)]
    · rw [List.getElem?_append_right (by omega), front]
      by_cases within : index < offset + cells.length
      · rw [List.getElem?_append_left (by omega), if_pos (by omega)]
      · have place : offset + cells.length + (index - offset - cells.length) = index := by omega
        rw [List.getElem?_append_right (by omega), if_neg (by omega), List.getElem?_drop, place]
  case isFalse => cases stored

/-- The cell behind a front part of a buffer is read. -/
theorem readCell_between (before : List Cell) (cell : Cell) (after : List Cell) :
    readCell (before ++ cell :: after) before.length = .ok cell := by
  have inside : before.length < (before ++ cell :: after).length := by simp
  rw [readCell, dif_pos inside, List.getElem_append_right (Nat.le_refl _)]
  simp

/-- The cell behind a front part of a buffer is overwritten. -/
theorem writeCell_between (before : List Cell) (old cell : Cell) (after : List Cell) :
    writeCell (before ++ old :: after) before.length cell = .ok (before ++ cell :: after) := by
  have written := writeRange_between before [old] [cell] after rfl
  simpa [writeCell] using written

/-- A buffer has no cell to overwrite behind its end. -/
theorem writeCell_end (buffer : List Cell) (offset : Nat) (cell : Cell)
    (outside : buffer.length ≤ offset) : writeCell buffer offset cell = .error .outOfBounds := by
  have beyond : ¬ offset + [cell].length ≤ buffer.length := by
    rw [List.length_singleton]
    omega
  rw [writeCell, writeRange, if_neg beyond]

/-- A read returns exactly the cell that is stored. -/
theorem readCell_stored (buffer : List Cell) (offset : Nat) (cell : Cell) :
    readCell buffer offset = .ok cell ↔ buffer[offset]? = some cell := by
  rw [readCell, List.getElem?_eq_some_iff]
  split
  case isTrue inside =>
    exact ⟨fun read => ⟨inside, Except.ok.inj read⟩, fun stored => congrArg Except.ok stored.2⟩
  case isFalse outside =>
    exact ⟨fun read => (nomatch read), fun stored => absurd stored.1 outside⟩

/-- A signed offset inside the buffer reads its cell. -/
theorem readAt_inside (buffer : List Cell) (offset : Nat) (cell : Cell)
    (stored : buffer[offset]? = some cell) : readAt buffer offset = .ok cell := by
  rw [readAt, if_pos (Int.natCast_nonneg _), Int.toNat_natCast]
  exact (readCell_stored buffer offset cell).mpr stored

/-- A signed offset inside the buffer overwrites its cell. -/
theorem writeAt_inside (buffer : List Cell) (offset : Nat) (cell : Cell)
    (inside : offset < buffer.length) : writeAt buffer offset cell = .ok (buffer.set offset cell) := by
  have room : offset + [cell].length ≤ buffer.length := inside
  rw [writeAt, if_pos (Int.natCast_nonneg _), Int.toNat_natCast, writeCell, writeRange, if_pos room,
    List.set_eq_take_append_cons_drop, if_pos inside, List.append_assoc]
  rfl

/-- No cell lies before the start of a buffer. -/
theorem readAt_before (buffer : List Cell) (offset : Int) (negative : offset < 0) :
    readAt buffer offset = .error .outOfBounds := by
  rw [readAt, if_neg (Int.not_le.mpr negative)]

/-- Overwriting a whole buffer leaves the new cells. -/
theorem writeRange_whole (old cells : List Cell) (fits : cells.length = old.length) :
    writeRange old 0 cells = .ok cells := by
  have written := writeRange_between [] old cells [] fits
  simpa using written

/-- A cell that was read is the first of those from its place on. -/
theorem readCell_drop {buffer : List Cell} {place : Nat} {cell : Cell}
    (read : readCell buffer place = .ok cell) :
    place < buffer.length ∧ buffer.drop place = cell :: buffer.drop (place + 1) := by
  obtain ⟨inside, stored⟩ := List.getElem?_eq_some_iff.mp ((readCell_stored _ _ _).mp read)
  refine ⟨inside, ?_⟩
  rw [List.drop_eq_getElem_cons inside, stored]

section Finished

/-- A computation is unfinished only through one of its parts. -/
theorem bind_finished {First Second : Type} {first : Checked First} {next : First → Checked Second}
    (start : first ≠ .error .unfinished)
    (further : ∀ value, first = .ok value → next value ≠ .error .unfinished) :
    first >>= next ≠ .error .unfinished := by
  cases first with
  | error fault =>
    intro same
    cases same
    exact start rfl
  | ok value => exact further value rfl

variable (buffer : List Cell)

theorem readCell_finished (place : Nat) : readCell buffer place ≠ .error .unfinished := by
  rw [readCell]
  split <;> simp

theorem readAt_finished (place : Int) : readAt buffer place ≠ .error .unfinished := by
  rw [readAt]
  split
  · exact readCell_finished buffer _
  · simp

theorem readVector_finished (width place : Nat) :
    readVector width buffer place ≠ .error .unfinished := by
  rw [readVector]
  split <;> simp

theorem writeCell_finished (place : Nat) (cell : Cell) :
    writeCell buffer place cell ≠ .error .unfinished := by
  rw [writeCell, writeRange]
  split <;> simp

end Finished

end CheckedMemory
