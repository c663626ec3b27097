import Sniffles.Foundations.CheckedMemory
import Mathlib.Data.List.ReduceOption

/-!
# Heaps of blocks

A heap holds its blocks in the order of their allocation, and a freed block leaves a gap.
An address is a place in that order, so it is never given out twice, and using an address
whose block is not live is a fault. A client that allocates its own blocks works on the
part of the heap that has grown since it was called: what was there before stays as it
was, and what is live in the end is what was live before and what the client left.
-/

namespace HeapBlocks

open CheckedMemory

variable {Block : Type}

structure Heap (Block : Type) where
  blocks : List (Option Block)

/-- A block that is not live was used, or an access inside a buffer failed. -/
inductive HeapFault where
  | notLive (address : Nat)
  | access (fault : Fault)
  deriving DecidableEq

/-- Computations that use a heap and may fail. -/
abbrev HeapM (Block : Type) := StateT (Heap Block) (Except HeapFault)

namespace Heap

/-- The live blocks, oldest first. -/
def live (heap : Heap Block) : List Block := heap.blocks.reduceOption

/-- The heap with more cells behind. -/
def grow (heap : Heap Block) (cells : List (Option Block)) : Heap Block := ⟨heap.blocks ++ cells⟩

end Heap

/-- The block at an address. -/
def load (address : Nat) : HeapM Block Block := fun heap =>
  match heap.blocks.getD address none with
  | some block => .ok (block, heap)
  | none => .error (.notLive address)

/-- A new block, and its address. -/
def malloc (block : Block) : HeapM Block Nat := fun heap =>
  .ok (heap.blocks.length, ⟨heap.blocks ++ [some block]⟩)

/-- Overwrite the block at an address. -/
def store (address : Nat) (block : Block) : HeapM Block Unit := fun heap =>
  if (heap.blocks.getD address none).isSome then .ok ((), ⟨heap.blocks.set address (some block)⟩)
  else .error (.notLive address)

/-- Release the block at an address. -/
def free (address : Nat) : HeapM Block Unit := fun heap =>
  if (heap.blocks.getD address none).isSome then .ok ((), ⟨heap.blocks.set address none⟩)
  else .error (.notLive address)

/-- An access inside a buffer leaves the heap alone. -/
def check {Value : Type} (computation : Checked Value) : HeapM Block Value := fun heap =>
  match computation with
  | .ok value => .ok (value, heap)
  | .error fault => .error (.access fault)

/-- A step that has returned passes on its value and its heap. -/
theorem run_bind {Value Result : Type} {step : HeapM Block Value} {next : Value → HeapM Block Result}
    {heap after : Heap Block} {value : Value} (returned : step.run heap = .ok (value, after)) :
    (step >>= next).run heap = (next value).run after := by
  rw [StateT.run_bind, returned]
  rfl

/-- A fault ends the whole computation. -/
theorem run_fault {Value Result : Type} {step : HeapM Block Value} {next : Value → HeapM Block Result}
    {heap : Heap Block} {fault : HeapFault} (failed : step.run heap = .error fault) :
    (step >>= next).run heap = .error fault := by
  rw [StateT.run_bind, failed]
  rfl

theorem run_check {Value : Type} {computation : Checked Value} {value : Value}
    (returned : computation = .ok value) (heap : Heap Block) :
    (check computation).run heap = .ok (value, heap) := by
  rw [returned]
  rfl

theorem check_fault {Value : Type} {computation : Checked Value} {fault : Fault}
    (failed : computation = .error fault) (heap : Heap Block) :
    (check computation).run heap = .error (.access fault) := by
  rw [failed]
  rfl

section Growth

variable (heap : Heap Block) (cells : List (Option Block))

theorem grow_nil : heap.grow [] = heap := by
  rw [Heap.grow, List.append_nil]

theorem grow_grow (more : List (Option Block)) :
    (heap.grow cells).grow more = heap.grow (cells ++ more) := by
  rw [Heap.grow, Heap.grow, Heap.grow, List.append_assoc]

/-- What is live are the old blocks and the ones that are live among the new. -/
theorem live_grow : (heap.grow cells).live = heap.live ++ cells.reduceOption :=
  List.reduceOption_append heap.blocks cells

theorem run_malloc (block : Block) :
    (malloc block).run (heap.grow cells) =
      .ok (heap.blocks.length + cells.length, heap.grow (cells ++ [some block])) := by
  show Except.ok ((heap.blocks ++ cells).length, Heap.mk (heap.blocks ++ cells ++ [some block])) = _
  rw [List.length_append, List.append_assoc]
  rfl

variable {heap cells} {index : Nat} {block : Block}

/-- A new cell is found behind the old ones. -/
theorem grown_cell (stored : cells[index]? = some (some block)) :
    (heap.grow cells).blocks.getD (heap.blocks.length + index) none = some block := by
  rw [Heap.grow, List.getD_eq_getElem?_getD, List.getElem?_append_right (Nat.le_add_right _ _),
    Nat.add_sub_cancel_left, stored, Option.getD_some]

theorem run_load (stored : cells[index]? = some (some block)) :
    (load (heap.blocks.length + index)).run (heap.grow cells) = .ok (block, heap.grow cells) := by
  rw [StateT.run, load, grown_cell stored]

/-- Overwriting a new cell leaves the old ones alone. -/
theorem grown_set (cell : Option Block) :
    (heap.grow cells).blocks.set (heap.blocks.length + index) cell =
      (heap.grow (cells.set index cell)).blocks := by
  rw [Heap.grow, Heap.grow, List.set_append_right _ _ (Nat.le_add_right _ _), Nat.add_sub_cancel_left]

theorem run_store (stored : cells[index]? = some (some block)) (new : Block) :
    (store (heap.blocks.length + index) new).run (heap.grow cells) =
      .ok ((), heap.grow (cells.set index (some new))) := by
  rw [StateT.run, store, grown_cell stored, grown_set]
  rfl

theorem run_free (stored : cells[index]? = some (some block)) :
    (free (heap.blocks.length + index)).run (heap.grow cells) =
      .ok ((), heap.grow (cells.set index none)) := by
  rw [StateT.run, free, grown_cell stored, grown_set]
  rfl

end Growth

end HeapBlocks
