import Sniffles.IceInverse
import Sniffles.ScheduleCoverage

/-!
# The cipher at every level

The block loops run over the allocated schedule, whose subkeys they find through
their `int` counters. As long as the number of rounds is the length of the
schedule and even, they compute what the loops over any schedule do, and undo
each other. A constructed key states sixteen rounds for each level as long as
that fits an `int`. From level 2^27 on the number wraps: it is negative, and no
key is constructed, or it is a smaller one, and so is the schedule.
-/

namespace Sniffles.IceKey

open BitSequences CheckedMemory MachineIntegers

/-- The body of the loop of `encrypt`, in one of its turns. -/
def KeyObject.encryptTurn (sbox : SBoxes) (self : KeyObject) (halves : BitVec 32 × BitVec 32)
    (turn : Nat) : Checked (BitVec 32 × BitVec 32) := do
  let i := 2 * turn
  let subkey ← readCell self.keysched i
  let l := halves.1 ^^^ iceF sbox halves.2 subkey
  let subkey ← readCell self.keysched (i + 1)
  .ok (l, halves.2 ^^^ iceF sbox l subkey)

/-- `encrypt`. -/
def KeyObject.encrypt (sbox : SBoxes) (self : KeyObject) (ptext : Block) : Checked Block := do
  let halves ← (List.range ((self.rounds + 1) / 2).toNat).foldlM (self.encryptTurn sbox) (pack ptext)
  .ok (unpack halves.1 halves.2)

/-- The body of the loop of `decrypt`, in one of its turns. -/
def KeyObject.decryptTurn (sbox : SBoxes) (self : KeyObject) (halves : BitVec 32 × BitVec 32)
    (turn : Nat) : Checked (BitVec 32 × BitVec 32) := do
  let i := self.rounds - 1 - 2 * turn
  let subkey ← readAt self.keysched i
  let l := halves.1 ^^^ iceF sbox halves.2 subkey
  let subkey ← readAt self.keysched (i - 1)
  .ok (l, halves.2 ^^^ iceF sbox l subkey)

/-- `decrypt`. -/
def KeyObject.decrypt (sbox : SBoxes) (self : KeyObject) (ctext : Block) : Checked Block := do
  let halves ← (List.range (self.rounds / 2).toNat).foldlM (self.decryptTurn sbox) (pack ctext)
  .ok (unpack halves.1 halves.2)

/-- A schedule as long as the even number of rounds is that of a key. -/
def KeyObject.key (self : KeyObject) (paired : self.rounds.toNat % 2 = 0) : IceKey where
  size := self.size.toNat
  rounds := self.rounds.toNat
  keysched index := self.keysched.getD index ⟨Vector.replicate 3 0#32⟩
  paired := paired

end Sniffles.IceKey
