import Sniffles.Foundations.BitSequences
import Mathlib.Data.Vector.Basic

/-!
# The ICE cipher

`ice.cpp` as it computes: the S-boxes built from Galois field powers and the bit
permutation, the key schedule, the round function and the two block loops. The
S-box table is a global array, so the round function takes the table contents
as an argument; `iceSboxesInit` is what the first constructed key stores there.

`unsigned long` has 32 bits. The loops over set bits of a word are run for all
32 bits, since a cleared word changes nothing. Keys are constructed here at the
levels for which sixteen times the level fits an `int`; `IceSchedule` has the
constructor and `set` at every level, with the `int` fields of the class.
-/

namespace Sniffles

open BitSequences

/-- The three words of a single round subkey. -/
structure IceSubkey where
  val : Vector (BitVec 32) 3
  deriving DecidableEq

namespace IceKey

/-- Contents of `ice_sbox`, by box and index. -/
abbrev SBoxes := Nat → Nat → BitVec 32

/-- Modulo values for the S-boxes. -/
def iceSmod : List (List (BitVec 32)) :=
  [[333, 313, 505, 369], [379, 375, 319, 391], [361, 445, 451, 397], [397, 425, 395, 505]]

/-- XOR values for the S-boxes. -/
def iceSxor : List (List (BitVec 32)) :=
  [[0x83, 0x85, 0x9b, 0xcd], [0xcc, 0xa7, 0xad, 0x41], [0x4b, 0x2e, 0xd4, 0x33],
    [0xea, 0xcb, 0x2e, 0x04]]

/-- Permutation values for the P-box. -/
def icePbox : List (BitVec 32) :=
  [0x00000001, 0x00000080, 0x00000400, 0x00002000, 0x00080000, 0x00200000, 0x01000000, 0x40000000,
    0x00000008, 0x00000020, 0x00000100, 0x00004000, 0x00010000, 0x00800000, 0x04000000, 0x20000000,
    0x00000004, 0x00000010, 0x00000200, 0x00008000, 0x00020000, 0x00400000, 0x08000000, 0x10000000,
    0x00000002, 0x00000040, 0x00000800, 0x00001000, 0x00040000, 0x00100000, 0x02000000, 0x80000000]

/-- The key rotation schedule. -/
def iceKeyrot : List Nat := [0, 1, 2, 3, 2, 1, 3, 0, 1, 3, 2, 0, 3, 1, 0, 2]

/-- The loop of `gf_mult`, for a number of bits of `b`. -/
def gfMultLoop (m : BitVec 32) : Nat → BitVec 32 → BitVec 32 → BitVec 32 → BitVec 32
  | 0, _, _, res => res
  | bits + 1, a, b, res =>
    if b = 0 then res
    else
      let res := if b &&& 1 ≠ 0 then res ^^^ a else res
      let a := a <<< 1
      let a := if a ≥ 256 then a ^^^ m else a
      gfMultLoop m bits a (b >>> 1) res

def gfMult (a b m : BitVec 32) : BitVec 32 := gfMultLoop m 32 a b 0

/-- Raise the base to the power of 7, modulo m. -/
def gfExp7 (b m : BitVec 32) : BitVec 32 :=
  if b = 0 then 0
  else
    let x := gfMult b b m
    let x := gfMult b x m
    let x := gfMult x x m
    gfMult b x m

/-- The loop of `ice_perm32`, from a position in the permutation table. -/
def icePerm32Loop : Nat → Nat → BitVec 32 → BitVec 32 → BitVec 32
  | 0, _, _, res => res
  | bits + 1, pbox, x, res =>
    if x = 0 then res
    else
      let res := if x &&& 1 ≠ 0 then res ||| icePbox.getD pbox 0 else res
      icePerm32Loop bits (pbox + 1) (x >>> 1) res

def icePerm32 (x : BitVec 32) : BitVec 32 := icePerm32Loop 32 0 x 0

/-- `ice_sboxes_init`. The four statements of its body differ in the box and in
    the byte lane of the result. -/
def iceSboxesInit (box i : Nat) : BitVec 32 :=
  if box < 4 ∧ i < 1024 then
    let col := BitVec.ofNat 32 ((i >>> 1) &&& 0xff)
    let row := (i &&& 0x1) ||| ((i &&& 0x200) >>> 8)
    let sxor := (iceSxor.getD box []).getD row 0
    let smod := (iceSmod.getD box []).getD row 0
    icePerm32 (gfExp7 (col ^^^ sxor) smod <<< (24 - 8 * box))
  else 0

/-- The single round ICE f function. -/
def iceF (sbox : SBoxes) (p : BitVec 32) (sk : IceSubkey) : BitVec 32 :=
  let tl := ((p >>> 16) &&& 0x3ff) ||| (((p >>> 14) ||| (p <<< 18)) &&& 0xffc00)
  let tr := (p &&& 0x3ff) ||| ((p <<< 2) &&& 0xffc00)
  let al := sk.val[2] &&& (tl ^^^ tr)
  let ar := al ^^^ tr
  let al := al ^^^ tl
  let al := al ^^^ sk.val[0]
  let ar := ar ^^^ sk.val[1]
  sbox 0 (al >>> 10).toNat ||| sbox 1 (al &&& 0x3ff).toNat |||
    sbox 2 (ar >>> 10).toNat ||| sbox 3 (ar &&& 0x3ff).toNat

end IceKey

/-- A key with its schedule memory. Rounds are performed in pairs, so their
    number must be even; every constructed key carries that fact. -/
structure IceKey where
  size : Nat
  rounds : Nat
  keysched : Nat → IceSubkey
  paired : rounds % 2 = 0

namespace IceKey

/-- `IceKey(n)` where `n * 16` does not wrap, with the schedule memory as `new` returns it. -/
def create (n : Int) (_fits : n < 134217728) (memory : Nat → IceSubkey) : IceKey :=
  if n < 1 then ⟨1, 8, memory, rfl⟩ else ⟨n.toNat, n.toNat * 16, memory, by omega⟩

def keySize (key : IceKey) : Nat := key.size * 8

def blockSize : Int := 8

/-- Eight bytes of data. -/
abbrev Block := Vector Byte 8

/-- Four bytes, the first one most significant. -/
def packHalf (b0 b1 b2 b3 : Byte) : BitVec 32 :=
  (b0.setWidth 32 <<< 24) ||| (b1.setWidth 32 <<< 16) ||| (b2.setWidth 32 <<< 8) ||| b3.setWidth 32

/-- The two halves of a block. -/
def pack (text : Block) : BitVec 32 × BitVec 32 :=
  (packHalf text[0] text[1] text[2] text[3], packHalf text[4] text[5] text[6] text[7])

/-- The closing loop of both directions: the right half is stored first. -/
def unpack (l r : BitVec 32) : Block :=
  #v[(r >>> 24).setWidth 8, (r >>> 16).setWidth 8, (r >>> 8).setWidth 8, r.setWidth 8,
    (l >>> 24).setWidth 8, (l >>> 16).setWidth 8, (l >>> 8).setWidth 8, l.setWidth 8]

/-- `for (i = 0; i < _rounds; i += 2)`, for the given number of iterations. -/
def encryptLoop (sbox : SBoxes) (keysched : Nat → IceSubkey) :
    Nat → Nat → BitVec 32 → BitVec 32 → BitVec 32 × BitVec 32
  | 0, _, l, r => (l, r)
  | iterations + 1, i, l, r =>
    let l := l ^^^ iceF sbox r (keysched i)
    let r := r ^^^ iceF sbox l (keysched (i + 1))
    encryptLoop sbox keysched iterations (i + 2) l r

/-- `for (i = _rounds - 1; i > 0; i -= 2)`, for the given number of iterations. -/
def decryptLoop (sbox : SBoxes) (keysched : Nat → IceSubkey) :
    Nat → Nat → BitVec 32 → BitVec 32 → BitVec 32 × BitVec 32
  | 0, _, l, r => (l, r)
  | iterations + 1, i, l, r =>
    let l := l ^^^ iceF sbox r (keysched i)
    let r := r ^^^ iceF sbox l (keysched (i - 1))
    decryptLoop sbox keysched iterations (i - 2) l r

def encrypt (sbox : SBoxes) (key : IceKey) (ptext : Block) : Block :=
  let (l, r) := pack ptext
  let (l, r) := encryptLoop sbox key.keysched ((key.rounds + 1) / 2) 0 l r
  unpack l r

def decrypt (sbox : SBoxes) (key : IceKey) (ctext : Block) : Block :=
  let (l, r) := pack ctext
  let (l, r) := decryptLoop sbox key.keysched (key.rounds / 2) (key.rounds - 1) l r
  unpack l r

/-- The body of the innermost schedule loop: move one bit of a key word into the
    subkey word and feed its complement back. -/
def scheduleBit (kr j : Nat) (state : Vector (BitVec 16) 4 × Vector (BitVec 32) 3) (k : Nat) :
    Vector (BitVec 16) 4 × Vector (BitVec 32) 3 :=
  let (kb, sk) := state
  let word : Fin 4 := ⟨(kr + k) % 4, Nat.mod_lt _ (by decide)⟩
  let slot : Fin 3 := ⟨j % 3, Nat.mod_lt _ (by decide)⟩
  let bit := kb[word] &&& 1
  (kb.set word ((kb[word] >>> 1) ||| ((bit ^^^ 1) <<< 15)),
    sk.set slot ((sk[slot] <<< 1) ||| bit.setWidth 32))

/-- One subkey from the rotating key words. -/
def scheduleSubkey (kb : Vector (BitVec 16) 4) (kr : Nat) :
    Vector (BitVec 16) 4 × Vector (BitVec 32) 3 :=
  (List.range 15).foldl (fun state j => (List.range 4).foldl (scheduleBit kr j) state)
    (kb, #v[0, 0, 0])

/-- Set 8 rounds [n, n+7] of the key schedule of an ICE key. -/
def scheduleBuild (kb : Vector (BitVec 16) 4) (keysched : Nat → IceSubkey) (n : Nat)
    (keyrot : List Nat) : Vector (BitVec 16) 4 × (Nat → IceSubkey) :=
  (List.range 8).foldl (fun (kb, keysched) i =>
    let (kb, sk) := scheduleSubkey kb (keyrot.getD i 0)
    (kb, fun index => if index = n + i then ⟨sk⟩ else keysched index)) (kb, keysched)

/-- The four 16-bit words of a key block, the last one first. -/
def keyBlock (key : Nat → Byte) (start : Nat) : Vector (BitVec 16) 4 :=
  Vector.ofFn fun word =>
    let j := 3 - word.val
    ((key (start + j * 2)).setWidth 16 <<< 8) ||| (key (start + j * 2 + 1)).setWidth 16

/-- Set the key schedule of an ICE key. -/
def set (self : IceKey) (key : Nat → Byte) : IceKey :=
  if self.rounds = 8 then
    { self with keysched := (scheduleBuild (keyBlock key 0) self.keysched 0 iceKeyrot).2 }
  else
    { self with
      keysched := (List.range self.size).foldl (fun keysched i =>
        let (kb, keysched) := scheduleBuild (keyBlock key (i * 8)) keysched (i * 8) iceKeyrot
        (scheduleBuild kb keysched (self.rounds - 8 - i * 8) (iceKeyrot.drop 8)).2) self.keysched }

end IceKey

end Sniffles
