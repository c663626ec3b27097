import Sniffles.Foundations.BackReferences
import Sniffles.Foundations.FlaggedGroups
import Sniffles.LzssCodec

/-!
# Tokens and their bytes

A literal is written as its byte with a clear flag, a back-reference as two
bytes with a set flag: twelve bits for the distance and four for the length. A
reference of length one is the terminator. A byte string holds a token stream
when it can be read token by token, fetching a command byte before every eighth
token, up to the terminator. What the groups of some encodable tokens and the
terminator are packed into holds exactly these tokens.
-/

namespace Sniffles.CLZSS

open BitSequences CheckedMemory BackReferences FlaggedGroups

/-- The two bytes of a back-reference. -/
def tokenItem : Token Byte → Item
  | .literal byte => ⟨false, [byte]⟩
  | .copy back count => ⟨true, [BitVec.ofNat 8 (back / 16), BitVec.ofNat 8 (back * 16 + (count - 1))]⟩

theorem tokenItem_payload (token : Token Byte) : (tokenItem token).payload.length ≤ 2 := by
  cases token with
  | literal => exact Nat.le_succ 1
  | copy => exact Nat.le_refl 2

/-- The terminator is a reference of length one. -/
def terminator : Item := ⟨true, [0, 0]⟩

/-- The distance and the length fit their fields, and the length is not that of the
    terminator. -/
def Encodable : Token Byte → Prop
  | .literal _ => True
  | .copy back count => back < 4096 ∧ 2 ≤ count ∧ count ≤ 16

/-- The command value from which a token is decoded and the bytes behind it: a new
    command byte before the first token of a group, the kept one otherwise. -/
inductive Fetched : Nat → Nat → List Byte → Nat → List Byte → Prop where
  | command (kept : Nat) (command : Byte) (bytes : List Byte) :
      Fetched 0 kept (command :: bytes) command.toNat bytes
  | kept (phase kept : Nat) (bytes : List Byte) (within : phase ≠ 0) :
      Fetched phase kept bytes kept bytes

/-- The bytes hold the tokens and the terminator, where `phase` tokens of the current
    group have been read. The last list are the bytes behind the terminator. -/
inductive TokenStream : Nat → Nat → List Byte → List (Token Byte) → List Byte → Prop where
  | literal (phase kept command : Nat) (bytes after rest : List Byte) (byte : Byte)
      (tokens : List (Token Byte)) (fetched : Fetched phase kept bytes command (byte :: after))
      (flag : command % 2 = 0) (next : TokenStream ((phase + 1) % 8) (command / 2) after tokens rest) :
      TokenStream phase kept bytes (.literal byte :: tokens) rest
  | reference (phase kept command : Nat) (bytes after rest : List Byte) (high low : Byte)
      (tokens : List (Token Byte))
      (fetched : Fetched phase kept bytes command (high :: low :: after)) (flag : command % 2 = 1)
      (length : low.toNat % 16 ≠ 0)
      (next : TokenStream ((phase + 1) % 8) (command / 2) after tokens rest) :
      TokenStream phase kept bytes
        (.copy (high.toNat * 16 + low.toNat / 16) (low.toNat % 16 + 1) :: tokens) rest
  | terminator (phase kept command : Nat) (bytes rest : List Byte) (high low : Byte)
      (fetched : Fetched phase kept bytes command (high :: low :: rest)) (flag : command % 2 = 1)
      (length : low.toNat % 16 = 0) : TokenStream phase kept bytes [] rest

/-- The bytes that the encoder computes are those of the reference, for a distance
    inside an `int`. -/
theorem referenceBytes_item (base position candidate count : Nat) (earlier : candidate < position)
    (near : position - candidate - 1 < 2147483648) (short : count - 1 < 16) :
    tokenItem (.copy (position - candidate - 1) count) =
      ⟨true, [(referenceBytes (base + position) (base + candidate) count).1,
        (referenceBytes (base + position) (base + candidate) count).2]⟩ := by
  have distance : ((base + position : Nat) : Int) - (base + candidate : Nat) - 1 =
      (position - candidate - 1 : Nat) := by omega
  generalize position - candidate - 1 = back at distance near
  have stored : (BitVec.ofNat 32 back).toNat = back := by
    rw [BitVec.toNat_ofNat, Nat.mod_eq_of_lt (by omega)]
  have sign : (BitVec.ofNat 32 back).msb = false := by
    rw [BitVec.msb_eq_decide, stored, decide_eq_false_iff_not]
    omega
  have shifted : BitVec.sshiftRight (BitVec.ofNat 32 back) 4 = BitVec.ofNat 32 back >>> 4 :=
    BitVec.sshiftRight_eq_of_msb_false sign
  have high : (BitVec.ofNat 32 back >>> 4).setWidth 8 = BitVec.ofNat 8 (back / 16) := by
    apply BitVec.eq_of_toNat_eq
    rw [BitVec.toNat_setWidth, BitVec.toNat_ushiftRight, stored, BitVec.toNat_ofNat,
      Nat.shiftRight_eq_div_pow]
  have low : (BitVec.ofNat 32 back <<< 4 ||| BitVec.ofNat 32 (count - 1)).setWidth 8 =
      BitVec.ofNat 8 (back * 16 + (count - 1)) := by
    apply BitVec.eq_of_toNat_eq
    have small : (BitVec.ofNat 32 (count - 1)).toNat = count - 1 := by
      rw [BitVec.toNat_ofNat, Nat.mod_eq_of_lt (by omega)]
    have field : back <<< 4 % 2 ^ 32 = (back % 268435456) <<< 4 := by
      rw [Nat.shiftLeft_eq, Nat.shiftLeft_eq]
      omega
    have joined : (back % 268435456) <<< 4 ||| (count - 1) = (back % 268435456) * 16 + (count - 1) := by
      have below : count - 1 < 2 ^ 4 := short
      rw [← Nat.shiftLeft_add_eq_or_of_lt below, Nat.shiftLeft_eq]
    rw [BitVec.toNat_setWidth, BitVec.toNat_or, BitVec.toNat_shiftLeft, stored, small, field, joined,
      BitVec.toNat_ofNat]
    omega
  rw [tokenItem, referenceBytes, distance, BitVec.ofInt_natCast, lzssLookShift, shifted, high, low]

/-- The fields of an encodable reference are read back from its bytes. -/
theorem reference_fields (back count : Nat) (near : back < 4096) (low : 2 ≤ count)
    (high : count ≤ 16) :
    (BitVec.ofNat 8 (back / 16)).toNat * 16 + (BitVec.ofNat 8 (back * 16 + (count - 1))).toNat / 16 =
        back ∧
      (BitVec.ofNat 8 (back * 16 + (count - 1))).toNat % 16 + 1 = count := by
  rw [BitVec.toNat_ofNat, BitVec.toNat_ofNat]
  omega

/-- Before an item is read, the command value holds the flags of the rest of its group. -/
def Announces (phase kept : Nat) (items : List Item) : Prop :=
  phase ≠ 0 → ∀ index, phase + index < 8 → index < items.length →
    kept.testBit index = (flags items).getD index false

/-- A command byte announces the flags of its group. -/
theorem command_testBit (items : List Item) (index : Nat) (inside : index < 8) :
    (command (items.take 8)).toNat.testBit index = (flags items).getD index false := by
  have bound := value_bound (flags (items.take 8))
  have few : (flags (items.take 8)).length ≤ 8 := by
    rw [flags_length, List.length_take]
    exact Nat.min_le_left 8 _
  have small : value (flags (items.take 8)) < 2 ^ 8 :=
    Nat.lt_of_lt_of_le bound (Nat.pow_le_pow_right (by decide) few)
  have taken : flags (items.take 8) = (flags items).take 8 := List.map_take
  rw [command, BitVec.toNat_ofNat, Nat.mod_eq_of_lt small, value_testBit, taken,
    List.getD_eq_getElem?_getD, List.getElem?_take_of_lt inside, List.getD_eq_getElem?_getD]

/-- At the first item the decoder fetches a command value whose lowest bit is its flag
    and whose other bits announce the rest of the group. -/
theorem pack_fetched (phase kept : Nat) (item : Item) (rest : List Item) (behind : List Byte)
    (announced : Announces phase kept (item :: rest)) (small : phase < 8) :
    ∃ command, Fetched phase kept (pack phase (item :: rest) ++ behind) command
        (item.payload ++ (pack ((phase + 1) % 8) rest ++ behind)) ∧
      command % 2 = item.flag.toNat ∧ Announces ((phase + 1) % 8) (command / 2) rest := by
  have shifted (command : Nat) (bits : ∀ index, phase + index < 8 → index < (item :: rest).length →
      command.testBit index = (flags (item :: rest)).getD index false) :
      command % 2 = item.flag.toNat ∧ Announces ((phase + 1) % 8) (command / 2) rest := by
    constructor
    · have lowest := bits 0 small (Nat.succ_pos _)
      rw [Nat.testBit_zero] at lowest
      have flag : (flags (item :: rest)).getD 0 false = item.flag := rfl
      rw [flag] at lowest
      cases stored : item.flag <;> simp [stored] at lowest ⊢ <;> omega
    · intro within index inside listed
      have next := bits (index + 1) (by omega) (Nat.succ_lt_succ listed)
      rw [Nat.testBit_succ] at next
      exact next
  cases phase with
  | zero =>
    refine ⟨(command ((item :: rest).take 8)).toNat, ?_, shifted _ ?_⟩
    · rw [pack, List.cons_append, List.append_assoc]
      exact .command kept _ _
    · intro index inside _
      exact command_testBit (item :: rest) index (by omega)
  | succ phase =>
    refine ⟨kept, ?_, shifted kept (announced (Nat.succ_ne_zero phase))⟩
    rw [pack, List.append_assoc]
    exact .kept (phase + 1) kept _ (Nat.succ_ne_zero phase)

/-- The packed groups of encodable tokens and the terminator hold these tokens.

Induct over the tokens: each is read from the command value that announces its flag. -/
theorem packed_stream (tokens : List (Token Byte)) (phase kept : Nat) (behind : List Byte)
    (encodable : ∀ token ∈ tokens, Encodable token) (small : phase < 8)
    (announced : Announces phase kept (tokens.map tokenItem ++ [terminator])) :
    TokenStream phase kept (pack phase (tokens.map tokenItem ++ [terminator]) ++ behind) tokens
      behind := by
  induction tokens generalizing phase kept with
  | nil =>
    obtain ⟨command, fetched, flag, _⟩ := pack_fetched phase kept terminator [] behind announced small
    have closed : pack ((phase + 1) % 8) [] = [] := by cases (phase + 1) % 8 <;> rfl
    rw [closed] at fetched
    exact .terminator phase kept command _ behind 0 0 fetched flag rfl
  | cons token rest inductionHypothesis =>
    obtain ⟨command, fetched, flag, announcedNext⟩ :=
      pack_fetched phase kept (tokenItem token) (rest.map tokenItem ++ [terminator]) behind announced
        small
    have next := inductionHypothesis ((phase + 1) % 8) (command / 2)
      (fun other member => encodable other (List.mem_cons_of_mem token member))
      (Nat.mod_lt _ (by decide)) announcedNext
    cases token with
    | literal byte => exact .literal phase kept command _ _ behind byte rest fetched flag next
    | copy back count =>
      obtain ⟨near, low, high⟩ := encodable _ List.mem_cons_self
      obtain ⟨distance, length⟩ := reference_fields back count near low high
      have stream := TokenStream.reference phase kept command _ _ behind _ _ rest fetched flag
        (by omega) next
      rwa [distance, length] at stream

end Sniffles.CLZSS
