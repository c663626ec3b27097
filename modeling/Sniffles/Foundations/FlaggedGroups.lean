import Sniffles.Foundations.BitSequences

/-!
# Groups behind a byte of flags

Items, each a flag and a payload, are written in groups of eight. A group is a
command byte, whose bits from the lowest one up are the flags, followed by the
payloads. The last group may have fewer items.

A writer that does not know a group in advance shifts each flag in from the top.
The byte then holds the flags of the items so far in its highest bits, and the
last group has to be shifted down to where its first flag is the lowest bit.
-/

namespace FlaggedGroups

open BitSequences

/-- What is written for one item. -/
structure Item where
  flag : Bool
  payload : List Byte
  deriving DecidableEq

def flags (items : List Item) : List Bool := items.map Item.flag

def payloads (items : List Item) : List Byte := items.flatMap Item.payload

/-- The command byte of a group. -/
def command (items : List Item) : Byte := BitVec.ofNat 8 (value (flags items))

/-- Write items where `phase` items of the current group have been written. -/
def pack : Nat → List Item → List Byte
  | _, [] => []
  | 0, item :: rest => command ((item :: rest).take 8) :: (item.payload ++ pack 1 rest)
  | phase + 1, item :: rest => item.payload ++ pack ((phase + 2) % 8) rest

/-- The command byte while a group is being written. -/
def progress (items : List Item) : Byte :=
  BitVec.ofNat 8 (value (flags items) * 2 ^ (8 - items.length))

/-- An unfinished group, which has no command byte before its first item. -/
def opened : List Item → List Byte
  | [] => []
  | item :: rest => progress (item :: rest) :: payloads (item :: rest)

@[simp] theorem flags_length (items : List Item) : (flags items).length = items.length :=
  List.length_map _

@[simp] theorem payloads_append (first second : List Item) :
    payloads (first ++ second) = payloads first ++ payloads second := List.flatMap_append

/-- Until the first item is written, a group still needs its command byte. -/
theorem opened_length (items : List Item) :
    (opened items).length + (if items = [] then 1 else 0) = 1 + (payloads items).length := by
  cases items with
  | nil => rfl
  | cons item rest =>
    rw [if_neg (List.cons_ne_nil item rest), opened, List.length_cons, Nat.add_zero, Nat.add_comm]

/-- A flag shifted in from the top. -/
def shiftIn (byte : Byte) (flag : Bool) : Byte := byte >>> 1 ||| if flag then 0x80 else 0

/-- Shifting in halves the byte and adds the flag as its highest bit. -/
theorem shiftIn_toNat (byte : Byte) (flag : Bool) :
    (shiftIn byte flag).toNat = byte.toNat / 2 + 128 * flag.toNat := by
  cases flag with
  | false => simp [shiftIn, Nat.shiftRight_succ]
  | true =>
    have below : byte.toNat / 2 < 2 ^ 7 := by omega
    have split := Nat.two_pow_add_eq_or_of_lt below 1
    simp only [shiftIn, if_true, BitVec.toNat_or, BitVec.toNat_ushiftRight, Nat.shiftRight_succ,
      Nat.shiftRight_zero, Bool.toNat_true]
    rw [Nat.lor_comm]
    simpa [Nat.add_comm] using split.symm

theorem progress_toNat (items : List Item) (few : items.length ≤ 8) :
    (progress items).toNat = value (flags items) * 2 ^ (8 - items.length) := by
  have bound := value_bound (flags items)
  rw [flags_length] at bound
  have scaled : value (flags items) * 2 ^ (8 - items.length) < 2 ^ items.length * 2 ^ (8 - items.length) :=
    Nat.mul_lt_mul_of_pos_right bound (Nat.two_pow_pos _)
  rw [← Nat.pow_add, Nat.add_sub_cancel' few] at scaled
  rw [progress, BitVec.toNat_ofNat, Nat.mod_eq_of_lt scaled]

/-- Shifting in the flag of the next item continues the group. -/
theorem progress_added (items : List Item) (item : Item) (room : items.length < 8) :
    shiftIn (progress items) item.flag = progress (items ++ [item]) := by
  apply BitVec.eq_of_toNat_eq
  have longer : (items ++ [item]).length ≤ 8 := by
    rw [List.length_append]
    exact room
  have remaining : 8 - items.length = (8 - (items ++ [item]).length) + 1 := by
    rw [List.length_append, List.length_singleton]
    omega
  have whole : 2 ^ items.length * 2 ^ (8 - (items ++ [item]).length) = 128 := by
    rw [← Nat.pow_add, List.length_append, List.length_singleton]
    have exponent : items.length + (8 - (items.length + 1)) = 7 := by omega
    rw [exponent]
  have added : value (flags (items ++ [item])) = value (flags items) + 2 ^ items.length * item.flag.toNat := by
    rw [flags, List.map_append, value_append, List.length_map]
    rfl
  rw [shiftIn_toNat, progress_toNat _ (Nat.le_of_lt room), progress_toNat _ longer, added, remaining,
    Nat.pow_succ, ← Nat.mul_assoc, Nat.mul_div_cancel _ (by decide : 0 < 2), Nat.add_mul,
    Nat.mul_right_comm, whole]

/-- After eight items the byte is the command byte. -/
theorem progress_full (items : List Item) (full : items.length = 8) :
    progress items = command items := by
  rw [progress, full, Nat.sub_self, Nat.pow_zero, Nat.mul_one, command]

/-- Shifting an unfinished group down gives its command byte. -/
theorem progress_aligned (items : List Item) (few : items.length ≤ 8) :
    progress items >>> (8 - items.length) = command items := by
  apply BitVec.eq_of_toNat_eq
  have bound := value_bound (flags items)
  rw [flags_length] at bound
  have small : value (flags items) < 2 ^ 8 :=
    Nat.lt_of_lt_of_le bound (Nat.pow_le_pow_right (by decide) few)
  rw [BitVec.toNat_ushiftRight, progress_toNat items few, Nat.shiftRight_eq_div_pow,
    Nat.mul_div_cancel _ (Nat.two_pow_pos _), command, BitVec.toNat_ofNat, Nat.mod_eq_of_lt small]

/-- Inside a group only payloads are written. -/
theorem pack_within (phase : Nat) (items : List Item) (started : phase ≠ 0)
    (fits : phase + items.length ≤ 8) : pack phase items = payloads items := by
  induction items generalizing phase with
  | nil => cases phase <;> rfl
  | cons item rest inductionHypothesis =>
    obtain ⟨previous, rfl⟩ := Nat.exists_eq_succ_of_ne_zero started
    rw [List.length_cons] at fits
    rw [Nat.succ_eq_add_one, pack]
    cases rest with
    | nil => cases (previous + 2) % 8 <;> rfl
    | cons next rest =>
      have inside : (previous + 2) % 8 = previous + 2 := Nat.mod_eq_of_lt (by
        rw [List.length_cons] at fits
        omega)
      rw [inside, inductionHypothesis (previous + 2) (Nat.succ_ne_zero _) (by omega)]
      rfl

/-- One group is its command byte and its payloads. -/
theorem pack_group (items : List Item) (nonempty : items ≠ []) (few : items.length ≤ 8) :
    pack 0 items = command items :: payloads items := by
  cases items with
  | nil => exact absurd rfl nonempty
  | cons item rest =>
    rw [List.length_cons] at few
    rw [pack, pack_within 1 rest (by decide) (by omega), List.take_of_length_le few]
    rfl

/-- Items that end with their group are written independently of what follows. -/
theorem pack_append (phase : Nat) (first second : List Item) (small : phase < 8)
    (complete : (phase + first.length) % 8 = 0) :
    pack phase (first ++ second) = pack phase first ++ pack 0 second := by
  induction first generalizing phase with
  | nil =>
    have start : phase = 0 := by
      rw [List.length_nil] at complete
      omega
    subst start
    rfl
  | cons item rest inductionHypothesis =>
    rw [List.length_cons] at complete
    cases phase with
    | zero =>
      have long : 8 ≤ (item :: rest).length := by
        rw [List.length_cons]
        omega
      have group : ((item :: rest) ++ second).take 8 = (item :: rest).take 8 :=
        List.take_append_of_le_length long
      rw [List.cons_append] at group
      rw [List.cons_append, pack, group, inductionHypothesis 1 (by decide) (by omega), pack,
        List.cons_append, List.append_assoc]
    | succ phase =>
      rw [List.cons_append, pack, pack, List.append_assoc,
        inductionHypothesis ((phase + 2) % 8) (Nat.mod_lt _ (by decide)) (by omega)]

/-- Besides the payloads there is one command byte for each group that is begun. -/
theorem pack_length (phase : Nat) (items : List Item) (small : phase < 8) :
    (pack phase items).length =
      (payloads items).length + ((phase + items.length + 7) / 8 - (phase + 7) / 8) := by
  induction items generalizing phase with
  | nil =>
    have none : pack phase [] = [] := by cases phase <;> rfl
    simp [none, payloads]
  | cons item rest inductionHypothesis =>
    have payload : (payloads (item :: rest)).length = item.payload.length + (payloads rest).length :=
      List.length_append
    cases phase with
    | zero =>
      have next := inductionHypothesis 1 (by decide)
      rw [pack, List.length_cons, List.length_append, next, payload, List.length_cons]
      omega
    | succ phase =>
      have next := inductionHypothesis ((phase + 2) % 8) (Nat.mod_lt _ (by decide))
      rw [pack, List.length_append, next, payload, List.length_cons]
      omega

end FlaggedGroups
