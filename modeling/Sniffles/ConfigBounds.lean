import Sniffles.ConfigRuns

/-!
# When the config code stays in its buffer

The fields of a loaded file are found without a test of the searches, so the
number of bars decides whether an option can be located at all. The guard lets
an option through for which the default layout has no field. A number is read
from four bytes wherever its field starts. A number is stored through pointers
that were computed before the reallocation: they address the new block only if
it has kept its place, and the rest of the copy is read up to the old size even
if the block has become smaller.

The last search of `get_config_value` computes a length that nothing uses.
-/

namespace Sniffles.Config

open BitSequences CheckedMemory DelimitedFields

/-- How a `realloc` that succeeds provides a block: whether it keeps the address of the old
    one, and what the cells behind the old contents hold. -/
structure Realloc where
  inPlace : Bool
  fresh : Nat → Byte

/-- The cells that the pointers into the old block still address: those of the new block if
    it is in the same place, and none otherwise. -/
def Realloc.addressed (realloc : Realloc) (config : List Byte) (newSize : Nat) : List Byte :=
  if realloc.inPlace then
    (config ++ allocate realloc.fresh (newSize - config.length)).take newSize
  else []

/-- `replaceValue` inside the block that `realloc` has returned. -/
def replaceInBlock (realloc : Realloc) (config : List Byte) (index delimiterIndex : Nat)
    (value : List Byte) : Checked (List Byte) := do
  let length := config.length - delimiterIndex
  let oldValueSize := delimiterIndex - index
  let newSize := config.length - oldValueSize + value.length
  let cells ← writeRange (realloc.addressed config newSize) index value
  let moved ← readRange cells delimiterIndex length
  writeRange cells (index + value.length) moved

/-- `set_config_value` with the block that `realloc` returns. -/
def setInBlock (realloc : Realloc) (config : List Byte) (opt : Int) (value : List Byte) :
    Checked (List Byte) := do
  let index ← stepFields config opt.toNat 0 config.length
  let delimiterIndex ← dereference (memchr config index (config.length - index))
  replaceInBlock realloc config index delimiterIndex value

/-- `set_config_option<int>` with the block that `realloc` returns. -/
def setOptionInBlock (realloc : Realloc) (config : List Byte) (opt : Int) (value : BitVec 32) :
    Checked (List Byte) :=
  if opt > OPTCOUNT then .ok config else setInBlock realloc config opt (wordBytes value)

/-- The file has a bar for each option before this one, and four bytes behind them. -/
def Readable (config : List Byte) (opt : Int) : Prop :=
  ∃ fields tail, config = terminated bar fields ++ tail ∧ (∀ field ∈ fields, bar ∉ field) ∧
    fields.length = opt.toNat ∧ 4 ≤ tail.length

/-- The file has a bar for each option before this one and for the option itself, whose field
    has at most four bytes. -/
def Writable (config : List Byte) (opt : Int) : Prop :=
  ∃ fields field after, config = terminated bar fields ++ (field ++ bar :: after) ∧
    (∀ other ∈ fields, bar ∉ other) ∧ bar ∉ field ∧ fields.length = opt.toNat ∧ field.length ≤ 4

/-- Steps that arrive have skipped one field each. -/
theorem stepFields_split (config : List Byte) (iterations v stop : Nat)
    (stepped : stepFields config iterations v (config.length - v) = .ok stop) :
    skip bar config iterations v = some stop := by
  induction iterations generalizing v with
  | zero =>
    obtain rfl : v = stop := Except.ok.inj stepped
    rfl
  | succ iterations inductionHypothesis =>
    obtain ⟨found, search, rest⟩ := bind_returned stepped
    rw [memchr] at search
    rw [skip]
    cases located : find bar config v (config.length - v) with
    | none =>
      rw [located] at search
      cases search
    | some place =>
      rw [located] at search
      cases search
      exact inductionHypothesis (found + 1) rest

/-- An option is located exactly behind as many fields. -/
theorem getConfigValue_split {config : List Byte} {opt : Int} {start : Nat}
    (located : getConfigValue config opt = .ok start) :
    ∃ fields tail, config = terminated bar fields ++ tail ∧ (∀ field ∈ fields, bar ∉ field) ∧
      fields.length = opt.toNat ∧ start = (terminated bar fields).length := by
  have skipped := stepFields_split config opt.toNat 0 start located
  obtain ⟨fields, tail, split, clean, length, place⟩ := skip_split bar skipped
  rw [Nat.zero_add] at place
  exact ⟨fields, tail, split, clean, length, place⟩

/-- A number is read inside the file exactly when the file is readable for its option. -/
theorem getConfigOption_safe (config : List Byte) (opt : Int) (guarded : opt ≤ OPTCOUNT) :
    Safe (getConfigOption config opt) ↔ Readable config opt := by
  have guard : ¬ opt > OPTCOUNT := Int.not_lt.mpr guarded
  rw [getConfigOption, if_neg guard]
  constructor
  · rintro ⟨_, returned⟩
    obtain ⟨start, located, returned⟩ := bind_returned returned
    obtain ⟨stored, read, _⟩ := bind_returned returned
    obtain ⟨fields, tail, rfl, clean, length, rfl⟩ := getConfigValue_split located
    have room := (readVector_safe 4 _ _).mp ⟨stored, read⟩
    rw [List.length_append] at room
    exact ⟨fields, tail, rfl, clean, length, by omega⟩
  · rintro ⟨fields, tail, rfl, clean, length, room⟩
    have located := getConfigValue_fields fields tail opt length.symm clean
    obtain ⟨stored, read⟩ := (readVector_safe 4 (terminated bar fields ++ tail)
      (terminated bar fields).length).mpr (by rw [List.length_append]; omega)
    rw [located, ok_bind, read]
    exact ⟨_, rfl⟩

/-- A value is stored inside the block exactly when the block has kept its place and the old
    field is not longer. -/
theorem replaceInBlock_safe (realloc : Realloc) (before field after value : List Byte)
    (nonempty : 0 < value.length) :
    Safe (replaceInBlock realloc (before ++ (field ++ bar :: after)) before.length
        (before.length + field.length) value) ↔
      realloc.inPlace = true ∧ field.length ≤ value.length := by
  have size : (before ++ (field ++ bar :: after)).length =
      before.length + field.length + 1 + after.length := by
    simp only [List.length_append, List.length_cons]
    omega
  have block : realloc.inPlace = true →
      ∀ newSize, (realloc.addressed (before ++ (field ++ bar :: after)) newSize).length = newSize := by
    intro placed newSize
    rw [Realloc.addressed, if_pos placed, List.length_take, List.length_append, allocate_length]
    omega
  rw [replaceInBlock]
  constructor
  · rintro ⟨result, returned⟩
    obtain ⟨stored, write, returned⟩ := bind_returned returned
    obtain ⟨moved, read, _⟩ := bind_returned returned
    have roomWrite := (writeRange_safe _ _ _).mp ⟨stored, write⟩
    have roomRead := (readRange_safe _ _ _).mp ⟨moved, read⟩
    rw [writeRange_length write] at roomRead
    by_cases placed : realloc.inPlace = true
    · rw [block placed, size] at roomRead
      exact ⟨placed, by omega⟩
    · rw [Realloc.addressed, if_neg placed, List.length_nil] at roomWrite
      omega
  · rintro ⟨placed, shorter⟩
    have space := block placed
    obtain ⟨stored, write⟩ := (writeRange_safe (realloc.addressed (before ++ (field ++ bar :: after))
      ((before ++ (field ++ bar :: after)).length - (before.length + field.length - before.length) +
        value.length)) value before.length).mpr (by
        rw [space, size]
        omega)
    have kept := writeRange_length write
    rw [space] at kept
    obtain ⟨moved, read⟩ := (readRange_safe stored (before.length + field.length)
      ((before ++ (field ++ bar :: after)).length - (before.length + field.length))).mpr (by
        rw [kept, size]
        omega)
    obtain ⟨result, rewritten⟩ := (writeRange_safe stored moved (before.length + value.length)).mpr (by
      rw [kept, readRange_length read, size]
      omega)
    exact ⟨result, by rw [write, ok_bind, read, ok_bind, rewritten]⟩

/-- A number is stored inside the block exactly when the file is writable for its option and
    the block has kept its place. -/
theorem setOptionInBlock_safe (realloc : Realloc) (config : List Byte) (opt : Int)
    (guarded : opt ≤ OPTCOUNT) (value : BitVec 32) :
    Safe (setOptionInBlock realloc config opt value) ↔
      realloc.inPlace = true ∧ Writable config opt := by
  have guard : ¬ opt > OPTCOUNT := Int.not_lt.mpr guarded
  have four : 0 < (wordBytes value).length := Nat.succ_pos 3
  rw [setOptionInBlock, if_neg guard]
  constructor
  · rintro ⟨result, returned⟩
    obtain ⟨index, located, returned⟩ := bind_returned returned
    obtain ⟨delimiterIndex, search, returned⟩ := bind_returned returned
    obtain ⟨fields, tail, rfl, clean, length, rfl⟩ := getConfigValue_split located
    rw [memchr] at search
    cases found : find bar (terminated bar fields ++ tail) (terminated bar fields).length
        ((terminated bar fields ++ tail).length - (terminated bar fields).length) with
    | none =>
      rw [found] at search
      cases search
    | some place =>
      rw [found] at search
      cases search
      obtain ⟨field, after, split, cleanField, rfl⟩ := find_split bar found
      rw [List.drop_left] at split
      rw [split] at returned
      obtain ⟨placed, short⟩ := (replaceInBlock_safe realloc _ field after _ four).mp
        ⟨result, returned⟩
      exact ⟨placed, fields, field, after, by rw [split], clean, cleanField, length, short⟩
  · rintro ⟨placed, fields, field, after, rfl, clean, cleanField, length, short⟩
    have index := getConfigValue_fields fields (field ++ bar :: after) opt length.symm clean
    have search := find_field bar (terminated bar fields) field after
      ((terminated bar fields ++ (field ++ bar :: after)).length - (terminated bar fields).length)
      cleanField (by simp)
    obtain ⟨result, returned⟩ := (replaceInBlock_safe realloc (terminated bar fields) field after
      (wordBytes value) four).mpr ⟨placed, short⟩
    rw [getConfigValue] at index
    refine ⟨result, ?_⟩
    rw [setInBlock, index, ok_bind, memchr, search, dereference_some, ok_bind, returned]

/-- What has been stored inside the block is what `replaceValue` describes. -/
theorem replaceInBlock_agrees {realloc : Realloc} (placed : realloc.inPlace = true)
    {config value result : List Byte} {index delimiterIndex : Nat}
    (returned : replaceInBlock realloc config index delimiterIndex value = .ok result) :
    replaceValue realloc.fresh config index delimiterIndex value = .ok result := by
  rw [replaceInBlock] at returned
  obtain ⟨stored, write, returned⟩ := bind_returned returned
  obtain ⟨moved, read, rewritten⟩ := bind_returned returned
  have room := (readRange_safe _ _ _).mp ⟨moved, read⟩
  have kept := (writeRange_length rewritten).trans (writeRange_length write)
  rw [writeRange_length write] at room
  generalize sized : config.length - (delimiterIndex - index) + value.length = newSize at *
  rw [Realloc.addressed, if_pos placed] at write room kept
  rw [List.length_take, List.length_append, allocate_length] at room kept
  have whole : (config ++ allocate realloc.fresh (newSize - config.length)).take newSize =
      config ++ allocate realloc.fresh (newSize - config.length) := by
    apply List.take_of_length_le
    rw [List.length_append, allocate_length]
    omega
  rw [whole] at write
  rw [replaceValue]
  simp only [sized]
  rw [write, ok_bind, read, ok_bind, rewritten, ok_bind, List.take_of_length_le (by omega)]

/-- What has been set inside the block is what `setConfigOption` describes. -/
theorem setOptionInBlock_agrees {realloc : Realloc} (placed : realloc.inPlace = true)
    {config result : List Byte} {opt : Int} {value : BitVec 32}
    (returned : setOptionInBlock realloc config opt value = .ok result) :
    setConfigOption realloc.fresh config opt value = .ok result := by
  rw [setOptionInBlock] at returned
  rw [setConfigOption]
  split at returned
  case isTrue guard =>
    rw [if_pos guard]
    exact returned
  case isFalse guard =>
    obtain ⟨index, located, returned⟩ := bind_returned returned
    obtain ⟨delimiterIndex, search, returned⟩ := bind_returned returned
    rw [if_neg guard, setConfigValue, located, ok_bind, search, ok_bind]
    exact replaceInBlock_agrees placed returned

/-- For every file and every option that the guards let through, a number is read inside the
    file exactly when four bytes follow as many bars, and stored inside it exactly when one
    more bar follows within four bytes and the block keeps its place. -/
theorem config_stays_iff (config : List Byte) (opt : Int) (guarded : opt ≤ OPTCOUNT) :
    (Safe (getConfigOption config opt) ↔ Readable config opt) ∧
      ∀ (realloc : Realloc) (value : BitVec 32),
        Safe (setOptionInBlock realloc config opt value) ↔
          realloc.inPlace = true ∧ Writable config opt :=
  ⟨getConfigOption_safe config opt guarded, fun realloc value =>
    setOptionInBlock_safe realloc config opt guarded value⟩

/-- The default file has a device that can be read and a port that can be set. -/
theorem config_stays_default : Safe (getConfigOption gDefaultConfig DEVICE) ∧
    Safe (setOptionInBlock ⟨true, fun _ => 0⟩ gDefaultConfig PORT 27005) :=
  ⟨(config_stays_iff gDefaultConfig DEVICE (by decide)).1.mpr
      ⟨[], gDefaultConfig, rfl, by decide, rfl, by decide⟩,
    ((config_stays_iff gDefaultConfig PORT (by decide)).2 ⟨true, fun _ => 0⟩ 27005).mpr
      ⟨rfl, [wordBytes 2], wordBytes 27015, thirdField ++ [bar, 0x00], by decide, by decide,
        by decide, rfl, by decide⟩⟩

/-- In a file without a bar the port is searched from the address behind null. -/
theorem barless_file_leaves : ¬ ∀ (config : List Byte) (opt : Int), 0 ≤ opt → opt ≤ OPTCOUNT →
    Safe (getConfigOption config opt) ∧ ∀ (realloc : Realloc) (value : BitVec 32),
      Safe (setOptionInBlock realloc config opt value) := by
  intro holds
  obtain ⟨⟨result, returned⟩, _⟩ := holds [0x41] PORT (by decide) (by decide)
  have outside : getConfigOption [0x41] PORT = .error .nullDereference := by decide
  rw [outside] at returned
  cases returned

end Sniffles.Config
