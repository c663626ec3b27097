import Sniffles.ConfigRuns

/-!
# Replacing one field

`set_config_value` stores the new value before it moves the rest of the copy.
A value that is not longer than the old one ends before the rest, which is then
moved unchanged: exactly the named field is replaced, the others are found as
before, and replacements of different fields commute. A longer value overwrites
the delimiter first, so the delimiter is lost.
-/

namespace Sniffles.Config

open BitSequences CheckedMemory DelimitedFields

/-- The copy that replacing one field leaves. -/
def edited (fields : List (List Byte)) (tail : List Byte) (opt : Nat) (value : List Byte) :
    List Byte :=
  terminated bar (fields.set opt value) ++ tail

/-- Setting a value replaces exactly the named field: the size is that of the new copy, and
    every other field is found in it. -/
structure Replaced (fresh : Nat → Byte) (fields : List (List Byte)) (tail : List Byte) (opt : Nat)
    (value : List Byte) : Prop where
  exact : setConfigValue fresh (terminated bar fields ++ tail) opt value =
    .ok (edited fields tail opt value)
  others : ∀ other, other ≠ opt → ∀ field, fields[other]? = some field →
    fieldBytes (edited fields tail opt value) other = .ok field

/-- Setting two values in either order leaves the same copy. -/
def Commuting (fresh other : Nat → Byte) (config : List Byte) (first second : Nat)
    (value last : List Byte) : Prop :=
  (setConfigValue fresh config first value >>= fun config =>
      setConfigValue other config second last) =
    (setConfigValue other config second last >>= fun config =>
      setConfigValue fresh config first value)

/-- A value without bars leaves fields without bars. -/
theorem edited_clean (fields : List (List Byte)) (clean : ∀ field ∈ fields, bar ∉ field) (opt : Nat)
    (value : List Byte) (cleanValue : bar ∉ value) :
    ∀ field ∈ fields.set opt value, bar ∉ field := by
  intro field member
  rcases List.mem_or_eq_of_mem_set member with old | rfl
  · exact clean field old
  · exact cleanValue

/-- A named field has no bar inside, as those before it, and its option counts them. -/
theorem named_field {fields : List (List Byte)} (clean : ∀ field ∈ fields, bar ∉ field) {opt : Nat}
    {field : List Byte} (named : fields[opt]? = some field) :
    (opt : Int).toNat = (fields.take opt).length ∧ (∀ other ∈ fields.take opt, bar ∉ other) ∧
      bar ∉ field := by
  obtain ⟨inside, member⟩ := List.getElem?_eq_some_iff.mp named
  refine ⟨?_, fun other taken => clean other (List.mem_of_mem_take taken),
    clean field (member ▸ List.getElem_mem inside)⟩
  rw [List.length_take, Int.toNat_natCast, Nat.min_eq_left (Nat.le_of_lt inside)]

/-- A value that is not longer than the named field replaces it. -/
theorem setConfigValue_edits (fresh : Nat → Byte) (fields : List (List Byte)) (tail : List Byte)
    (clean : ∀ field ∈ fields, bar ∉ field) (opt : Nat) (field : List Byte)
    (named : fields[opt]? = some field) (value : List Byte) (shorter : value.length ≤ field.length) :
    setConfigValue fresh (terminated bar fields ++ tail) opt value =
      .ok (edited fields tail opt value) := by
  obtain ⟨placed, cleanBefore, cleanField⟩ := named_field clean named
  obtain ⟨inside, _⟩ := List.getElem?_eq_some_iff.mp named
  have replaced := setConfigValue_replaces fresh (fields.take opt) field
    (terminated bar (fields.drop (opt + 1)) ++ tail) value opt placed cleanBefore cleanField shorter
  rw [edited, terminated_set bar fields value opt inside, terminated_split bar fields field opt named]
  simpa only [List.append_assoc, List.cons_append] using replaced

/-- Every field of a copy without bars inside is found. -/
theorem fieldBytes_named (fields : List (List Byte)) (tail : List Byte)
    (clean : ∀ field ∈ fields, bar ∉ field) (opt : Nat) (field : List Byte)
    (named : fields[opt]? = some field) :
    fieldBytes (terminated bar fields ++ tail) opt = .ok field := by
  obtain ⟨placed, cleanBefore, cleanField⟩ := named_field clean named
  have found := fieldBytes_field (fields.take opt) field
    (terminated bar (fields.drop (opt + 1)) ++ tail) opt placed cleanBefore cleanField
  rw [terminated_split bar fields field opt named]
  simpa only [List.append_assoc, List.cons_append] using found

/-- A longer value without bars leaves one of its own bytes where the delimiter belongs. -/
theorem replaceValue_longer (fresh : Nat → Byte) (before field after value : List Byte)
    (longer : field.length < value.length) (cleanValue : bar ∉ value) :
    replaceValue fresh (before ++ (field ++ bar :: after)) before.length
        (before.length + field.length) value ≠
      .ok (before ++ (value ++ bar :: after)) := by
  intro replaced
  rw [replaceValue] at replaced
  obtain ⟨stored, write, replaced⟩ := bind_returned replaced
  obtain ⟨moved, read, replaced⟩ := bind_returned replaced
  obtain ⟨joined, rewrite, replaced⟩ := bind_returned replaced
  have size : (before ++ (field ++ bar :: after)).length =
      before.length + field.length + 1 + after.length := by
    simp only [List.length_append, List.length_cons]
    omega
  have count := readRange_length read
  rw [size] at count
  have expected : (before ++ (value ++ bar :: after))[before.length + value.length]? = some bar := by
    rw [List.getElem?_append_right (by omega), List.getElem?_append_right (by omega)]
    simp
  have copied : joined[before.length + value.length]? = value[field.length]? := by
    rw [writeRange_get rewrite, if_pos (by omega), Nat.sub_self,
      readRange_get read 0 (by rw [size]; omega), Nat.add_zero, writeRange_get write,
      if_pos (by omega), Nat.add_sub_cancel_left]
  rw [← Except.ok.inj replaced, List.getElem?_take_of_lt (by rw [size]; omega), copied,
    List.getElem?_eq_getElem longer] at expected
  exact cleanValue (Option.some.inj expected ▸ List.getElem_mem longer)

/-- A longer value does not replace the named field. -/
theorem setConfigValue_longer (fresh : Nat → Byte) (fields : List (List Byte)) (tail : List Byte)
    (clean : ∀ field ∈ fields, bar ∉ field) (opt : Nat) (field : List Byte)
    (named : fields[opt]? = some field) (value : List Byte) (cleanValue : bar ∉ value)
    (longer : field.length < value.length) :
    setConfigValue fresh (terminated bar fields ++ tail) opt value ≠
      .ok (edited fields tail opt value) := by
  obtain ⟨placed, cleanBefore, cleanField⟩ := named_field clean named
  obtain ⟨inside, _⟩ := List.getElem?_eq_some_iff.mp named
  have index := getConfigValue_fields (fields.take opt)
    (field ++ bar :: (terminated bar (fields.drop (opt + 1)) ++ tail)) opt placed cleanBefore
  have search := find_field bar (terminated bar (fields.take opt)) field
    (terminated bar (fields.drop (opt + 1)) ++ tail)
    ((terminated bar (fields.take opt) ++ (field ++ bar ::
      (terminated bar (fields.drop (opt + 1)) ++ tail))).length -
        (terminated bar (fields.take opt)).length)
    cleanField (by simp)
  have differs := replaceValue_longer fresh (terminated bar (fields.take opt)) field
    (terminated bar (fields.drop (opt + 1)) ++ tail) value longer cleanValue
  rw [edited, terminated_set bar fields value opt inside, terminated_split bar fields field opt named]
  simp only [List.append_assoc, List.cons_append]
  rw [getConfigValue] at index
  rw [setConfigValue, index, ok_bind, memchr, search, dereference_some, ok_bind]
  exact differs

/-- Exactly the values that are not longer than the named field replace it. -/
theorem replaced_iff (fresh : Nat → Byte) (fields : List (List Byte)) (tail : List Byte)
    (clean : ∀ field ∈ fields, bar ∉ field) (opt : Nat) (field : List Byte)
    (named : fields[opt]? = some field) (value : List Byte) (cleanValue : bar ∉ value) :
    Replaced fresh fields tail opt value ↔ value.length ≤ field.length := by
  constructor
  · intro replaced
    by_contra longer
    exact setConfigValue_longer fresh fields tail clean opt field named value cleanValue
      (Nat.not_le.mp longer) replaced.exact
  · intro shorter
    refine ⟨setConfigValue_edits fresh fields tail clean opt field named value shorter, ?_⟩
    intro other distinct found there
    have kept : (fields.set opt value)[other]? = some found := by
      rw [List.getElem?_set_ne (Ne.symm distinct)]
      exact there
    exact fieldBytes_named _ tail (edited_clean fields clean opt value cleanValue) other found kept

/-- Values that replace different fields can be set in either order. -/
theorem replacements_commute (fresh other : Nat → Byte) (fields : List (List Byte))
    (tail : List Byte) (clean : ∀ field ∈ fields, bar ∉ field) (first second : Nat)
    (distinct : first ≠ second) (field rest : List Byte) (named : fields[first]? = some field)
    (namedRest : fields[second]? = some rest) (value last : List Byte) (cleanValue : bar ∉ value)
    (cleanLast : bar ∉ last) (shorter : value.length ≤ field.length)
    (shorterLast : last.length ≤ rest.length) :
    Commuting fresh other (terminated bar fields ++ tail) first second value last := by
  have here := setConfigValue_edits fresh fields tail clean first field named value shorter
  have there := setConfigValue_edits other fields tail clean second rest namedRest last shorterLast
  have thereAfter := setConfigValue_edits other (fields.set first value) tail
    (edited_clean fields clean first value cleanValue) second rest
    ((List.getElem?_set_ne distinct).trans namedRest) last shorterLast
  have hereAfter := setConfigValue_edits fresh (fields.set second last) tail
    (edited_clean fields clean second last cleanLast) first field
    ((List.getElem?_set_ne (Ne.symm distinct)).trans named) value shorter
  rw [Commuting, here, there, ok_bind, ok_bind, edited, edited, thereAfter, hereAfter, edited, edited,
    List.set_comm _ _ distinct]

/-- For every copy that is a sequence of fields with any tail and for all values without
    bars, setting a value replaces exactly the named field exactly when the value is not
    longer than it; and two values for different fields do so and can be set in either
    order exactly when neither is longer. -/
theorem field_replaced_iff (fields : List (List Byte)) (tail : List Byte)
    (clean : ∀ field ∈ fields, bar ∉ field) :
    (∀ (fresh : Nat → Byte) (opt : Nat) (field value : List Byte), fields[opt]? = some field →
      bar ∉ value → (Replaced fresh fields tail opt value ↔ value.length ≤ field.length)) ∧
    ∀ (fresh other : Nat → Byte) (first second : Nat) (field rest value last : List Byte),
      first ≠ second → fields[first]? = some field → fields[second]? = some rest →
      bar ∉ value → bar ∉ last →
      (Replaced fresh fields tail first value ∧ Replaced other fields tail second last ∧
          Commuting fresh other (terminated bar fields ++ tail) first second value last ↔
        value.length ≤ field.length ∧ last.length ≤ rest.length) := by
  constructor
  · intro fresh opt field value named cleanValue
    exact replaced_iff fresh fields tail clean opt field named value cleanValue
  · intro fresh other first second field rest value last distinct named namedRest cleanValue cleanLast
    rw [replaced_iff fresh fields tail clean first field named value cleanValue,
      replaced_iff other fields tail clean second rest namedRest last cleanLast]
    constructor
    · rintro ⟨shorter, shorterLast, _⟩
      exact ⟨shorter, shorterLast⟩
    · rintro ⟨shorter, shorterLast⟩
      exact ⟨shorter, shorterLast, replacements_commute fresh other fields tail clean first second
        distinct field rest named namedRest value last cleanValue cleanLast shorter shorterLast⟩

/-- Two bytes over a field of three, in a copy with a tail. -/
theorem field_replaced_shorter :
    Replaced (fun _ => 0) [[0x41, 0x42, 0x43], [0x44]] [0x00] 0 [0x45, 0x46] :=
  ((field_replaced_iff [[0x41, 0x42, 0x43], [0x44]] [0x00] (by decide)).1 (fun _ => 0) 0
    [0x41, 0x42, 0x43] [0x45, 0x46] rfl (by decide)).mpr (by decide)

/-- Two bytes over a field of one: the delimiter is overwritten before it is moved. -/
theorem longer_value_overlaps : ¬ ∀ (fresh : Nat → Byte) (fields : List (List Byte))
    (tail : List Byte), (∀ field ∈ fields, bar ∉ field) → ∀ opt < fields.length, ∀ value : List Byte,
      bar ∉ value → Replaced fresh fields tail opt value := by
  intro holds
  have replaced := holds (fun _ => 0) [[0x41], [0x42]] [] (by decide) 0 (by decide) [0x43, 0x44]
    (by decide)
  have outcome : setConfigValue (fun _ => 0) (terminated bar [[0x41], [0x42]] ++ []) (0 : Nat)
      [0x43, 0x44] = .ok [0x43, 0x44, 0x44, 0x42, 0x7C] := by decide
  have exact := replaced.exact
  rw [outcome] at exact
  exact absurd exact (by decide)

end Sniffles.Config
