import Sniffles.Foundations.TaggedRecords
import Mathlib.Data.List.FinRange
import Mathlib.Data.List.Induction
import Mathlib.Logic.Function.Basic

/-!
# Messages over tagged records

A layout is an ordered list of fields with distinct numbers. A message holds the
values stored in each field and the records that belong to no field. It absorbs a
record by storing its value in the field with the record's tag, if there is one:
a repeated field keeps all values in their order, any other field the last one. A
record whose number belongs to a field but whose wire type does not is kept with
the unknown ones.

Absorbing the records that list a message reproduces the message, and absorbing
two sequences one after the other merges the messages that they list.
-/

namespace RecordLayouts

open BitSequences TaggedRecords

/-- The declared type of a field. -/
inductive Kind where
  | uint32
  | int32
  | uint64
  | bool
  | fixed32
  | float
  | string
  | bytes
  deriving DecidableEq, Repr

/-- The values of a field. A floating-point number is given by its bits. -/
abbrev Kind.Value : Kind → Type
  | .uint32 | .int32 | .fixed32 | .float => BitVec 32
  | .uint64 => BitVec 64
  | .bool => Bool
  | .string | .bytes => List Byte

def Kind.wireType : Kind → BitVec 3
  | .uint32 | .int32 | .uint64 | .bool => varintType
  | .fixed32 | .float => fixed32Type
  | .string | .bytes => delimitedType

/-- The record that carries a value. A negative signed number is extended to 64 bits. -/
def Kind.record (number : BitVec 29) : (kind : Kind) → kind.Value → Record
  | .uint32, value => .varint number (value.setWidth 64)
  | .int32, value => .varint number (value.signExtend 64)
  | .uint64, value => .varint number value
  | .bool, value => .varint number (if value then 1 else 0)
  | .fixed32, value => .fixed32 number value
  | .float, value => .fixed32 number value
  | .string, text => .delimited number text
  | .bytes, text => .delimited number text

/-- The value that a record carries, if its payload is of the right wire type. A
    number of 64 bits is cut to 32 bits, also before it is compared with zero. -/
def Kind.decode : (kind : Kind) → Record → Option kind.Value
  | .uint32, .varint _ value => some (value.setWidth 32)
  | .int32, .varint _ value => some (value.setWidth 32)
  | .uint64, .varint _ value => some value
  | .bool, .varint _ value => some (decide (value.setWidth 32 ≠ 0))
  | .fixed32, .fixed32 _ value => some value
  | .float, .fixed32 _ value => some value
  | .string, .delimited _ text => some text
  | .bytes, .delimited _ text => some text
  | _, _ => none

structure Field where
  name : String
  number : BitVec 29
  kind : Kind
  repeated : Bool
  deriving DecidableEq, Repr

def Field.tag (field : Field) : BitVec 32 := makeTag field.number field.kind.wireType

/-- Fields in the order of their listing. -/
structure Layout where
  fields : List Field
  distinct : (fields.map Field.number).Nodup
  positive : ∀ field ∈ fields, field.number ≠ 0

namespace Layout

abbrev Index (layout : Layout) : Type := Fin layout.fields.length

abbrev field (layout : Layout) (index : layout.Index) : Field := layout.fields.get index

/-- The field with a number. -/
def withNumber (layout : Layout) (number : BitVec 29) : Option layout.Index :=
  (List.finRange layout.fields.length).find? fun index => (layout.field index).number = number

/-- The field with a tag. -/
def withTag (layout : Layout) (tag : BitVec 32) : Option layout.Index :=
  (List.finRange layout.fields.length).find? fun index => (layout.field index).tag = tag

variable (layout : Layout)

/-- Fields with one number are the same. -/
theorem number_injective {first second : layout.Index}
    (same : (layout.field first).number = (layout.field second).number) : first = second := by
  have positions := List.nodup_iff_injective_get.mp layout.distinct
  have left : first.val < (layout.fields.map Field.number).length := by
    rw [List.length_map]
    exact first.isLt
  have right : second.val < (layout.fields.map Field.number).length := by
    rw [List.length_map]
    exact second.isLt
  have equal : (⟨first, left⟩ : Fin (layout.fields.map Field.number).length) = ⟨second, right⟩ := by
    apply positions
    simpa using same
  exact Fin.ext (Fin.mk.inj_iff.mp equal)

/-- Fields with one tag are the same. -/
theorem tag_injective {first second : layout.Index}
    (same : (layout.field first).tag = (layout.field second).tag) : first = second :=
  layout.number_injective (makeTag_injective same).1

/-- A field is found by its number. -/
theorem withNumber_iff (number : BitVec 29) (index : layout.Index) :
    layout.withNumber number = some index ↔ (layout.field index).number = number := by
  constructor
  · intro found
    have matched := List.find?_some found
    exact of_decide_eq_true matched
  · intro numbered
    obtain ⟨other, found⟩ : ∃ other, layout.withNumber number = some other := by
      apply Option.isSome_iff_exists.mp
      rw [withNumber, List.find?_isSome]
      exact ⟨index, List.mem_finRange index, decide_eq_true numbered⟩
    have matched := List.find?_some found
    have same : (layout.field other).number = number := of_decide_eq_true matched
    rw [found, layout.number_injective (same.trans numbered.symm)]

/-- A field is found by its tag. -/
theorem withTag_iff (tag : BitVec 32) (index : layout.Index) :
    layout.withTag tag = some index ↔ (layout.field index).tag = tag := by
  constructor
  · intro found
    have matched := List.find?_some found
    exact of_decide_eq_true matched
  · intro tagged
    obtain ⟨other, found⟩ : ∃ other, layout.withTag tag = some other := by
      apply Option.isSome_iff_exists.mp
      rw [withTag, List.find?_isSome]
      exact ⟨index, List.mem_finRange index, decide_eq_true tagged⟩
    have matched := List.find?_some found
    have same : (layout.field other).tag = tag := of_decide_eq_true matched
    rw [found, layout.tag_injective (same.trans tagged.symm)]

/-- No field has the tag. -/
theorem withTag_none_iff (tag : BitVec 32) :
    layout.withTag tag = none ↔ ∀ index, (layout.field index).tag ≠ tag := by
  constructor
  · intro none index tagged
    rw [(layout.withTag_iff tag index).mpr tagged] at none
    cases none
  · intro others
    cases found : layout.withTag tag with
    | none => rfl
    | some index => exact absurd ((layout.withTag_iff tag index).mp found) (others index)

/-- No field has the tag zero. -/
theorem withTag_zero : layout.withTag 0 = none := by
  rw [withTag_none_iff]
  intro index zero
  have value := congrArg BitVec.toNat zero
  rw [Field.tag, makeTag_toNat] at value
  apply layout.positive (layout.field index) (List.get_mem _ _)
  apply BitVec.eq_of_toNat_eq
  simp only [BitVec.ofNat_eq_ofNat, BitVec.toNat_ofNat] at value ⊢
  omega

theorem tag_nonzero (index : layout.Index) : (layout.field index).tag ≠ 0 := by
  intro zero
  have absent := layout.withTag_zero
  rw [(layout.withTag_iff 0 index).mpr zero] at absent
  cases absent

end Layout

/-- The values of the fields and the records of no field. Only a repeated field holds more
    than one value. -/
structure Message (layout : Layout) where
  contents : (index : layout.Index) → List (layout.field index).kind.Value
  single : ∀ index, (layout.field index).repeated = false → (contents index).length ≤ 1
  unknown : List Record

namespace Message

variable {layout : Layout}

/-- Messages with the same values and the same unknown records are equal. -/
theorem same {first second : Message layout} (values : first.contents = second.contents)
    (others : first.unknown = second.unknown) : first = second := by
  cases first
  cases second
  cases values
  cases others
  rfl

def empty (layout : Layout) : Message layout where
  contents _ := []
  single _ _ := Nat.zero_le 1
  unknown := []

/-- No unknown record has the tag of a field. -/
def Foreign (message : Message layout) : Prop :=
  ∀ record ∈ message.unknown, layout.withTag record.tag = none

/-- What a field holds after further values. -/
def joined {Value : Type} (repeated : Bool) (held further : List Value) : List Value :=
  if repeated then held ++ further else ((held ++ further).getLast?).toList

/-- Store a value in a field. -/
def store (message : Message layout) (index : layout.Index)
    (value : (layout.field index).kind.Value) : Message layout :=
  { message with
    contents := Function.update message.contents index
      (joined (layout.field index).repeated (message.contents index) [value])
    single := by
      intro other optional
      by_cases here : other = index
      · subst here
        rw [Function.update_self, joined, optional]
        simp
      · rw [Function.update_of_ne here]
        exact message.single other optional }

/-- Keep a record with the unknown ones. -/
def keep (message : Message layout) (record : Record) : Message layout :=
  { message with unknown := message.unknown ++ [record] }

/-- Take in one record. -/
def absorb (message : Message layout) (record : Record) : Message layout :=
  match layout.withTag record.tag with
  | none => message.keep record
  | some index =>
    match (layout.field index).kind.decode record with
    | some value => message.store index value
    | none => message

def absorbAll (message : Message layout) (records : List Record) : Message layout :=
  records.foldl absorb message

/-- The records that list a message: its fields in order, then the unknown ones. -/
def records (message : Message layout) : List Record :=
  (List.finRange layout.fields.length).flatMap
      (fun index => (message.contents index).map
        ((layout.field index).kind.record (layout.field index).number)) ++ message.unknown

/-- Every value of the other message as well: all of a repeated field, the later one of
    any other field. -/
def mergeFrom (message from_ : Message layout) : Message layout where
  contents index :=
    joined (layout.field index).repeated (message.contents index) (from_.contents index)
  single index optional := by
    rw [joined, optional]
    simp only [Bool.false_eq_true, if_false]
    cases (message.contents index ++ from_.contents index).getLast? <;> simp
  unknown := message.unknown ++ from_.unknown

end Message

/-- The record of a value has the tag of its field. -/
theorem Kind.record_tag (number : BitVec 29) (kind : Kind) (value : kind.Value) :
    (kind.record number value).tag = makeTag number kind.wireType := by
  cases kind <;> rfl

/-- The record of a value carries that value. -/
theorem Kind.decode_record (number : BitVec 29) (kind : Kind) (value : kind.Value) :
    kind.decode (kind.record number value) = some value := by
  cases kind with
  | uint32 =>
    rw [record, decode, Option.some.injEq]
    apply BitVec.eq_of_toNat_eq
    have small := value.isLt
    rw [BitVec.toNat_setWidth, BitVec.toNat_setWidth]
    omega
  | int32 =>
    rw [record, decode, Option.some.injEq]
    apply BitVec.eq_of_getLsbD_eq
    intro index inside
    have wide : index < 64 := by omega
    rw [BitVec.getLsbD_setWidth, BitVec.getLsbD_signExtend, decide_eq_true inside,
      decide_eq_true wide, Bool.true_and, Bool.true_and, if_pos inside]
  | bool => cases value <;> rfl
  | _ => rfl

/-- A record with the tag of a field carries a value of it. -/
theorem Kind.decode_tagged (number : BitVec 29) (kind : Kind) (record : Record)
    (tagged : makeTag number kind.wireType = record.tag) : ∃ value, kind.decode record = some value := by
  cases record <;> have type := (makeTag_injective tagged).2 <;> cases kind <;>
    first
      | exact ⟨_, rfl⟩
      | exact absurd type (by decide)

/-- A value that a record carries can be spelled again. -/
theorem Kind.record_sound (number : BitVec 29) (nonzero : number ≠ 0) (kind : Kind)
    (value : kind.Value) (record : Record) (sound : record.Sound)
    (carried : kind.decode record = some value) :
    (kind.record number value).Sound ∧ (kind.record number value).depth = 0 := by
  cases kind with
  | uint32 | int32 | uint64 | bool => exact ⟨nonzero, rfl⟩
  | fixed32 | float => exact ⟨trivial, rfl⟩
  | string | bytes =>
    cases record with
    | delimited number text =>
      cases carried
      exact ⟨sound, rfl⟩
    | _ => cases carried

namespace Message

variable {layout : Layout}

theorem joined_nil {Value : Type} (repeated : Bool) (held : List Value)
    (single : repeated = false → held.length ≤ 1) : joined repeated held [] = held := by
  cases repeated with
  | true => simp [joined]
  | false =>
    match held, single rfl with
    | [], _ => rfl
    | [value], _ => rfl

/-- Values may be added in several portions. -/
theorem joined_joined {Value : Type} (repeated : Bool) (held first second : List Value) :
    joined repeated (joined repeated held first) second = joined repeated held (first ++ second) := by
  cases repeated with
  | true => simp [joined]
  | false =>
    cases second using List.reverseRecOn with
    | nil =>
      simp only [joined, Bool.false_eq_true, if_false, List.append_nil]
      cases (held ++ first).getLast? <;> rfl
    | append_singleton second last => simp [joined, ← List.append_assoc]

/-- The values that some records bring to a field. -/
def brought (layout : Layout) (records : List Record) (index : layout.Index) :
    List (layout.field index).kind.Value :=
  records.filterMap fun record =>
    if (layout.field index).tag = record.tag then (layout.field index).kind.decode record else none

/-- The records of no field. -/
def strange (layout : Layout) (records : List Record) : List Record :=
  records.filter fun record => layout.withTag record.tag = none

/-- What one record does to a field. -/
theorem absorb_contents (message : Message layout) (record : Record) (index : layout.Index) :
    (message.absorb record).contents index =
      joined (layout.field index).repeated (message.contents index) (brought layout [record] index) := by
  have unchanged := joined_nil _ (message.contents index) (message.single index)
  rw [absorb]
  split
  case h_1 none =>
    have other := (layout.withTag_none_iff record.tag).mp none index
    simp only [brought, List.filterMap_cons, List.filterMap_nil, if_neg other, unchanged]
    rfl
  case h_2 place found =>
    have tagged := (layout.withTag_iff record.tag place).mp found
    obtain ⟨value, carried⟩ := Kind.decode_tagged _ _ record tagged
    rw [carried]
    by_cases here : index = place
    · subst here
      simp only [brought, List.filterMap_cons, List.filterMap_nil, if_pos tagged, carried, store,
        Function.update_self]
    · have other : (layout.field index).tag ≠ record.tag := fun same =>
        here (layout.tag_injective (same.trans tagged.symm))
      simp only [brought, List.filterMap_cons, List.filterMap_nil, if_neg other, unchanged, store,
        Function.update_of_ne here]

/-- What one record does to the unknown records. -/
theorem absorb_unknown (message : Message layout) (record : Record) :
    (message.absorb record).unknown = message.unknown ++ strange layout [record] := by
  rw [absorb]
  split
  case h_1 none => simp [strange, none, keep]
  case h_2 place found =>
    have tagged := (layout.withTag_iff record.tag place).mp found
    obtain ⟨value, carried⟩ := Kind.decode_tagged _ _ record tagged
    rw [carried]
    simp [strange, found, store]

/-- What a sequence of records does to a message. Induct over the records; each one joins
    what it brings to what the earlier ones left. -/
theorem absorbAll_parts (message : Message layout) (records : List Record) :
    (∀ index, (message.absorbAll records).contents index =
      joined (layout.field index).repeated (message.contents index) (brought layout records index)) ∧
    (message.absorbAll records).unknown = message.unknown ++ strange layout records := by
  induction records generalizing message with
  | nil =>
    refine ⟨fun index => ?_, (List.append_nil _).symm⟩
    exact (joined_nil _ (message.contents index) (message.single index)).symm
  | cons record records inductionHypothesis =>
    obtain ⟨values, others⟩ := inductionHypothesis (message.absorb record)
    have step : message.absorbAll (record :: records) =
        (message.absorb record).absorbAll records := rfl
    rw [step]
    constructor
    · intro index
      have split : brought layout (record :: records) index =
          brought layout [record] index ++ brought layout records index := by
        simp only [brought, ← List.filterMap_append, List.singleton_append]
      rw [values, absorb_contents, joined_joined, split]
    · have split : strange layout (record :: records) =
          strange layout [record] ++ strange layout records := by
        simp only [strange, ← List.filter_append, List.singleton_append]
      rw [others, absorb_unknown, List.append_assoc, split]

/-- A message that was put together from records keeps no record of a field as unknown. -/
theorem absorbAll_foreign (records : List Record) : ((empty layout).absorbAll records).Foreign := by
  intro record member
  rw [(absorbAll_parts (empty layout) records).2] at member
  have filtered : record ∈ strange layout records := member
  exact of_decide_eq_true (List.mem_filter.mp filtered).2

/-- A value that was put together comes from a record of its field. -/
theorem absorbAll_origin (records : List Record) (index : layout.Index)
    (value : (layout.field index).kind.Value)
    (member : value ∈ ((empty layout).absorbAll records).contents index) :
    ∃ record ∈ records, (layout.field index).kind.decode record = some value := by
  rw [(absorbAll_parts (empty layout) records).1 index] at member
  have brought : value ∈ brought layout records index := by
    rw [joined] at member
    split at member
    case isTrue => exact member
    case isFalse =>
      rw [Option.mem_toList] at member
      exact List.mem_of_getLast? member
  obtain ⟨record, inside, carried⟩ := List.mem_filterMap.mp brought
  split at carried
  case isTrue => exact ⟨record, inside, carried⟩
  case isFalse => cases carried

/-- The records that list a message are sound and as flat as those that it was put together
    from. -/
theorem absorbAll_sound (records : List Record) (depth : Nat) (sound : RecordsSound records)
    (shallow : recordsDepth records ≤ depth) :
    RecordsSound ((empty layout).absorbAll records).records ∧
      recordsDepth ((empty layout).absorbAll records).records ≤ depth := by
  rw [recordsSound_iff] at sound ⊢
  rw [recordsDepth_le_iff] at shallow ⊢
  have each (record : Record) (member : record ∈ ((empty layout).absorbAll records).records) :
      record.Sound ∧ record.depth ≤ depth := by
    rcases List.mem_append.mp member with known | strange
    · obtain ⟨index, -, inside⟩ := List.mem_flatMap.mp known
      obtain ⟨value, held, rfl⟩ := List.mem_map.mp inside
      obtain ⟨origin, among, carried⟩ := absorbAll_origin records index value held
      obtain ⟨one, flat⟩ := Kind.record_sound (layout.field index).number
        (layout.positive _ (List.get_mem layout.fields index)) _ value origin (sound origin among)
          carried
      exact ⟨one, by omega⟩
    · rw [(absorbAll_parts (empty layout) records).2] at strange
      have among := (List.mem_filter.mp strange).1
      exact ⟨sound record among, shallow record among⟩
  exact ⟨fun record member => (each record member).1, fun record member => (each record member).2⟩

/-- Merging what two portions leave is joining both of them. -/
theorem joined_portions {Value : Type} (repeated : Bool) (first second : List Value) :
    joined repeated (joined repeated [] first) (joined repeated [] second) =
      joined repeated [] (first ++ second) := by
  rw [← joined_joined]
  cases repeated with
  | true => simp [joined]
  | false =>
    cases second using List.reverseRecOn with
    | nil => rfl
    | append_singleton second last => simp [joined, ← List.append_assoc]

/-- Absorbing two sequences one after the other merges the messages that they list. -/
theorem absorbAll_append (first second : List Record) :
    (empty layout).absorbAll (first ++ second) =
      ((empty layout).absorbAll first).mergeFrom ((empty layout).absorbAll second) := by
  obtain ⟨wholeValues, wholeOthers⟩ := absorbAll_parts (empty layout) (first ++ second)
  obtain ⟨firstValues, firstOthers⟩ := absorbAll_parts (empty layout) first
  obtain ⟨secondValues, secondOthers⟩ := absorbAll_parts (empty layout) second
  apply same
  · funext index
    have joint : brought layout (first ++ second) index =
        brought layout first index ++ brought layout second index := by
      simp only [brought, List.filterMap_append]
    have merged : (((empty layout).absorbAll first).mergeFrom
        ((empty layout).absorbAll second)).contents index =
          joined (layout.field index).repeated (joined (layout.field index).repeated []
            (brought layout first index)) (joined (layout.field index).repeated []
              (brought layout second index)) :=
      congrArg₂ (joined _) (firstValues index) (secondValues index)
    rw [merged, wholeValues, joint, joined_portions]
    rfl
  · have joint : strange layout (first ++ second) = strange layout first ++ strange layout second := by
      simp only [strange, List.filter_append]
    have merged : (((empty layout).absorbAll first).mergeFrom
        ((empty layout).absorbAll second)).unknown = strange layout first ++ strange layout second :=
      congrArg₂ (· ++ ·) firstOthers secondOthers
    rw [merged, wholeOthers, joint]
    rfl

/-- When only one place contributes, the whole is what that place contributes. Induct over
    the places; the one that contributes occurs once. -/
theorem flatMap_only {Place Value : Type} (places : List Place) (only : Place)
    (contribution : Place → List Value) (distinct : places.Nodup) (member : only ∈ places)
    (others : ∀ place, place ≠ only → contribution place = []) :
    places.flatMap contribution = contribution only := by
  induction places with
  | nil => cases member
  | cons place places inductionHypothesis =>
    obtain ⟨absent, distinct⟩ := List.nodup_cons.mp distinct
    rw [List.flatMap_cons]
    rcases List.mem_cons.mp member with rfl | behind
    · have nothing : places.flatMap contribution = [] := by
        rw [List.flatMap_eq_nil_iff]
        exact fun other inside => others other fun same => absent (same ▸ inside)
      rw [nothing, List.append_nil]
    · have apart : place ≠ only := fun same => absent (same ▸ behind)
      rw [others place apart, List.nil_append, inductionHypothesis distinct behind]

/-- The values that the records of a message bring to a field are those it holds. -/
theorem brought_records (message : Message layout) (foreign : message.Foreign)
    (index : layout.Index) :
    brought layout message.records index = message.contents index := by
  let written (place : layout.Index) : List Record :=
    (message.contents place).map
      ((layout.field place).kind.record (layout.field place).number)
  have tagged (place : layout.Index) : ∀ record ∈ written place,
      record.tag = (layout.field place).tag := by
    intro record member
    obtain ⟨value, -, rfl⟩ := List.mem_map.mp member
    exact Kind.record_tag _ _ value
  have elsewhere : ∀ place, place ≠ index →
      brought layout (written place) index = [] := by
    intro place apart
    rw [brought, List.filterMap_eq_nil_iff]
    intro record member
    exact if_neg fun same => apart (layout.tag_injective (same.trans (tagged place _ member)).symm)
  have here : brought layout (written index) index = message.contents index := by
    have each : ∀ value ∈ message.contents index,
        ((fun record => if (layout.field index).tag = record.tag then
          (layout.field index).kind.decode record else none) ∘
            (layout.field index).kind.record (layout.field index).number) value = some value := by
      intro value _
      have matched : (layout.field index).tag =
          ((layout.field index).kind.record (layout.field index).number value).tag :=
        (Kind.record_tag _ _ value).symm
      rw [Function.comp_apply, if_pos matched, Kind.decode_record]
    rw [brought, List.filterMap_map, List.filterMap_congr each, List.filterMap_some]
  have outside : brought layout message.unknown index = [] := by
    rw [brought, List.filterMap_eq_nil_iff]
    intro record member
    exact if_neg ((layout.withTag_none_iff record.tag).mp (foreign record member) index)
  have spread : brought layout message.records index =
      (List.finRange layout.fields.length).flatMap
        (fun place => brought layout (written place) index) ++
          brought layout message.unknown index := by
    rw [records, brought, List.filterMap_append, List.filterMap_flatMap]
    rfl
  rw [spread, outside, List.append_nil, flatMap_only _ index _ (List.nodup_finRange _)
    (List.mem_finRange index) elsewhere, here]

/-- The records of a message that belong to no field are its unknown ones. -/
theorem strange_records (message : Message layout) (foreign : message.Foreign) :
    strange layout message.records = message.unknown := by
  have kept : strange layout message.unknown = message.unknown := by
    rw [strange, List.filter_eq_self]
    exact fun record member => decide_eq_true (foreign record member)
  have known : strange layout ((List.finRange layout.fields.length).flatMap
      (fun index => (message.contents index).map
        ((layout.field index).kind.record (layout.field index).number))) = [] := by
    rw [strange, List.filter_eq_nil_iff]
    intro record member
    obtain ⟨place, -, inside⟩ := List.mem_flatMap.mp member
    obtain ⟨value, -, rfl⟩ := List.mem_map.mp inside
    have found := (layout.withTag_iff _ place).mpr (Kind.record_tag _ _ value).symm
    rw [found]
    simp
  have split : strange layout message.records = strange layout
      ((List.finRange layout.fields.length).flatMap
        (fun index => (message.contents index).map
          ((layout.field index).kind.record (layout.field index).number))) ++
            strange layout message.unknown := by
    simp only [strange, records, List.filter_append]
  rw [split, known, kept, List.nil_append]

/-- The records of a message list that message. -/
theorem absorbAll_records (message : Message layout) (foreign : message.Foreign) :
    (empty layout).absorbAll message.records = message := by
  obtain ⟨values, others⟩ := absorbAll_parts (empty layout) message.records
  apply same
  · funext index
    have single := message.single index
    rw [values, brought_records message foreign, joined]
    cases repeated : (layout.field index).repeated with
    | true => rfl
    | false =>
      have short := single repeated
      match message.contents index, short with
      | [], _ => rfl
      | [value], _ => rfl
  · rw [others, strange_records message foreign]
    rfl

end Message

end RecordLayouts
