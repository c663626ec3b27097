import Sniffles.Foundations.Base128

/-!
# Sequences of tagged records

A record is a tag followed by a payload. The tag joins a field number with one of
six wire types, and the wire type alone tells where the payload ends, so that a
reader can step over records whose field number it does not know. A group is a
sequence of records between two tags of its own; groups nest.

Numbers are spelled in groups of seven bits. A spelling may carry groups of zeros
above the number, up to a given count of bytes, and bits above the width of the
word that receives it are dropped. The sequences that spell some records are
therefore described by a relation; each record also has one canonical spelling.
-/

namespace TaggedRecords

open BitSequences Base128

/-- The most bytes that spell a number. -/
def longest : Nat := 10

/-- The number at the start of a byte sequence and the bytes behind it, unless the
    bytes end or the allowed count is used up before a byte without a high bit. -/
def takeNumber : Nat → List Byte → Option (Nat × List Byte)
  | 0, _ => none
  | _ + 1, [] => none
  | left + 1, byte :: rest =>
    if continues byte then
      (takeNumber left rest).map fun (number, rest) => (byte.toNat % 128 + 128 * number, rest)
    else some (byte.toNat, rest)

/-- At most the given count of groups from the start of a byte sequence, whether the last
    of them ends a number, and the bytes behind them, unless the bytes end before. -/
def takeGroups : Nat → List Byte → Option (Bool × Nat × List Byte)
  | 0, rest => some (false, 0, rest)
  | _ + 1, [] => none
  | count + 1, byte :: rest =>
    if continues byte then
      (takeGroups count rest).map fun (done, number, rest) =>
        (done, byte.toNat % 128 + 128 * number, rest)
    else some (true, byte.toNat, rest)

/-- The bytes spell the number, with nothing left over. -/
def Spells (bytes : List Byte) (number : Nat) : Prop := takeNumber longest bytes = some (number, [])

/-- A field number and a wire type make a tag. -/
def makeTag (number : BitVec 29) (type : BitVec 3) : BitVec 32 := number ++ type

def varintType : BitVec 3 := 0
def fixed64Type : BitVec 3 := 1
def delimitedType : BitVec 3 := 2
def startGroupType : BitVec 3 := 3
def endGroupType : BitVec 3 := 4
def fixed32Type : BitVec 3 := 5

/-- A field number with a payload. -/
inductive Record where
  | varint (number : BitVec 29) (value : BitVec 64)
  | fixed64 (number : BitVec 29) (value : BitVec 64)
  | delimited (number : BitVec 29) (text : List Byte)
  | group (number : BitVec 29) (records : List Record)
  | fixed32 (number : BitVec 29) (value : BitVec 32)
  deriving Repr

/-- The tag in front of a record. -/
def Record.tag : Record → BitVec 32
  | .varint number _ => makeTag number varintType
  | .fixed64 number _ => makeTag number fixed64Type
  | .delimited number _ => makeTag number delimitedType
  | .group number _ => makeTag number startGroupType
  | .fixed32 number _ => makeTag number fixed32Type

/-- The word whose bytes are listed, least significant first. -/
def word (width : Nat) : List Byte → BitVec width
  | [] => 0
  | byte :: rest => byte.setWidth width ||| word width rest <<< 8

/-- The low bytes of a word, least significant first. -/
def littleEndian {width : Nat} : Nat → BitVec width → List Byte
  | 0, _ => []
  | count + 1, bits => bits.setWidth 8 :: littleEndian count (bits >>> 8)

/-- The bytes are the payload of a record that holds no other records. -/
def Holds (bytes : List Byte) : Record → Prop
  | .varint _ value => ∃ number, Spells bytes number ∧ value = BitVec.ofNat 64 number
  | .fixed64 _ value => bytes.length = 8 ∧ value = word 64 bytes
  | .delimited _ text => ∃ length number, bytes = length ++ text ∧ Spells length number ∧
      (BitVec.ofNat 32 number).toNat = text.length ∧ text.length < 2147483648
  | .group _ _ => False
  | .fixed32 _ value => bytes.length = 4 ∧ value = word 32 bytes

/-- The bytes spell a tag. The tag zero ends a sequence and introduces no record. -/
def SpellsTag (bytes : List Byte) (tag : BitVec 32) : Prop :=
  tag ≠ 0 ∧ ∃ number, Spells bytes number ∧ tag = BitVec.ofNat 32 number

/-- The bytes spell the records one after the other, with at most `depth` groups
    inside one another. -/
inductive Listed : Nat → List Byte → List Record → Prop where
  | nil (depth : Nat) : Listed depth [] []
  | plain {depth : Nat} {head body rest : List Byte} {record : Record} {records : List Record}
      (tagged : SpellsTag head record.tag) (held : Holds body record)
      (others : Listed depth rest records) :
      Listed depth (head ++ body ++ rest) (record :: records)
  | group {depth : Nat} {head inner tail rest : List Byte} {number : BitVec 29}
      {nested records : List Record}
      (opened : SpellsTag head (makeTag number startGroupType))
      (inside : Listed depth inner nested)
      (closed : SpellsTag tail (makeTag number endGroupType))
      (others : Listed (depth + 1) rest records) :
      Listed (depth + 1) (head ++ inner ++ tail ++ rest) (.group number nested :: records)

/-- The bytes are the payload of a record: what it holds, or its nested records and the tag
    that ends them. -/
def Carries (depth : Nat) (bytes : List Byte) : Record → Prop
  | .group number nested => ∃ below inner tail, depth = below + 1 ∧ bytes = inner ++ tail ∧
      Listed below inner nested ∧ SpellsTag tail (makeTag number endGroupType)
  | record => Holds bytes record

/-- The canonical spelling of a tag. -/
def tagBytes (tag : BitVec 32) : List Byte := encode tag.toNat

mutual

/-- The canonical spelling of a record. -/
def Record.bytes : Record → List Byte
  | .varint number value => tagBytes (makeTag number varintType) ++ encode value.toNat
  | .fixed64 number value => tagBytes (makeTag number fixed64Type) ++ littleEndian 8 value
  | .delimited number text =>
    tagBytes (makeTag number delimitedType) ++ encode text.length ++ text
  | .group number records =>
    tagBytes (makeTag number startGroupType) ++ recordBytes records ++
      tagBytes (makeTag number endGroupType)
  | .fixed32 number value => tagBytes (makeTag number fixed32Type) ++ littleEndian 4 value

def recordBytes : List Record → List Byte
  | [] => []
  | record :: records => record.bytes ++ recordBytes records

end

mutual

/-- How many groups a record holds inside one another. -/
def Record.depth : Record → Nat
  | .group _ records => recordsDepth records + 1
  | _ => 0

def recordsDepth : List Record → Nat
  | [] => 0
  | record :: records => max record.depth (recordsDepth records)

end

mutual

/-- A record can be spelled: its tag is not zero and its text is not too long. -/
def Record.Sound : Record → Prop
  | .varint number _ => number ≠ 0
  | .delimited _ text => text.length < 2147483648
  | .group _ records => RecordsSound records
  | _ => True

def RecordsSound : List Record → Prop
  | [] => True
  | record :: records => record.Sound ∧ RecordsSound records

end

/-- A number at the start of a sequence is found there whatever follows. -/
theorem takeNumber_append (limit : Nat) (bytes more rest : List Byte) (number : Nat)
    (taken : takeNumber limit bytes = some (number, rest)) :
    takeNumber limit (bytes ++ more) = some (number, rest ++ more) := by
  induction limit generalizing bytes number with
  | zero => cases taken
  | succ limit inductionHypothesis =>
    cases bytes with
    | nil => cases taken
    | cons byte bytes =>
      rw [List.cons_append, takeNumber]
      rw [takeNumber] at taken
      split at taken
      case isTrue another =>
        obtain ⟨⟨high, behind⟩, inner, joined⟩ := Option.map_eq_some_iff.mp taken
        cases joined
        rw [if_pos another, inductionHypothesis bytes high inner]
        rfl
      case isFalse last =>
        cases taken
        rw [if_neg last]

/-- The bytes of a number are those in front of the rest, and there is at least one. -/
theorem takeNumber_split (limit : Nat) (bytes rest : List Byte) (number : Nat)
    (taken : takeNumber limit bytes = some (number, rest)) :
    ∃ head, bytes = head ++ rest ∧ head ≠ [] ∧ takeNumber limit head = some (number, []) := by
  induction limit generalizing bytes number with
  | zero => cases taken
  | succ limit inductionHypothesis =>
    cases bytes with
    | nil => cases taken
    | cons byte bytes =>
      rw [takeNumber] at taken
      split at taken
      case isTrue another =>
        obtain ⟨⟨high, behind⟩, inner, joined⟩ := Option.map_eq_some_iff.mp taken
        cases joined
        obtain ⟨head, rfl, -, only⟩ := inductionHypothesis bytes high inner
        refine ⟨byte :: head, rfl, List.cons_ne_nil _ _, ?_⟩
        rw [takeNumber, if_pos another, only]
        rfl
      case isFalse last =>
        cases taken
        refine ⟨[byte], rfl, List.cons_ne_nil _ _, ?_⟩
        rw [takeNumber, if_neg last]

/-- The canonical bytes of a number are taken as that number. -/
theorem takeNumber_encode (limit number : Nat) (rest : List Byte)
    (fits : (encode number).length ≤ limit) :
    takeNumber limit (encode number ++ rest) = some (number, rest) := by
  induction limit generalizing number with
  | zero =>
    have := encode_nonempty number
    omega
  | succ limit inductionHypothesis =>
    by_cases small : number < 128
    · have stored : (BitVec.ofNat 8 number).toNat = number := by
        rw [BitVec.toNat_ofNat]
        omega
      simp only [encode_last number small, List.singleton_append, takeNumber,
        continues_last number small, Bool.false_eq_true, if_false, stored]
    · have more := encode_more number (Nat.le_of_not_lt small)
      rw [more, List.length_cons] at fits
      have stored : (BitVec.ofNat 8 (number % 128 + 128)).toNat = number % 128 + 128 := by
        rw [BitVec.toNat_ofNat]
        omega
      have joined : (number % 128 + 128) % 128 + 128 * (number / 128) = number := by omega
      rw [more, List.cons_append, takeNumber, if_pos (continues_more number),
        inductionHypothesis (number / 128) (by omega), Option.map_some, stored]
      dsimp only
      rw [joined]

/-- A number below 2^70 has a canonical spelling that is short enough. -/
theorem spells_encode (number : Nat) (fits : number < 128 ^ longest) : Spells (encode number) number := by
  have taken := takeNumber_encode longest number [] (encode_length 9 number fits)
  rwa [List.append_nil] at taken

/-- A number stands at the start of a sequence exactly if some first bytes spell it. -/
theorem takeNumber_iff (bytes rest : List Byte) (number : Nat) :
    takeNumber longest bytes = some (number, rest) ↔
      ∃ head, bytes = head ++ rest ∧ Spells head number := by
  constructor
  · intro taken
    obtain ⟨head, joined, -, only⟩ := takeNumber_split longest bytes rest number taken
    exact ⟨head, joined, only⟩
  · rintro ⟨head, rfl, spelled⟩
    exact takeNumber_append longest head rest [] number spelled

/-- A byte that ends a number is below 128. -/
theorem last_small {byte : Byte} (last : continues byte = false) : byte.toNat < 128 := by
  by_contra large
  have high : byte.getLsbD 7 = true := by
    have bound := byte.isLt
    rw [BitVec.getLsbD, Nat.testBit_eq_decide_div_mod_eq, decide_eq_true_eq]
    omega
  rw [continues, high] at last
  cases last

/-- Setting the high bit of a byte. -/
theorem high_bit (number : Nat) : (number ||| 128) % 256 = number % 128 + 128 := by
  have apart := Nat.two_pow_add_eq_or_of_lt (Nat.mod_lt number (show 2 ^ 7 > 0 by decide)) 1
  have low : 128 ||| number % 128 = 128 * 1 + number % 128 := apart.symm
  have upper : number % 256 = 128 * (number / 128 % 2) + number % 128 := by omega
  have split : (number ||| 128) % 2 ^ 8 = number % 256 ||| 128 := by
    rw [Nat.or_mod_two_pow]
  have masked : number % 256 ||| 128 = number % 128 + 128 := by
    rcases Nat.mod_two_eq_zero_or_one (number / 128) with even | odd
    · rw [upper, even, Nat.mul_zero, Nat.zero_add, Nat.or_comm, low]
      omega
    · have joined : 128 * 1 + number % 128 = 128 ||| number % 128 := low.symm
      rw [upper, odd, joined, Nat.or_comm, ← Nat.or_assoc, Nat.or_self, low]
      omega
  exact split.trans masked

/-- The low groups of a number stand in front of the rest. -/
theorem encode_split (count number : Nat) (large : 128 ^ count ≤ number) :
    encode number =
      (List.range count).map (fun index => BitVec.ofNat 8 (number / 128 ^ index % 128 + 128)) ++
        encode (number / 128 ^ count) := by
  induction count generalizing number with
  | zero => simp
  | succ count inductionHypothesis =>
    have more : 128 ≤ number := by
      have room : 0 < 128 ^ count := Nat.pow_pos (by decide)
      rw [Nat.pow_succ] at large
      exact Nat.le_trans (Nat.le_mul_of_pos_left 128 room) large
    have above : 128 ^ count ≤ number / 128 := by
      rw [Nat.le_div_iff_mul_le (by decide), ← Nat.pow_succ]
      exact large
    have shifted (index : Nat) : number / 128 / 128 ^ index = number / 128 ^ (index + 1) := by
      rw [Nat.div_div_eq_div_mul, Nat.pow_succ, Nat.mul_comm]
    rw [encode_more number more, inductionHypothesis (number / 128) above, List.range_succ_eq_map,
      List.map_cons, List.map_map, Nat.pow_zero, Nat.div_one, List.cons_append, shifted]
    simp only [Function.comp_def, shifted, Nat.succ_eq_add_one]

/-- Groups are taken in portions, and the second portion weighs more. -/
theorem takeGroups_add (first second : Nat) (bytes : List Byte) :
    takeGroups (first + second) bytes =
      (takeGroups first bytes).bind fun (done, low, rest) =>
        if done then some (true, low, rest)
        else (takeGroups second rest).map fun (done, high, rest) =>
          (done, low + 128 ^ first * high, rest) := by
  induction first generalizing bytes with
  | zero =>
    rw [Nat.zero_add, takeGroups, Option.bind_some]
    simp
  | succ first inductionHypothesis =>
    rw [Nat.succ_add]
    cases bytes with
    | nil => rfl
    | cons byte bytes =>
      rw [takeGroups, takeGroups]
      cases continues byte with
      | false => rfl
      | true =>
        simp only [if_true]
        rw [inductionHypothesis]
        rcases takeGroups first bytes with - | ⟨done, low, rest⟩
        · rfl
        · cases done with
          | true => rfl
          | false =>
            simp only [Option.bind_some, Option.map_some, Bool.false_eq_true, if_false]
            rcases takeGroups second rest with - | ⟨done, high, behind⟩
            · rfl
            · have weight : byte.toNat % 128 + 128 * (low + 128 ^ first * high) =
                  byte.toNat % 128 + 128 * low + 128 ^ (first + 1) * high := by ring
              simp only [Option.map_some, weight]

/-- A number is what the groups hold up to one that ends it. -/
theorem takeNumber_groups (limit : Nat) (bytes : List Byte) :
    takeNumber limit bytes = (takeGroups limit bytes).bind fun (done, number, rest) =>
      if done then some (number, rest) else none := by
  induction limit generalizing bytes with
  | zero => rfl
  | succ limit inductionHypothesis =>
    cases bytes with
    | nil => rfl
    | cons byte bytes =>
      rw [takeNumber, takeGroups]
      cases continues byte with
      | false => rfl
      | true =>
        simp only [if_true]
        rw [inductionHypothesis]
        rcases takeGroups limit bytes with - | ⟨_ | _, number, rest⟩ <;> rfl

/-- A number that is found ends the groups that are taken. -/
theorem takeGroups_number {limit : Nat} {bytes rest : List Byte} {number : Nat}
    (whole : (takeGroups limit bytes).isSome = true)
    (taken : takeNumber limit bytes = some (number, rest)) :
    takeGroups limit bytes = some (true, number, rest) := by
  obtain ⟨⟨done, groups, behind⟩, lines⟩ := Option.isSome_iff_exists.mp whole
  rw [takeNumber_groups, lines, Option.bind_some] at taken
  cases done with
  | false => cases taken
  | true =>
    cases taken
    exact lines

/-- Groups of no number have no end. -/
theorem takeGroups_overlong {limit : Nat} {bytes : List Byte}
    (whole : (takeGroups limit bytes).isSome = true) (none : takeNumber limit bytes = none) :
    ∃ groups rest, takeGroups limit bytes = some (false, groups, rest) := by
  obtain ⟨⟨done, groups, rest⟩, lines⟩ := Option.isSome_iff_exists.mp whole
  rw [takeNumber_groups, lines, Option.bind_some] at none
  cases done with
  | true => cases none
  | false => exact ⟨groups, rest, lines⟩

/-- The groups that are taken fit their count. -/
theorem takeGroups_bound (count : Nat) (bytes rest : List Byte) (done : Bool) (number : Nat)
    (taken : takeGroups count bytes = some (done, number, rest)) : number < 128 ^ count := by
  induction count generalizing bytes number with
  | zero =>
    cases taken
    decide
  | succ count inductionHypothesis =>
    cases bytes with
    | nil => cases taken
    | cons byte bytes =>
      rw [takeGroups] at taken
      rw [Nat.pow_succ]
      split at taken
      case isTrue another =>
        obtain ⟨⟨_, high, _⟩, inner, joined⟩ := Option.map_eq_some_iff.mp taken
        cases joined
        have bound := inductionHypothesis bytes high inner
        have low : byte.toNat % 128 < 128 := Nat.mod_lt _ (by decide)
        omega
      case isFalse last =>
        cases taken
        have small := last_small (Bool.eq_false_iff.mpr last)
        have room : 0 < 128 ^ count := Nat.pow_pos (by decide)
        exact Nat.lt_of_lt_of_le small (Nat.le_mul_of_pos_left 128 room)

/-- The bytes end before the groups only if there are too few of them and none ends a
    number. -/
theorem takeGroups_none (count : Nat) (bytes : List Byte) (ended : takeGroups count bytes = none) :
    bytes.length < count ∧ ∀ byte ∈ bytes, continues byte = true := by
  induction count generalizing bytes with
  | zero => cases ended
  | succ count inductionHypothesis =>
    cases bytes with
    | nil => exact ⟨Nat.succ_pos count, by simp⟩
    | cons byte bytes =>
      rw [takeGroups] at ended
      split at ended
      case isTrue another =>
        obtain ⟨short, all⟩ := inductionHypothesis bytes (Option.map_eq_none_iff.mp ended)
        refine ⟨Nat.succ_lt_succ short, fun other member => ?_⟩
        rcases List.mem_cons.mp member with rfl | behind
        · exact another
        · exact all other behind
      case isFalse => cases ended

/-- A spelling is not empty. -/
theorem Spells.nonempty {bytes : List Byte} {number : Nat} (spelled : Spells bytes number) :
    bytes ≠ [] := by
  rintro rfl
  cases spelled

/-- The bytes of a tag are not empty. -/
theorem SpellsTag.nonempty {bytes : List Byte} {tag : BitVec 32} (spelled : SpellsTag bytes tag) :
    0 < bytes.length := by
  obtain ⟨-, number, spelled, -⟩ := spelled
  exact List.length_pos_iff.mpr spelled.nonempty

/-- A sequence starts with at most one tag. -/
theorem SpellsTag.unique {first second rest behind : List Byte} {tag other : BitVec 32}
    (spelled : SpellsTag first tag) (also : SpellsTag second other)
    (same : first ++ rest = second ++ behind) : tag = other ∧ rest = behind := by
  obtain ⟨-, number, spelled, rfl⟩ := spelled
  obtain ⟨-, count, also, rfl⟩ := also
  have one : takeNumber longest (first ++ rest) = some (number, rest) :=
    (takeNumber_iff _ _ _).mpr ⟨first, rfl, spelled⟩
  have two : takeNumber longest (first ++ rest) = some (count, behind) :=
    (takeNumber_iff _ _ _).mpr ⟨second, same, also⟩
  rw [one] at two
  cases two
  exact ⟨rfl, rfl⟩

/-- The value of a tag. -/
theorem makeTag_toNat (number : BitVec 29) (type : BitVec 3) :
    (makeTag number type).toNat = 8 * number.toNat + type.toNat := by
  have joined := Nat.two_pow_add_eq_or_of_lt type.isLt number.toNat
  rw [makeTag, BitVec.toNat_append, Nat.shiftLeft_eq, Nat.mul_comm, ← joined]

/-- A tag shows its two parts. -/
theorem makeTag_injective {number other : BitVec 29} {type kind : BitVec 3}
    (same : makeTag number type = makeTag other kind) : number = other ∧ type = kind := by
  have value := congrArg BitVec.toNat same
  rw [makeTag_toNat, makeTag_toNat] at value
  have low := type.isLt
  have high := kind.isLt
  constructor <;> apply BitVec.eq_of_toNat_eq <;> omega

/-- A tag other than zero has a canonical spelling. -/
theorem spellsTag_tagBytes (tag : BitVec 32) (nonzero : tag ≠ 0) : SpellsTag (tagBytes tag) tag := by
  have small := tag.isLt
  have room : (2 : Nat) ^ 32 ≤ 128 ^ longest := by decide
  refine ⟨nonzero, tag.toNat, spells_encode _ (by omega), ?_⟩
  rw [BitVec.ofNat_toNat, BitVec.setWidth_eq]

/-- A payload is not empty. -/
theorem Holds.nonempty {bytes : List Byte} {record : Record} (held : Holds bytes record) :
    0 < bytes.length := by
  cases record with
  | varint number value =>
    obtain ⟨count, spelled, -⟩ := held
    exact List.length_pos_iff.mpr spelled.nonempty
  | delimited number text =>
    obtain ⟨length, count, rfl, spelled, -⟩ := held
    have := List.length_pos_iff.mpr spelled.nonempty
    rw [List.length_append]
    omega
  | group number records => exact absurd held id
  | fixed64 number value | fixed32 number value =>
    have := held.1
    omega

/-- A record without nested ones carries what it holds. -/
theorem Carries.of_holds {depth : Nat} {bytes : List Byte} {record : Record}
    (held : Holds bytes record) : Carries depth bytes record := by
  cases record with
  | group number nested => exact absurd held id
  | _ => exact held

/-- A record in front of a listed sequence. -/
theorem Listed.cons {depth : Nat} {head body rest : List Byte} {record : Record}
    {records : List Record} (tagged : SpellsTag head record.tag) (carried : Carries depth body record)
    (others : Listed depth rest records) : Listed depth (head ++ body ++ rest) (record :: records) := by
  cases record with
  | group number nested =>
    obtain ⟨below, inner, tail, rfl, rfl, inside, closed⟩ := carried
    rw [← List.append_assoc head inner tail]
    exact .group tagged inside closed others
  | _ => exact .plain tagged carried others

/-- The first record of a listed sequence. -/
theorem Listed.uncons {depth : Nat} {bytes : List Byte} {record : Record} {records : List Record}
    (listed : Listed depth bytes (record :: records)) :
    ∃ head body rest, bytes = head ++ body ++ rest ∧ SpellsTag head record.tag ∧
      Carries depth body record ∧ Listed depth rest records := by
  cases listed with
  | @plain _ head body rest _ _ tagged held others =>
    exact ⟨head, body, rest, rfl, tagged, .of_holds held, others⟩
  | @group below head inner tail rest number nested _ opened inside closed others =>
    refine ⟨head, inner ++ tail, rest, ?_, opened, ⟨below, inner, tail, rfl, rfl, inside, closed⟩,
      others⟩
    rw [List.append_assoc head inner tail]

/-- No bytes list no records. -/
theorem Listed.empty {depth : Nat} {records : List Record} (listed : Listed depth [] records) :
    records = [] := by
  cases records with
  | nil => rfl
  | cons record records =>
    obtain ⟨head, body, rest, same, ⟨-, number, spelled, -⟩, -⟩ := listed.uncons
    have nothing : head = [] := by
      simp only [List.nil_eq, List.append_eq_nil_iff] at same
      exact same.1.1
    exact absurd nothing spelled.nonempty

/-- The records that bytes spell can be spelled canonically, as deep as they are. -/
theorem Listed.sound {depth : Nat} {bytes : List Byte} {records : List Record}
    (listed : Listed depth bytes records) :
    RecordsSound records ∧ recordsDepth records ≤ depth := by
  induction listed with
  | nil depth => exact ⟨trivial, Nat.zero_le depth⟩
  | @plain depth head body rest record records tagged held others inductionHypothesis =>
    obtain ⟨sound, shallow⟩ := inductionHypothesis
    have one : record.Sound ∧ record.depth = 0 := by
      cases record with
      | varint number value =>
        refine ⟨?_, rfl⟩
        rintro rfl
        exact tagged.1 rfl
      | delimited number text =>
        obtain ⟨length, count, -, -, -, short⟩ := held
        exact ⟨short, rfl⟩
      | group number nested => exact absurd held id
      | fixed64 number value | fixed32 number value => exact ⟨trivial, rfl⟩
    rw [recordsDepth, one.2, Nat.zero_max]
    exact ⟨⟨one.1, sound⟩, shallow⟩
  | group opened inside closed others insideHypothesis othersHypothesis =>
    obtain ⟨inner, within⟩ := insideHypothesis
    obtain ⟨outer, shallow⟩ := othersHypothesis
    rw [recordsDepth, Record.depth]
    exact ⟨⟨inner, outer⟩, Nat.max_le.mpr ⟨Nat.succ_le_succ within, shallow⟩⟩

/-- Sequences of records may be put one behind the other. -/
theorem Listed.append {depth : Nat} {first second : List Byte} {records others : List Record}
    (front : Listed depth first records) (back : Listed depth second others) :
    Listed depth (first ++ second) (records ++ others) := by
  induction front with
  | nil depth => exact back
  | plain tagged held _ inductionHypothesis =>
    rw [List.append_assoc, List.cons_append]
    exact .plain tagged held (inductionHypothesis back)
  | group opened inside closed _ _ inductionHypothesis =>
    rw [List.append_assoc, List.cons_append]
    exact .group opened inside closed (inductionHypothesis back)

/-- Room for more nested groups does not matter. -/
theorem Listed.deeper {depth room : Nat} {bytes : List Byte} {records : List Record}
    (listed : Listed depth bytes records) (more : depth ≤ room) : Listed room bytes records := by
  induction listed generalizing room with
  | nil => exact .nil room
  | plain tagged held _ inductionHypothesis => exact .plain tagged held (inductionHypothesis more)
  | group opened _ closed _ insideHypothesis othersHypothesis =>
    obtain ⟨below, rfl⟩ : ∃ below, room = below + 1 := ⟨room - 1, by omega⟩
    exact .group opened (insideHypothesis (by omega)) closed (othersHypothesis more)

@[simp] theorem littleEndian_length {width : Nat} (count : Nat) (bits : BitVec width) :
    (littleEndian count bits).length = count := by
  induction count generalizing bits with
  | zero => rfl
  | succ count inductionHypothesis => rw [littleEndian, List.length_cons, inductionHypothesis]

/-- The bits of a word read from bytes. -/
theorem word_bit (width : Nat) (bytes : List Byte) (index : Nat) :
    (word width bytes).getLsbD index =
      (decide (index < width) && (bytes.getD (index / 8) 0).getLsbD (index % 8)) := by
  induction bytes generalizing index with
  | nil => simp [word]
  | cons byte rest inductionHypothesis =>
    rw [word, BitVec.getLsbD_or, BitVec.getLsbD_setWidth, BitVec.getLsbD_shiftLeft]
    by_cases low : index < 8
    · have quotient : index / 8 = 0 := by omega
      have remainder : index % 8 = index := by omega
      simp [low, quotient, remainder]
    · have outside : byte.getLsbD index = false := BitVec.getLsbD_of_ge byte index (by omega)
      obtain ⟨rest, rfl⟩ : ∃ rest, index = rest + 8 := ⟨index - 8, by omega⟩
      have quotient : (rest + 8) / 8 = rest / 8 + 1 := by omega
      have remainder : (rest + 8) % 8 = rest % 8 := by omega
      rw [outside, Nat.add_sub_cancel, inductionHypothesis, quotient, remainder,
        List.getD_cons_succ]
      by_cases inside : rest + 8 < width
      · have before : rest < width := by omega
        simp [inside, before]
      · simp [inside]

/-- The bytes of a word. -/
theorem littleEndian_bit {width : Nat} (count : Nat) (bits : BitVec width) (index : Nat) :
    ((littleEndian count bits).getD (index / 8) 0).getLsbD (index % 8) =
      (decide (index < 8 * count) && bits.getLsbD index) := by
  induction count generalizing bits index with
  | zero => simp [littleEndian]
  | succ count inductionHypothesis =>
    have low : index % 8 < 8 := Nat.mod_lt index (by decide)
    by_cases first : index < 8
    · have quotient : index / 8 = 0 := by omega
      have remainder : index % 8 = index := by omega
      have inside : index < 8 * (count + 1) := by omega
      simp [littleEndian, quotient, remainder, first, inside]
    · obtain ⟨rest, rfl⟩ : ∃ rest, index = rest + 8 := ⟨index - 8, by omega⟩
      have quotient : (rest + 8) / 8 = rest / 8 + 1 := by omega
      have remainder : (rest + 8) % 8 = rest % 8 := by omega
      have bound : (rest + 8 < 8 * (count + 1)) = (rest < 8 * count) := by
        simp only [eq_iff_iff]
        omega
      rw [littleEndian, quotient, remainder, List.getD_cons_succ, inductionHypothesis,
        BitVec.getLsbD_ushiftRight, Nat.add_comm 8 rest]
      simp only [bound]

/-- A word is read back from all of its bytes. -/
theorem word_littleEndian {width : Nat} (count : Nat) (bits : BitVec width)
    (whole : width ≤ 8 * count) : word width (littleEndian count bits) = bits := by
  apply BitVec.eq_of_getLsbD_eq
  intro index inside
  have within : index < 8 * count := by omega
  rw [word_bit, littleEndian_bit, decide_eq_true inside, decide_eq_true within, Bool.true_and,
    Bool.true_and]

/-- The payload in the canonical spelling of a record without nested ones. -/
theorem bytes_plain (record : Record) (sound : record.Sound)
    (leaf : ∀ number records, record ≠ .group number records) :
    ∃ body, record.bytes = tagBytes record.tag ++ body ∧ Holds body record := by
  have room : (2 : Nat) ^ 64 ≤ 128 ^ longest := by decide
  cases record with
  | varint number value =>
    have small := value.isLt
    refine ⟨encode value.toNat, rfl, value.toNat, spells_encode _ (by omega), ?_⟩
    rw [BitVec.ofNat_toNat, BitVec.setWidth_eq]
  | fixed64 number value =>
    exact ⟨littleEndian 8 value, rfl, littleEndian_length 8 value,
      (word_littleEndian 8 value (Nat.le_refl _)).symm⟩
  | delimited number text =>
    have short : text.length < 2147483648 := sound
    have length : (BitVec.ofNat 32 text.length).toNat = text.length := by
      rw [BitVec.toNat_ofNat]
      omega
    refine ⟨encode text.length ++ text, ?_, encode text.length, text.length, rfl,
      spells_encode _ (by omega), length, short⟩
    rw [Record.bytes, List.append_assoc]
    rfl
  | group number records => exact absurd rfl (leaf number records)
  | fixed32 number value =>
    exact ⟨littleEndian 4 value, rfl, littleEndian_length 4 value,
      (word_littleEndian 4 value (Nat.le_refl _)).symm⟩

theorem recordBytes_flatMap (records : List Record) : recordBytes records = records.flatMap Record.bytes := by
  induction records with
  | nil => rfl
  | cons record records inductionHypothesis =>
    rw [recordBytes, inductionHypothesis, List.flatMap_cons]

theorem recordBytes_append (first second : List Record) :
    recordBytes (first ++ second) = recordBytes first ++ recordBytes second := by
  rw [recordBytes_flatMap, recordBytes_flatMap, recordBytes_flatMap, List.flatMap_append]

theorem recordsSound_iff (records : List Record) :
    RecordsSound records ↔ ∀ record ∈ records, record.Sound := by
  induction records with
  | nil => simp [RecordsSound]
  | cons record records inductionHypothesis =>
    rw [RecordsSound, inductionHypothesis, List.forall_mem_cons]

theorem recordsDepth_le_iff (records : List Record) (depth : Nat) :
    recordsDepth records ≤ depth ↔ ∀ record ∈ records, record.depth ≤ depth := by
  induction records with
  | nil => simp [recordsDepth]
  | cons record records inductionHypothesis =>
    rw [recordsDepth, Nat.max_le, inductionHypothesis, List.forall_mem_cons]

/-- The tag of a record that can be spelled is not zero. -/
theorem Record.Sound.tagged {record : Record} (sound : record.Sound) : record.tag ≠ 0 := by
  intro zero
  have value := congrArg BitVec.toNat zero
  cases record with
  | varint number payload =>
    have positive : number ≠ 0 := sound
    rw [Record.tag, makeTag_toNat] at value
    apply positive
    apply BitVec.eq_of_toNat_eq
    simp only [varintType, BitVec.ofNat_eq_ofNat, BitVec.toNat_ofNat] at value ⊢
    omega
  | _ =>
    rw [Record.tag, makeTag_toNat] at value
    simp only [fixed64Type, delimitedType, startGroupType, fixed32Type, BitVec.ofNat_eq_ofNat,
      BitVec.toNat_ofNat] at value
    omega

/-- A record without nested ones is listed by its canonical spelling. -/
theorem plain_listed (record : Record) (sound : record.Sound)
    (leaf : ∀ number records, record ≠ .group number records) (depth : Nat) :
    Listed depth record.bytes [record] := by
  obtain ⟨body, spelled, held⟩ := bytes_plain record sound leaf
  have whole := Listed.plain (spellsTag_tagBytes _ sound.tagged) held (.nil depth)
  rw [List.append_nil] at whole
  rwa [spelled]

mutual

/-- A record is listed by its canonical spelling. -/
theorem Record.listed (record : Record) (sound : record.Sound) (depth : Nat)
    (shallow : record.depth ≤ depth) : Listed depth record.bytes [record] := by
  match record with
  | .group number records =>
    rw [Record.depth] at shallow
    obtain ⟨below, rfl⟩ : ∃ below, depth = below + 1 := ⟨depth - 1, by omega⟩
    have closing : makeTag number endGroupType ≠ 0 := by
      intro zero
      have value := congrArg BitVec.toNat zero
      rw [makeTag_toNat] at value
      simp only [endGroupType, BitVec.ofNat_eq_ofNat, BitVec.toNat_ofNat] at value
      omega
    have inner := recordsListed records sound below (by omega)
    have whole := Listed.group (spellsTag_tagBytes _ (Record.Sound.tagged sound)) inner
      (spellsTag_tagBytes _ closing) (.nil (below + 1))
    rw [List.append_nil] at whole
    exact whole
  | .varint _ _ => exact plain_listed _ sound (by simp) depth
  | .fixed64 _ _ => exact plain_listed _ sound (by simp) depth
  | .delimited _ _ => exact plain_listed _ sound (by simp) depth
  | .fixed32 _ _ => exact plain_listed _ sound (by simp) depth

/-- Records are listed by their canonical spelling. -/
theorem recordsListed (records : List Record) (sound : RecordsSound records) (depth : Nat)
    (shallow : recordsDepth records ≤ depth) : Listed depth (recordBytes records) records := by
  match records with
  | [] => exact .nil depth
  | record :: others =>
    rw [recordsDepth] at shallow
    exact (record.listed sound.1 depth (by omega)).append
      (recordsListed others sound.2 depth (by omega))

end

end TaggedRecords
