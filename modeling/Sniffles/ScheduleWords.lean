import Sniffles.IceCipher

/-!
# What a subkey holds

For each subkey the four key words are turned fifteen times: the lowest bit
leaves a word for the subkey, and its complement enters at the top. Whatever the
rotation is, every word is turned once in each group, so after some subkeys the
words are those of the key, turned fifteen times for each of them. The bits of a
group go into one of the three subkey words, behind those of the groups before
it; a word gets the twenty bits of five groups.
-/

namespace Sniffles.IceKey

open BitSequences

/-- Move the lowest bit of a key word out and feed its complement back at the top. -/
def turnWord (word : BitVec 16) : BitVec 16 := (word >>> 1) ||| (((word &&& 1) ^^^ 1) <<< 15)

/-- Put the lowest bit of a key word behind those of a subkey word. -/
def pushBit (word : BitVec 32) (source : BitVec 16) : BitVec 32 :=
  (word <<< 1) ||| (source &&& 1).setWidth 32

theorem groupWord_inside (kr k : Nat) : (kr + k) % 4 < 4 := Nat.mod_lt _ (Nat.succ_pos 3)

theorem groupSlot_inside (j : Nat) : j % 3 < 3 := Nat.mod_lt _ (Nat.succ_pos 2)

/-- The key word that a step of a group uses. -/
def groupWord (kr k : Nat) : Fin 4 := ⟨(kr + k) % 4, groupWord_inside kr k⟩

/-- Only the residue of the rotation matters. -/
theorem groupWord_mod (kr k : Nat) : groupWord kr k = groupWord (kr % 4) k :=
  Fin.ext (Nat.mod_add_mod kr 4 k).symm

/-- The subkey word of a group. -/
def groupSlot (j : Nat) : Fin 3 := ⟨j % 3, groupSlot_inside j⟩

theorem scheduleBit_step (kr j k : Nat) (kb : Vector (BitVec 16) 4) (sk : Vector (BitVec 32) 3) :
    scheduleBit kr j (kb, sk) k =
      (kb.set (groupWord kr k) (turnWord kb[groupWord kr k]),
        sk.set (groupSlot j) (pushBit sk[groupSlot j] kb[groupWord kr k])) := rfl

/-- A group visits the four words in a row, from the one that the rotation selects. -/
theorem groupWord_order (kr : Nat) :
    groupWord kr 0 = 0 ∧ groupWord kr 1 = 1 ∧ groupWord kr 2 = 2 ∧ groupWord kr 3 = 3 ∨
      groupWord kr 0 = 1 ∧ groupWord kr 1 = 2 ∧ groupWord kr 2 = 3 ∧ groupWord kr 3 = 0 ∨
      groupWord kr 0 = 2 ∧ groupWord kr 1 = 3 ∧ groupWord kr 2 = 0 ∧ groupWord kr 3 = 1 ∨
      groupWord kr 0 = 3 ∧ groupWord kr 1 = 0 ∧ groupWord kr 2 = 1 ∧ groupWord kr 3 = 2 := by
  have residue : kr % 4 = 0 ∨ kr % 4 = 1 ∨ kr % 4 = 2 ∨ kr % 4 = 3 := by omega
  rcases residue with same | same | same | same
  all_goals
    simp only [groupWord_mod kr, same]
    decide

/-- A group turns every word once and moves their lowest bits into one subkey word. -/
theorem scheduleGroup (kr j : Nat) (kb : Vector (BitVec 16) 4) (sk : Vector (BitVec 32) 3) :
    (List.range 4).foldl (scheduleBit kr j) (kb, sk) =
      (kb.map turnWord, sk.set (groupSlot j)
        ((List.range 4).foldl (fun word k => pushBit word kb[groupWord kr k]) sk[groupSlot j])) := by
  have steps : List.range 4 = [0, 1, 2, 3] := rfl
  have placed := groupWord_order kr
  rw [steps]
  simp only [List.foldl_cons, List.foldl_nil, scheduleBit_step]
  refine Prod.ext ?_ ?_
  · apply Vector.ext
    intro index inside
    have cases : index = 0 ∨ index = 1 ∨ index = 2 ∨ index = 3 := by omega
    rcases placed with ⟨p0, p1, p2, p3⟩ | ⟨p0, p1, p2, p3⟩ | ⟨p0, p1, p2, p3⟩ | ⟨p0, p1, p2, p3⟩ <;>
      rcases cases with rfl | rfl | rfl | rfl <;> simp [p0, p1, p2, p3]
  · rcases placed with ⟨p0, p1, p2, p3⟩ | ⟨p0, p1, p2, p3⟩ | ⟨p0, p1, p2, p3⟩ | ⟨p0, p1, p2, p3⟩ <;>
      simp [p0, p1, p2, p3]

/-- A turn moves every bit down by one; the lowest one enters complemented at the top. -/
theorem turnWord_bit (word : BitVec 16) (index : Nat) (inside : index < 15) :
    (turnWord word).getLsbD index = word.getLsbD (index + 1) := by
  have below : index < 16 := by omega
  simp [turnWord, below, inside, Nat.add_comm 1]

/-- Until a word has been turned sixteen times, its bits come from above. -/
theorem turnWord_iterate (word : BitVec 16) (turns index : Nat) (inside : index + turns < 16) :
    (turnWord^[turns] word).getLsbD index = word.getLsbD (index + turns) := by
  induction turns generalizing index with
  | zero => rfl
  | succ turns inductionHypothesis =>
    rw [Function.iterate_succ_apply', turnWord_bit _ index (by omega),
      inductionHypothesis (index + 1) (by omega), Nat.add_right_comm, Nat.add_assoc]

/-- A pushed bit becomes the lowest one. -/
theorem pushBit_toNat (word : BitVec 32) (source : BitVec 16) (room : word.toNat < 2 ^ 31) :
    (pushBit word source).toNat = (source.getLsbD 0).toNat + 2 * word.toNat := by
  have bit : ((source &&& 1).setWidth 32).toNat = (source.getLsbD 0).toNat := by
    rw [BitVec.toNat_setWidth, BitVec.toNat_and, BitVec.getLsbD, Nat.testBit_zero]
    have one : (1 : BitVec 16).toNat = 1 := rfl
    rw [one, Nat.and_one_is_mod]
    rcases Nat.mod_two_eq_zero_or_one source.toNat with even | odd <;> simp [*]
  have shifted : (word <<< 1).toNat = word.toNat * 2 := by
    rw [BitVec.toNat_shiftLeft, Nat.shiftLeft_eq, Nat.mod_eq_of_lt (by omega), Nat.pow_one]
  have small : (source.getLsbD 0).toNat < 2 ^ 1 := Bool.toNat_lt _
  have joined := Nat.shiftLeft_add_eq_or_of_lt small word.toNat
  rw [Nat.shiftLeft_eq, Nat.pow_one] at joined
  rw [pushBit, BitVec.toNat_or, shifted, bit, ← joined]
  omega

/-- Pushing several bits puts the last one lowest. -/
theorem pushBits_value (kb : Vector (BitVec 16) 4) (kr : Nat) (steps : List Nat) (word : BitVec 32)
    (bits : List Bool) (stored : word.toNat = value bits) (room : bits.length + steps.length ≤ 32) :
    (steps.foldl (fun word k => pushBit word kb[groupWord kr k]) word).toNat =
      value ((steps.map fun k => kb[groupWord kr k].getLsbD 0).reverse ++ bits) := by
  induction steps generalizing word bits with
  | nil => exact stored
  | cons k rest inductionHypothesis =>
    rw [List.length_cons] at room
    have bound := value_bound bits
    have smaller : 2 ^ bits.length ≤ 2 ^ 31 := Nat.pow_le_pow_right (by decide) (by omega)
    have pushed : (pushBit word kb[groupWord kr k]).toNat =
        value (kb[groupWord kr k].getLsbD 0 :: bits) := by
      rw [pushBit_toNat _ _ (by rw [stored]; omega), stored]
      rfl
    have next := inductionHypothesis _ _ pushed (by rw [List.length_cons]; omega)
    rw [List.foldl_cons, next, List.map_cons, List.reverse_cons, List.append_assoc]
    rfl

/-- The key bits that the first groups move into a subkey word, in the order in which they
    are moved. -/
def movedBits (kb : Vector (BitVec 16) 4) (kr groups slot : Nat) : List Bool :=
  ((List.range groups).filter fun j => j % 3 = slot).flatMap fun j =>
    (List.range 4).map fun k => kb[groupWord kr k].getLsbD j

theorem movedBits_length (kb : Vector (BitVec 16) 4) (kr groups slot : Nat) :
    (movedBits kb kr groups slot).length =
      ((List.range groups).filter fun j => j % 3 = slot).length * 4 := by
  simp [movedBits, List.length_flatMap]

/-- The next group appends four bits to the word it uses. -/
theorem movedBits_next (kb : Vector (BitVec 16) 4) (kr groups slot : Nat) :
    movedBits kb kr (groups + 1) slot = movedBits kb kr groups slot ++
      if groups % 3 = slot then (List.range 4).map fun k => kb[groupWord kr k].getLsbD groups
      else [] := by
  rw [movedBits, movedBits, @List.range_succ groups, List.filter_append, List.flatMap_append]
  split
  case isTrue own => simp [own]
  case isFalse other => simp [other]

/-- No word gets more than five groups. -/
theorem groups_few (groups : Nat) (few : groups ≤ 15) (slot : Fin 3) :
    ((List.range groups).filter fun j => j % 3 = slot.val).length ≤ 5 := by
  have five : ∀ slot : Fin 3, ((List.range 15).filter fun j => j % 3 = slot.val).length = 5 := by
    decide
  rw [← five slot]
  exact ((List.range_sublist.mpr few).filter _).length_le

/-- After some groups the words have been turned as often, and the subkey words hold the
    bits that have been moved.

Induct over the groups: the next one reads its bits from words that have been turned
once for each group before it. -/
theorem scheduleGroups (kb : Vector (BitVec 16) 4) (kr groups : Nat) (few : groups ≤ 15) :
    ∃ sk : Vector (BitVec 32) 3,
      (List.range groups).foldl (fun state j => (List.range 4).foldl (scheduleBit kr j) state)
        (kb, #v[0, 0, 0]) = (kb.map turnWord^[groups], sk) ∧
      ∀ slot : Fin 3, sk[slot].toNat = value (movedBits kb kr groups slot).reverse := by
  induction groups with
  | zero =>
    refine ⟨#v[0, 0, 0], ?_, ?_⟩
    · simp
    · intro slot
      have empty : movedBits kb kr 0 slot = [] := rfl
      have zero : ∀ slot : Fin 3, (#v[0, 0, 0] : Vector (BitVec 32) 3)[slot].toNat = 0 := by decide
      rw [empty, zero]
      rfl
  | succ groups inductionHypothesis =>
    obtain ⟨sk, scheduled, stored⟩ := inductionHypothesis (by omega)
    have turned : (kb.map turnWord^[groups]).map turnWord = kb.map turnWord^[groups + 1] := by
      rw [Vector.map_map, Function.iterate_succ']
    have lowest (k : Nat) : (kb.map turnWord^[groups])[groupWord kr k].getLsbD 0 =
        kb[groupWord kr k].getLsbD groups := by
      have bit := turnWord_iterate kb[groupWord kr k] groups 0 (by omega)
      rw [Nat.zero_add] at bit
      rw [← bit]
      simp
    have next := scheduleGroup kr groups (kb.map turnWord^[groups]) sk
    rw [turned, ← scheduled] at next
    refine ⟨sk.set (groupSlot groups) ((List.range 4).foldl
      (fun word k => pushBit word (kb.map turnWord^[groups])[groupWord kr k])
      sk[groupSlot groups]), ?_, ?_⟩
    · rw [@List.range_succ groups, List.foldl_append]
      exact next
    · intro slot
      have bits := groups_few groups (by omega) slot
      rw [movedBits_next, List.reverse_append]
      by_cases own : groups % 3 = slot
      · obtain rfl : groupSlot groups = slot := Fin.ext own
        have pushed := pushBits_value (kb.map turnWord^[groups]) kr (List.range 4)
          sk[groupSlot groups] _ (stored _) (by
            rw [List.length_reverse, movedBits_length, List.length_range]
            omega)
        simp only [lowest] at pushed
        rw [if_pos own]
        simpa using pushed
      · have distinct : ¬ groupSlot groups = slot := fun same => own (congrArg Fin.val same)
        rw [if_neg own, List.reverse_nil, List.nil_append, ← stored slot]
        have apart : (groupSlot groups).val ≠ slot.val := fun same => distinct (Fin.ext same)
        simp [Vector.getElem_set_ne _ _ apart]

/-- A subkey leaves every word turned fifteen times, and its words hold the moved bits. -/
theorem scheduleSubkey_words (kb : Vector (BitVec 16) 4) (kr : Nat) :
    (scheduleSubkey kb kr).1 = kb.map turnWord^[15] ∧
      ∀ slot : Fin 3, (scheduleSubkey kb kr).2[slot].toNat =
        value (movedBits kb kr 15 slot).reverse := by
  obtain ⟨sk, scheduled, stored⟩ := scheduleGroups kb kr 15 (Nat.le_refl 15)
  rw [scheduleSubkey, scheduled]
  exact ⟨rfl, stored⟩

/-- Each word of a subkey has twenty bits. -/
theorem scheduleSubkey_small (kb : Vector (BitVec 16) 4) (kr : Nat) (slot : Fin 3) :
    (scheduleSubkey kb kr).2[slot].toNat < 2 ^ 20 := by
  have bound := value_bound (movedBits kb kr 15 slot).reverse
  have few := groups_few 15 (Nat.le_refl 15) slot
  rw [List.length_reverse, movedBits_length] at bound
  rw [(scheduleSubkey_words kb kr).2 slot]
  exact Nat.lt_of_lt_of_le bound (Nat.pow_le_pow_right (by decide) (by omega))

/-- Two concatenations of parts with equal lengths have equal parts. -/
theorem flatMap_parts {Entry Cell : Type} (entries : List Entry) (first second : Entry → List Cell)
    (lengths : ∀ entry, (first entry).length = (second entry).length)
    (same : entries.flatMap first = entries.flatMap second) :
    ∀ entry ∈ entries, first entry = second entry := by
  induction entries with
  | nil => exact fun _ member => absurd member List.not_mem_nil
  | cons entry rest inductionHypothesis =>
    rw [List.flatMap_cons, List.flatMap_cons] at same
    obtain ⟨here, later⟩ := List.append_inj same (lengths entry)
    intro other member
    rcases List.mem_cons.mp member with rfl | member
    · exact here
    · exact inductionHypothesis later other member

/-- A subkey determines the fifteen lowest bits of every key word. -/
theorem scheduleSubkey_determines (first second : Vector (BitVec 16) 4) (kr : Nat)
    (same : (scheduleSubkey first kr).2 = (scheduleSubkey second kr).2) (word : Fin 4) (j : Nat)
    (inside : j < 15) : first[word].getLsbD j = second[word].getLsbD j := by
  have bits (slot : Fin 3) : movedBits first kr 15 slot = movedBits second kr 15 slot := by
    have stored := (scheduleSubkey_words first kr).2 slot
    rw [same, (scheduleSubkey_words second kr).2 slot] at stored
    have equal := value_injective _ _ (by
      rw [List.length_reverse, List.length_reverse, movedBits_length, movedBits_length]) stored
    exact (List.reverse_injective equal).symm
  have member : j ∈ (List.range 15).filter fun j' => j' % 3 = (groupSlot j).val := by
    rw [List.mem_filter, List.mem_range]
    exact ⟨inside, decide_eq_true rfl⟩
  have group := flatMap_parts _ _ _ (fun _ => by rw [List.length_map, List.length_map])
    (bits (groupSlot j)) j member
  obtain ⟨k, listed, rfl⟩ : ∃ k ∈ List.range 4, groupWord kr k = word := by
    refine ⟨(word + 4 - kr % 4) % 4, List.mem_range.mpr (Nat.mod_lt _ (by decide)), Fin.ext ?_⟩
    change (kr + (word.val + 4 - kr % 4) % 4) % 4 = word.val
    omega
  exact (List.map_inj_left.mp group) k listed

/-- Two subkeys in a row determine the key words: the second one starts with their highest
    bits. -/
theorem subkeys_determine (first second : Vector (BitVec 16) 4) (kr next : Nat)
    (same : (scheduleSubkey first kr).2 = (scheduleSubkey second kr).2)
    (sameNext : (scheduleSubkey (first.map turnWord^[15]) next).2 =
      (scheduleSubkey (second.map turnWord^[15]) next).2) : first = second := by
  have highest (kb : Vector (BitVec 16) 4) (word : Fin 4) :
      (kb.map turnWord^[15])[word].getLsbD 0 = kb[word].getLsbD 15 := by
    have bit := turnWord_iterate kb[word] 15 0 (by decide)
    rw [Nat.zero_add] at bit
    rw [← bit]
    simp
  apply Vector.ext
  intro index inside
  apply BitVec.eq_of_getLsbD_eq
  intro j below
  by_cases low : j < 15
  · exact scheduleSubkey_determines first second kr same ⟨index, inside⟩ j low
  · obtain rfl : j = 15 := by omega
    have top := scheduleSubkey_determines _ _ next sameNext ⟨index, inside⟩ 0 (by decide)
    rw [highest, highest] at top
    exact top

/-- The subkey of a round, from the words before the first one. -/
def roundSubkey (kb : Vector (BitVec 16) 4) (keyrot : List Nat) (round : Nat) : IceSubkey :=
  ⟨(scheduleSubkey (kb.map turnWord^[15 * round]) (keyrot.getD round 0)).2⟩

/-- The first rounds of `scheduleBuild` store their subkeys in a row. -/
theorem scheduleRounds (kb : Vector (BitVec 16) 4) (keysched : Nat → IceSubkey) (n : Nat)
    (keyrot : List Nat) (rounds : Nat) :
    (List.range rounds).foldl (fun (state : Vector (BitVec 16) 4 × (Nat → IceSubkey)) i =>
        ((scheduleSubkey state.1 (keyrot.getD i 0)).1, fun index =>
          if index = n + i then ⟨(scheduleSubkey state.1 (keyrot.getD i 0)).2⟩ else state.2 index))
        (kb, keysched) =
      (kb.map turnWord^[15 * rounds], fun index =>
        if n ≤ index ∧ index < n + rounds then roundSubkey kb keyrot (index - n)
        else keysched index) := by
  induction rounds with
  | zero =>
    refine Prod.ext ?_ (funext ?_)
    · simp
    · intro index
      have outside : ¬ (n ≤ index ∧ index < n + 0) := by omega
      exact (if_neg outside).symm
  | succ rounds inductionHypothesis =>
    rw [List.range_succ, List.foldl_append, inductionHypothesis, List.foldl_cons, List.foldl_nil]
    refine Prod.ext ?_ (funext ?_)
    · dsimp only
      rw [(scheduleSubkey_words _ _).1, Vector.map_map, ← Function.iterate_add]
      congr 2
      omega
    · intro index
      dsimp only
      by_cases last : index = n + rounds
      · have inside : n ≤ index ∧ index < n + (rounds + 1) := by omega
        have round : index - n = rounds := by omega
        rw [if_pos last, if_pos inside, round]
        rfl
      · rw [if_neg last]
        by_cases inside : n ≤ index ∧ index < n + rounds
        · have further : n ≤ index ∧ index < n + (rounds + 1) := by omega
          rw [if_pos inside, if_pos further]
        · have outside : ¬ (n ≤ index ∧ index < n + (rounds + 1)) := by omega
          rw [if_neg inside, if_neg outside]

/-- `scheduleBuild` stores eight subkeys and turns the key words 120 times. -/
theorem scheduleBuild_stores (kb : Vector (BitVec 16) 4) (keysched : Nat → IceSubkey) (n : Nat)
    (keyrot : List Nat) :
    scheduleBuild kb keysched n keyrot =
      (kb.map turnWord^[120], fun index =>
        if n ≤ index ∧ index < n + 8 then roundSubkey kb keyrot (index - n) else keysched index) :=
  scheduleRounds kb keysched n keyrot 8

end Sniffles.IceKey
