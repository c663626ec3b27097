import Mathlib.Data.List.Basic

/-!
# Texts of delimited fields

A text may hold fields that are each followed by a delimiter. A search for the
delimiter inside a window finds its first occurrence there, so a field that does
not contain it is found with its exact end, and skipping one delimiter for each
field arrives behind all of them.
-/

namespace DelimitedFields

variable {Cell : Type} [DecidableEq Cell] (delimiter : Cell)

/-- The fields, each followed by the delimiter. -/
def terminated (fields : List (List Cell)) : List Cell := fields.flatMap (· ++ [delimiter])

/-- The place of the first delimiter among `length` cells from a start. -/
def find (text : List Cell) (start length : Nat) : Option Nat :=
  (((text.drop start).take length).findIdx? (· == delimiter)).map (start + ·)

/-- The place behind the given number of delimiters from a start. -/
def skip (text : List Cell) : Nat → Nat → Option Nat
  | 0, start => some start
  | count + 1, start =>
    (find delimiter text start (text.length - start)).bind fun found => skip text count (found + 1)

omit [DecidableEq Cell] in
/-- A field stands between the fields before and behind it. -/
theorem terminated_split (fields : List (List Cell)) (field : List Cell) (index : Nat)
    (named : fields[index]? = some field) :
    terminated delimiter fields = terminated delimiter (fields.take index) ++
      (field ++ delimiter :: terminated delimiter (fields.drop (index + 1))) := by
  obtain ⟨inside, value⟩ := List.getElem?_eq_some_iff.mp named
  have parts : fields = fields.take index ++ field :: fields.drop (index + 1) := by
    rw [← value, List.getElem_cons_drop, List.take_append_drop]
  conv => lhs; rw [parts]
  simp only [terminated, List.flatMap_append, List.flatMap_cons, List.append_assoc,
    List.singleton_append]

omit [DecidableEq Cell] in
/-- Replacing a field leaves those before and behind it. -/
theorem terminated_set (fields : List (List Cell)) (value : List Cell) (index : Nat)
    (inside : index < fields.length) :
    terminated delimiter (fields.set index value) = terminated delimiter (fields.take index) ++
      (value ++ delimiter :: terminated delimiter (fields.drop (index + 1))) := by
  have named : (fields.set index value)[index]? = some value := List.getElem?_set_self inside
  rw [terminated_split delimiter _ value index named, List.take_set_of_le (Nat.le_refl _),
    List.drop_set_of_lt (Nat.lt_succ_self _)]

/-- The search finds the end of a field without delimiters. -/
theorem find_field (before field after : List Cell) (length : Nat) (clean : delimiter ∉ field)
    (reaches : field.length < length) :
    find delimiter (before ++ (field ++ delimiter :: after)) before.length length =
      some (before.length + field.length) := by
  have first : ((field ++ delimiter :: after).take length).findIdx? (· == delimiter) =
      some field.length := by
    rw [List.findIdx?_eq_some_iff_getElem]
    refine ⟨by simp; omega, by simp, ?_⟩
    intro index earlier
    have other : field[index] ≠ delimiter := fun same => clean (same ▸ List.getElem_mem earlier)
    simpa [List.getElem_append_left earlier] using other
  rw [find, List.drop_left, first, Option.map_some]

/-- A delimiter inside the window is found there or earlier. -/
theorem find_at_most (text : List Cell) (start length place : Nat) (low : start ≤ place)
    (high : place < start + length) (stored : text[place]? = some delimiter) :
    ∃ found, find delimiter text start length = some found ∧ start ≤ found ∧ found ≤ place := by
  have here : ((text.drop start).take length)[place - start]? = some delimiter := by
    rw [List.getElem?_take_of_lt (by omega), List.getElem?_drop, Nat.add_sub_cancel' low]
    exact stored
  obtain ⟨inside, value⟩ := List.getElem?_eq_some_iff.mp here
  cases search : ((text.drop start).take length).findIdx? (· == delimiter) with
  | none =>
    have absent := List.findIdx?_eq_none_iff.mp search delimiter (value ▸ List.getElem_mem inside)
    simp at absent
  | some index =>
    refine ⟨start + index, by rw [find, search, Option.map_some], Nat.le_add_right _ _, ?_⟩
    obtain ⟨_, _, earliest⟩ := List.findIdx?_eq_some_iff_getElem.mp search
    by_contra later
    exact earliest (place - start) (by omega) (by simp [value])

/-- What a search finds is the end of a field without delimiters. -/
theorem find_split {text : List Cell} {start length found : Nat}
    (search : find delimiter text start length = some found) :
    ∃ field after, text.drop start = field ++ delimiter :: after ∧ delimiter ∉ field ∧
      found = start + field.length := by
  obtain ⟨place, first, same⟩ := Option.map_eq_some_iff.mp search
  obtain ⟨inside, stored, earliest⟩ := List.findIdx?_eq_some_iff_getElem.mp first
  have bounds : place < (text.drop start).length := by
    rw [List.length_take] at inside
    omega
  have value : (text.drop start)[place] = delimiter := by
    rw [List.getElem_take] at stored
    exact eq_of_beq stored
  refine ⟨(text.drop start).take place, (text.drop start).drop (place + 1), ?_, ?_, ?_⟩
  · rw [← value, List.getElem_cons_drop, List.take_append_drop]
  · intro member
    obtain ⟨index, low, here⟩ := List.getElem_of_mem member
    have earlier : index < place := by
      rw [List.length_take] at low
      omega
    rw [List.getElem_take] at here
    refine earliest index earlier ?_
    rw [List.getElem_take, here]
    exact beq_self_eq_true delimiter
  · rw [List.length_take]
    omega

/-- Skipping delimiters splits a text into as many fields and the rest.

Induct over the fields: each search finds the end of the next one. -/
theorem skip_split {text : List Cell} {count start stop : Nat}
    (skipped : skip delimiter text count start = some stop) :
    ∃ fields after, text.drop start = terminated delimiter fields ++ after ∧
      (∀ field ∈ fields, delimiter ∉ field) ∧ fields.length = count ∧
      stop = start + (terminated delimiter fields).length := by
  induction count generalizing start with
  | zero =>
    obtain rfl : start = stop := Option.some.inj skipped
    exact ⟨[], text.drop start, rfl, fun _ member => absurd member List.not_mem_nil, rfl, rfl⟩
  | succ count inductionHypothesis =>
    obtain ⟨found, search, skipped⟩ := Option.bind_eq_some_iff.mp skipped
    obtain ⟨field, rest, split, clean, rfl⟩ := find_split delimiter search
    obtain ⟨fields, after, following, cleanRest, length, rfl⟩ := inductionHypothesis skipped
    have behind : text.drop (start + field.length + 1) = rest := by
      rw [Nat.add_assoc, ← List.drop_drop, split, ← List.drop_drop, List.drop_left]
      rfl
    refine ⟨field :: fields, after, ?_, ?_, ?_, ?_⟩
    · rw [split, ← behind, following]
      simp [terminated]
    · exact List.forall_mem_cons.mpr ⟨clean, cleanRest⟩
    · rw [List.length_cons, length]
    · simp [terminated]
      omega

/-- Skipping one delimiter for each field arrives behind the fields.

Induct over the fields: each search finds the end of the next one. -/
theorem skip_fields (fields : List (List Cell)) (before after : List Cell)
    (clean : ∀ field ∈ fields, delimiter ∉ field) :
    skip delimiter (before ++ (terminated delimiter fields ++ after)) fields.length before.length =
      some (before.length + (terminated delimiter fields).length) := by
  induction fields generalizing before with
  | nil => rfl
  | cons field rest inductionHypothesis =>
    have split : before ++ (terminated delimiter (field :: rest) ++ after) =
        before ++ (field ++ delimiter :: (terminated delimiter rest ++ after)) := by
      simp [terminated]
    have regroup : before ++ (field ++ delimiter :: (terminated delimiter rest ++ after)) =
        (before ++ (field ++ [delimiter])) ++ (terminated delimiter rest ++ after) := by
      simp
    have found := find_field delimiter before field (terminated delimiter rest ++ after)
      ((before ++ (field ++ delimiter :: (terminated delimiter rest ++ after))).length - before.length)
      (clean field List.mem_cons_self) (by simp)
    have next : before.length + field.length + 1 = (before ++ (field ++ [delimiter])).length := by
      simp [Nat.add_assoc]
    rw [split, List.length_cons, skip, found, Option.bind_some, regroup, next,
      inductionHypothesis (before ++ (field ++ [delimiter]))
        (fun other member => clean other (List.mem_cons_of_mem _ member))]
    simp [terminated]
    omega

end DelimitedFields
