import Mathlib.Data.List.Basic

/-!
# Searching a text for a pattern

A pattern occurs at an index when it stands there between a front and a rear
part of the text. A search is exact when it returns the least such index, and a
value set aside for that purpose when there is none.
-/

namespace SubstringSearch

variable {Cell : Type}

/-- The pattern stands in the text behind `index` cells. -/
def OccursAt (text pattern : List Cell) (index : Nat) : Prop :=
  ∃ before after, text = before ++ (pattern ++ after) ∧ before.length = index

/-- An occurrence is inside the text and agrees with the pattern cell by cell. -/
theorem occursAt_iff (text pattern : List Cell) (index : Nat) :
    OccursAt text pattern index ↔ index + pattern.length ≤ text.length ∧
      ∀ offset < pattern.length, text[index + offset]? = pattern[offset]? := by
  constructor
  · rintro ⟨before, after, rfl, rfl⟩
    refine ⟨by simp, ?_⟩
    intro offset inside
    rw [List.getElem?_append_right (Nat.le_add_right _ _), Nat.add_sub_cancel_left,
      List.getElem?_append_left inside]
  · rintro ⟨room, agrees⟩
    have window : (text.drop index).take pattern.length = pattern := by
      apply List.ext_getElem?
      intro offset
      by_cases inside : offset < pattern.length
      · rw [List.getElem?_take_of_lt inside, List.getElem?_drop, agrees offset inside]
      · rw [List.getElem?_eq_none (by simp; omega), List.getElem?_eq_none (by omega)]
    refine ⟨text.take index, (text.drop index).drop pattern.length, ?_, by simp; omega⟩
    have rest := List.take_append_drop pattern.length (text.drop index)
    rw [window] at rest
    rw [rest, List.take_append_drop]

/-- A pattern that is longer than the text does not occur. -/
theorem occursAt_short {text pattern : List Cell} {index : Nat}
    (occurs : OccursAt text pattern index) : pattern.length ≤ text.length := by
  have room := ((occursAt_iff text pattern index).mp occurs).1
  omega

/-- What an exact search returns: the value for absence exactly when the pattern does not
    occur, and otherwise its least index. -/
structure Finds (text pattern : List Cell) (absent result : Nat) : Prop where
  missing : result = absent ↔ ∀ index, ¬ OccursAt text pattern index
  least : ∀ index, OccursAt text pattern index → OccursAt text pattern result ∧ result ≤ index

/-- The first occurrence is found. -/
theorem finds_first {text pattern : List Cell} {absent result : Nat}
    (occurs : OccursAt text pattern result)
    (notBefore : ∀ earlier < result, ¬ OccursAt text pattern earlier) (apart : result ≠ absent) :
    Finds text pattern absent result where
  missing := ⟨fun same => absurd same apart, fun never => absurd occurs (never result)⟩
  least := fun index other => ⟨occurs, Nat.le_of_not_lt fun earlier => notBefore index earlier other⟩

/-- Absence is reported. -/
theorem finds_none {text pattern : List Cell} {absent : Nat}
    (never : ∀ index, ¬ OccursAt text pattern index) : Finds text pattern absent absent where
  missing := ⟨fun _ => never, fun _ => rfl⟩
  least := fun index occurs => absurd occurs (never index)

end SubstringSearch
