import Mathlib.Data.List.Basic

/-!
# The latest position with the greatest score

Among the positions of a nonempty interval the latest one with the greatest
score is unique. It is found upwards, replacing the position in hand by each
later one that scores no less.
-/

namespace LatestMaxima

/-- A position from `low` to below `high` that no other one exceeds and no later one
    reaches. -/
structure LatestMaximum (score : Nat → Nat) (low high position : Nat) : Prop where
  above : low ≤ position
  below : position < high
  greatest : ∀ other, low ≤ other → other < high → score other ≤ score position
  latest : ∀ other, position < other → other < high → score other < score position

/-- Find it among the given number of positions. -/
def latestMaximum (score : Nat → Nat) (low : Nat) : Nat → Option Nat
  | 0 => none
  | count + 1 =>
    match latestMaximum score low count with
    | none => some (low + count)
    | some position =>
      if score position ≤ score (low + count) then some (low + count) else some position

/-- There is only one such position. -/
theorem LatestMaximum.unique {score : Nat → Nat} {low high first second : Nat}
    (one : LatestMaximum score low high first) (two : LatestMaximum score low high second) :
    first = second := by
  rcases Nat.lt_trichotomy first second with earlier | equal | later
  · have less := one.latest second earlier two.below
    exact absurd (two.greatest first one.above one.below) (Nat.not_le_of_lt less)
  · exact equal
  · have less := two.latest first later one.below
    exact absurd (one.greatest second two.above two.below) (Nat.not_le_of_lt less)

/-- A position behind the interval replaces the one in hand if it scores no less. -/
theorem LatestMaximum.extended {score : Nat → Nat} {low high position : Nat}
    (found : LatestMaximum score low high position) :
    LatestMaximum score low (high + 1) (if score position ≤ score high then high else position) := by
  have ordered : low ≤ high := Nat.le_trans found.above (Nat.le_of_lt found.below)
  split
  case isTrue better =>
    refine ⟨ordered, Nat.lt_succ_self high, ?_, ?_⟩
    · intro other above below
      rcases Nat.lt_succ_iff_lt_or_eq.mp below with inside | rfl
      · exact Nat.le_trans (found.greatest other above inside) better
      · exact Nat.le_refl _
    · intro other above below
      exact absurd above (Nat.not_lt_of_le (Nat.le_of_lt_succ below))
  case isFalse worse =>
    have less : score high < score position := Nat.lt_of_not_le worse
    refine ⟨found.above, Nat.lt_succ_of_lt found.below, ?_, ?_⟩
    · intro other above below
      rcases Nat.lt_succ_iff_lt_or_eq.mp below with inside | rfl
      · exact found.greatest other above inside
      · exact Nat.le_of_lt less
    · intro other above below
      rcases Nat.lt_succ_iff_lt_or_eq.mp below with inside | rfl
      · exact found.latest other above inside
      · exact less

/-- The search finds it in every nonempty interval.

Induct over the number of positions: the last one is compared with the best of the
others. -/
theorem latestMaximum_found (score : Nat → Nat) (low count : Nat) :
    ∃ position, latestMaximum score low (count + 1) = some position ∧
      LatestMaximum score low (low + (count + 1)) position := by
  induction count with
  | zero =>
    refine ⟨low, rfl, Nat.le_refl low, Nat.lt_succ_self low, ?_, ?_⟩
    · intro other above below
      obtain rfl := Nat.le_antisymm above (Nat.le_of_lt_succ below)
      exact Nat.le_refl _
    · intro other above below
      exact absurd above (Nat.not_lt_of_le (Nat.le_of_lt_succ below))
  | succ count inductionHypothesis =>
    obtain ⟨position, found, best⟩ := inductionHypothesis
    refine ⟨_, ?_, best.extended⟩
    rw [latestMaximum, found]
    exact (apply_ite some _ _ _).symm

/-- A position with both properties is the one that the search finds. -/
theorem LatestMaximum.found {score : Nat → Nat} {low high position : Nat}
    (best : LatestMaximum score low high position) :
    latestMaximum score low (high - low) = some position := by
  obtain ⟨count, rfl⟩ := Nat.exists_eq_add_of_lt (Nat.lt_of_le_of_lt best.above best.below)
  have width : low + count + 1 - low = count + 1 := by omega
  obtain ⟨other, searched, same⟩ := latestMaximum_found score low count
  rw [width, searched, same.unique best]

end LatestMaxima
