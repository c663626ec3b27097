import Mathlib

/-!
# Applying a block function to a text

A text is divided into blocks of a fixed width. The function is applied to each
complete block and the incomplete rest of the text is kept as it is. A block
function and its inverse therefore give mutually inverse functions on texts of
every length.
-/

namespace BlockMode

variable {Cell : Type} {width : Nat}

/-- The leading block of a text that is long enough. -/
def leading (text : List Cell) (complete : width ≤ text.length) : Vector Cell width :=
  ⟨(text.take width).toArray, by simpa using complete⟩

/-- Apply the function to each complete block. -/
def mapBlocks [NeZero width] (function : Vector Cell width → Vector Cell width)
    (text : List Cell) : List Cell :=
  if complete : width ≤ text.length then
    (function (leading text complete)).toList ++ mapBlocks function (text.drop width)
  else text
termination_by text.length
decreasing_by
  have positive : 0 < width := Nat.pos_of_ne_zero (NeZero.ne width)
  rw [List.length_drop]
  omega

variable [NeZero width]

/-- A text without a complete block is unchanged. -/
theorem mapBlocks_short (function : Vector Cell width → Vector Cell width) (text : List Cell)
    (short : text.length < width) : mapBlocks function text = text := by
  rw [mapBlocks, dif_neg (by omega)]

/-- A stored leading block is transformed on its own. -/
theorem mapBlocks_block (function : Vector Cell width → Vector Cell width)
    (block : Vector Cell width) (rest : List Cell) :
    mapBlocks function (block.toList ++ rest) =
      (function block).toList ++ mapBlocks function rest := by
  have complete : width ≤ (block.toList ++ rest).length := by simp
  have first : leading (block.toList ++ rest) complete = block := by
    apply Vector.toList_inj.mp
    exact List.take_left' block.length_toList
  have remaining : (block.toList ++ rest).drop width = rest :=
    List.drop_left' block.length_toList
  rw [mapBlocks, dif_pos complete, first, remaining]

/-- Induction over a text block by block. -/
theorem blockwise (width : Nat) [NeZero width] {property : List Cell → Prop}
    (short : ∀ text, text.length < width → property text)
    (block : ∀ (block : Vector Cell width) rest, property rest → property (block.toList ++ rest))
    (text : List Cell) : property text := by
  have positive : 0 < width := Nat.pos_of_ne_zero (NeZero.ne width)
  generalize size : text.length = count
  induction count using Nat.strong_induction_on generalizing text with
  | h count inductionHypothesis =>
    by_cases complete : width ≤ text.length
    · have smaller : (text.drop width).length < count := by
        rw [List.length_drop]
        omega
      have rest := inductionHypothesis _ smaller (text.drop width) rfl
      have joined : (leading text complete).toList ++ text.drop width = text := by
        simp [leading]
      rw [← joined]
      exact block _ _ rest
    · exact short text (by omega)

/-- A block function keeps the length of every text. -/
@[simp] theorem mapBlocks_length (function : Vector Cell width → Vector Cell width)
    (text : List Cell) : (mapBlocks function text).length = text.length := by
  induction text using blockwise width with
  | short text short => rw [mapBlocks_short function text short]
  | block block rest inductionHypothesis =>
    rw [mapBlocks_block, List.length_append, List.length_append, inductionHypothesis]
    simp

/-- Inverse block functions are inverse on texts. -/
theorem mapBlocks_inverse (there back : Vector Cell width → Vector Cell width)
    (inverse : ∀ block, back (there block) = block) (text : List Cell) :
    mapBlocks back (mapBlocks there text) = text := by
  induction text using blockwise width with
  | short text short => rw [mapBlocks_short there text short, mapBlocks_short back text short]
  | block block rest inductionHypothesis =>
    rw [mapBlocks_block, mapBlocks_block, inverse, inductionHypothesis]

end BlockMode
