import Mathlib.Data.List.Basic
import Mathlib.Tactic.Ring

/-!
# Texts with back-references

A text is given by tokens. A literal token appends a cell; a copy token appends
a number of cells, each of which is the one a fixed distance back, so that a copy
may continue into the cells it appends itself. A copy needs its first cell to
exist. If it repeats what the text already has at that distance, it extends a
prefix of the text to a longer one.
-/

namespace BackReferences

variable {Cell : Type}

/-- A cell, or a copy of `count` cells behind `back` others. -/
inductive Token (Cell : Type) where
  | literal (cell : Cell)
  | copy (back count : Nat)
  deriving DecidableEq, Repr

/-- The number of cells a token stands for. -/
def Token.size : Token Cell → Nat
  | .literal _ => 1
  | .copy _ count => count

/-- The number of cells some tokens stand for. -/
def total (tokens : List (Token Cell)) : Nat := (tokens.map Token.size).sum

/-- Append copies of the cell behind the last `back` cells. -/
def copyBack (back : Nat) : Nat → List Cell → Option (List Cell)
  | 0, produced => some produced
  | count + 1, produced => produced.reverse[back]?.bind fun cell =>
    copyBack back count (produced ++ [cell])

/-- Append what the tokens stand for. -/
def expand : List (Token Cell) → List Cell → Option (List Cell)
  | [], produced => some produced
  | .literal cell :: rest, produced => expand rest (produced ++ [cell])
  | .copy back count :: rest, produced => (copyBack back count produced).bind (expand rest)

/-- Every copy starts inside the cells before it, of which `produced` come before all
    tokens. -/
def References : Nat → List (Token Cell) → Prop
  | _, [] => True
  | produced, .literal _ :: rest => References (produced + 1) rest
  | produced, .copy back count :: rest => back < produced ∧ References (produced + count) rest

instance References.decidable : (produced : Nat) → (tokens : List (Token Cell)) →
    Decidable (References produced tokens)
  | _, [] => .isTrue trivial
  | produced, .literal _ :: rest => References.decidable (produced + 1) rest
  | produced, .copy _ count :: rest =>
    have := References.decidable (produced + count) rest
    inferInstanceAs (Decidable (_ ∧ _))

@[simp] theorem total_nil : total ([] : List (Token Cell)) = 0 := rfl

@[simp] theorem total_cons (token : Token Cell) (rest : List (Token Cell)) :
    total (token :: rest) = token.size + total rest := rfl

/-- A copy whose first cell exists has all its cells. -/
theorem copyBack_exists (back count : Nat) (produced : List Cell) (inside : back < produced.length) :
    ∃ longer, copyBack back count produced = some longer ∧
      longer.length = produced.length + count := by
  induction count generalizing produced with
  | zero => exact ⟨produced, rfl, rfl⟩
  | succ count inductionHypothesis =>
    have stored : back < produced.reverse.length := by rwa [List.length_reverse]
    have further : back < (produced ++ [produced.reverse[back]]).length := by
      rw [List.length_append]
      exact Nat.lt_add_right 1 inside
    obtain ⟨longer, copied, length⟩ := inductionHypothesis _ further
    refine ⟨longer, ?_, ?_⟩
    · rw [copyBack, List.getElem?_eq_getElem stored, Option.bind_some, copied]
    · rw [length, List.length_append, List.length_singleton, Nat.add_assoc, Nat.add_comm 1]

/-- Tokens are expanded one list after the other. -/
theorem expand_append (first second : List (Token Cell)) (produced : List Cell) :
    expand (first ++ second) produced = (expand first produced).bind (expand second) := by
  induction first generalizing produced with
  | nil => rfl
  | cons token rest inductionHypothesis =>
    cases token with
    | literal cell => exact inductionHypothesis (produced ++ [cell])
    | copy back count =>
      simp only [List.cons_append, expand, Option.bind_assoc]
      exact congrArg _ (funext inductionHypothesis)

/-- A copy of cells that the text repeats extends a prefix of the text.

Induct over the count: each appended cell is the next one of the text. -/
theorem copyBack_reproduces (text : List Cell) (start back count position : Nat)
    (apart : start + back + 1 = position) (inside : position + count ≤ text.length)
    (repeated : ∀ index < count, text[start + index]? = text[position + index]?) :
    copyBack back count (text.take position) = some (text.take (position + count)) := by
  induction count generalizing start position with
  | zero => rfl
  | succ count inductionHypothesis =>
    have room : position < text.length := by omega
    have length : (text.take position).length = position := by
      rw [List.length_take]
      omega
    have near : back < (text.take position).length := by omega
    have origin : (text.take position).length - 1 - back = start := by omega
    have cell : (text.take position).reverse[back]? = some text[position] := by
      rw [List.getElem?_reverse near, origin, List.getElem?_take_of_lt (by omega)]
      exact (repeated 0 (Nat.succ_pos count)).trans (List.getElem?_eq_getElem room)
    have longer : text.take position ++ [text[position]] = text.take (position + 1) :=
      List.take_append_getElem room
    have rest := inductionHypothesis (start + 1) (position + 1) (by omega) (by omega)
      fun index below => by
        have next := repeated (index + 1) (Nat.succ_lt_succ below)
        rwa [← Nat.add_assoc, ← Nat.add_assoc, Nat.add_right_comm start,
          Nat.add_right_comm position] at next
    rw [copyBack, cell, Option.bind_some, longer, rest, Nat.add_right_comm, Nat.add_assoc]

/-- Tokens with existing references expand to as many cells as they stand for. -/
theorem expand_exists (tokens : List (Token Cell)) (produced : List Cell)
    (references : References produced.length tokens) :
    ∃ text, expand tokens produced = some text ∧ text.length = produced.length + total tokens := by
  induction tokens generalizing produced with
  | nil => exact ⟨produced, rfl, rfl⟩
  | cons token rest inductionHypothesis =>
    cases token with
    | literal cell =>
      have next : References (produced ++ [cell]).length rest := by
        rw [List.length_append]
        exact references
      obtain ⟨text, expanded, length⟩ := inductionHypothesis _ next
      refine ⟨text, expanded, ?_⟩
      rw [length, List.length_append, total_cons, Nat.add_assoc]
      rfl
    | copy back count =>
      obtain ⟨longer, copied, copiedLength⟩ := copyBack_exists back count produced references.1
      have next : References longer.length rest := copiedLength ▸ references.2
      obtain ⟨text, expanded, length⟩ := inductionHypothesis longer next
      refine ⟨text, ?_, ?_⟩
      · rw [expand, copied, Option.bind_some, expanded]
      · rw [length, copiedLength, total_cons, Nat.add_assoc]
        rfl

/-- A copy of at least one cell has its first cell. -/
theorem copyBack_inside (back count : Nat) (produced longer : List Cell) (several : 0 < count)
    (copied : copyBack back count produced = some longer) : back < produced.length := by
  cases count with
  | zero => exact absurd several (Nat.lt_irrefl 0)
  | succ count =>
    obtain ⟨cell, stored, _⟩ := Option.bind_eq_some_iff.mp copied
    have inside := (List.getElem?_eq_some_iff.mp stored).1
    rwa [List.length_reverse] at inside

/-- Tokens that can be expanded have existing references. -/
theorem expand_references (tokens : List (Token Cell)) (produced text : List Cell)
    (nonempty : ∀ token ∈ tokens, 0 < token.size) (expanded : expand tokens produced = some text) :
    References produced.length tokens := by
  induction tokens generalizing produced with
  | nil => trivial
  | cons token rest inductionHypothesis =>
    have nonemptyRest : ∀ other ∈ rest, 0 < other.size :=
      fun other member => nonempty other (List.mem_cons_of_mem token member)
    cases token with
    | literal cell =>
      have next := inductionHypothesis (produced ++ [cell]) nonemptyRest expanded
      rwa [List.length_append] at next
    | copy back count =>
      obtain ⟨longer, copied, further⟩ := Option.bind_eq_some_iff.mp expanded
      have inside := copyBack_inside back count produced longer
        (nonempty _ List.mem_cons_self) copied
      obtain ⟨same, copiedSame, length⟩ := copyBack_exists back count produced inside
      obtain rfl : same = longer := Option.some.inj (copiedSame.symm.trans copied)
      exact ⟨inside, length ▸ inductionHypothesis same nonemptyRest further⟩

end BackReferences
