import Mathlib.Data.List.Basic

/-!
# Feistel networks

One round keeps the right half and mixes the left half with a function of the
right half and a round key; the halves change places. The function is arbitrary.
All that the network needs is that mixing the same value in twice removes it.
Running the same network with the round keys reversed then undoes it, up to the
exchange of the two halves at both ends.
-/

namespace FeistelNetwork

universe u v
variable {α : Type u} {κ : Type v} (mix : α → α → α) (roundFunction : α → κ → α)

/-- One round of the network. -/
def round (halves : α × α) (key : κ) : α × α :=
  (halves.2, mix halves.1 (roundFunction halves.2 key))

/-- All rounds, in the order of their keys. -/
def run (keys : List κ) (halves : α × α) : α × α :=
  keys.foldl (round mix roundFunction) halves

/-- A round on exchanged halves takes back the round with the same key. -/
theorem round_swap_round (cancels : ∀ left right, mix (mix left right) right = left)
    (halves : α × α) (key : κ) :
    round mix roundFunction (round mix roundFunction halves key).swap key = halves.swap := by
  simp only [round, Prod.swap_prod_mk, cancels]
  rfl

/-- Key lists run one after the other. -/
theorem run_append (first second : List κ) (halves : α × α) :
    run mix roundFunction (first ++ second) halves =
      run mix roundFunction second (run mix roundFunction first halves) := by
  simp [run]

/-- The network with reversed keys undoes the network on exchanged halves.

Induct over the keys. The first key comes last in the reversed list, where the
halves are those after its own round. -/
theorem run_reverse (cancels : ∀ left right, mix (mix left right) right = left)
    (keys : List κ) (halves : α × α) :
    run mix roundFunction keys.reverse (run mix roundFunction keys halves).swap = halves.swap := by
  induction keys generalizing halves with
  | nil => rfl
  | cons key rest inductionHypothesis =>
    rw [List.reverse_cons, run_append]
    have inner : run mix roundFunction rest.reverse
        (run mix roundFunction (key :: rest) halves).swap =
        (round mix roundFunction halves key).swap :=
      inductionHypothesis (round mix roundFunction halves key)
    rw [inner]
    exact round_swap_round mix roundFunction cancels halves key

end FeistelNetwork
