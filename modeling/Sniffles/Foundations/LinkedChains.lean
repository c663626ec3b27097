import Mathlib.Data.List.Basic

/-!
# Chains of doubly linked nodes

Nodes lie in slots and name their neighbours by slots. A list of slots is linked
when each node names the slot before it and the slot after it. A node can be put
before the first one or taken from the end by changing the links of one
neighbour; nodes that lie on no touched place keep their chains.
-/

namespace LinkedChains

variable {Slot : Type}

/-- The neighbours that the node in each slot names. -/
structure Links (Slot : Type) where
  previous : Slot → Option Slot
  next : Slot → Option Slot

/-- The slots of a chain whose first node names `before` as its predecessor. -/
def Linked (links : Links Slot) : Option Slot → List Slot → Prop
  | _, [] => True
  | before, slot :: rest =>
    links.previous slot = before ∧ links.next slot = rest.head? ∧ Linked links (some slot) rest

/-- A chain depends on the links of its own slots only. -/
theorem linked_congr (links changed : Links Slot) (before : Option Slot) (chain : List Slot)
    (linked : Linked links before chain)
    (same : ∀ slot ∈ chain, changed.previous slot = links.previous slot ∧
      changed.next slot = links.next slot) : Linked changed before chain := by
  induction chain generalizing before with
  | nil => trivial
  | cons slot rest inductionHypothesis =>
    obtain ⟨back, forth, tail⟩ := linked
    obtain ⟨sameBack, sameForth⟩ := same slot List.mem_cons_self
    exact ⟨sameBack.trans back, sameForth.trans forth,
      inductionHypothesis (some slot) tail fun other member =>
        same other (List.mem_cons_of_mem slot member)⟩

/-- Every node of a chain names the nodes around it. -/
theorem linked_between (links : Links Slot) (before : Option Slot) (front rear : List Slot)
    (slot : Slot) (linked : Linked links before (front ++ slot :: rear)) :
    links.previous slot = front.getLast?.or before ∧ links.next slot = rear.head? := by
  induction front generalizing before with
  | nil => exact ⟨linked.1, linked.2.1⟩
  | cons first rest inductionHypothesis =>
    obtain ⟨back, forth⟩ := inductionHypothesis (some first) linked.2.2
    refine ⟨?_, forth⟩
    rw [back]
    cases rest with
    | nil => rfl
    | cons next rest => simp [List.getLast?_cons]

/-- The last node of a chain names the node before it. -/
theorem linked_last (links : Links Slot) (before : Option Slot) (chain : List Slot) (last : Slot)
    (linked : Linked links before (chain ++ [last])) :
    links.previous last = chain.getLast?.or before :=
  (linked_between links before chain [] last linked).1

/-- The slots that a walk from a slot visits, if it ends within a number of nodes. -/
def follow (links : Links Slot) : Nat → Option Slot → Option (List Slot)
  | _, none => some []
  | 0, some _ => none
  | nodes + 1, some slot => (follow links nodes (links.next slot)).map (slot :: ·)

/-- A walk from the first slot of a chain visits the chain. -/
theorem follow_linked (links : Links Slot) (before : Option Slot) (chain : List Slot) (nodes : Nat)
    (linked : Linked links before chain) (enough : chain.length ≤ nodes) :
    follow links nodes chain.head? = some chain := by
  induction chain generalizing before nodes with
  | nil => cases nodes <;> rfl
  | cons slot rest inductionHypothesis =>
    obtain ⟨_, forth, tail⟩ := linked
    cases nodes with
    | zero => exact absurd enough (Nat.not_succ_le_zero _)
    | succ nodes =>
      have walked := inductionHypothesis (some slot) nodes tail (Nat.le_of_succ_le_succ enough)
      rw [List.head?_cons, follow, forth, walked]
      rfl

variable [DecidableEq Slot]

/-- A new first node names no predecessor and the old first node, which names it. -/
theorem linked_first (links changed : Links Slot) (slot : Slot) (chain : List Slot)
    (linked : Linked links none chain) (unique : chain.Nodup)
    (back : changed.previous slot = none) (forth : changed.next slot = chain.head?)
    (previous : ∀ other ∈ chain, changed.previous other =
      if chain.head? = some other then some slot else links.previous other)
    (next : ∀ other ∈ chain, changed.next other = links.next other) :
    Linked changed none (slot :: chain) := by
  refine ⟨back, forth, ?_⟩
  cases chain with
  | nil => trivial
  | cons first rest =>
    obtain ⟨_, firstForth, tail⟩ := linked
    obtain ⟨absent, _⟩ := List.nodup_cons.mp unique
    have firstBack := previous first List.mem_cons_self
    rw [List.head?_cons, if_pos rfl] at firstBack
    refine ⟨firstBack, (next first List.mem_cons_self).trans firstForth, ?_⟩
    refine linked_congr links changed _ rest tail ?_
    intro other member
    have inside := List.mem_cons_of_mem first member
    have distinct : ¬ (first :: rest).head? = some other := by
      rintro ⟨⟩
      exact absent member
    exact ⟨by rw [previous other inside, if_neg distinct], next other inside⟩

/-- Without its last node a chain ends where that node pointed back to.

Induct over the chain: only the node before the last one changes its successor. -/
theorem linked_without_last (links changed : Links Slot) (before : Option Slot)
    (chain : List Slot) (last : Slot) (linked : Linked links before (chain ++ [last]))
    (unique : chain.Nodup)
    (previous : ∀ other ∈ chain, changed.previous other = links.previous other)
    (next : ∀ other ∈ chain, changed.next other =
      if chain.getLast? = some other then none else links.next other) :
    Linked changed before chain := by
  induction chain generalizing before with
  | nil => trivial
  | cons slot rest inductionHypothesis =>
    obtain ⟨back, forth, tail⟩ := linked
    obtain ⟨absent, uniqueRest⟩ := List.nodup_cons.mp unique
    have slotNext := next slot List.mem_cons_self
    refine ⟨(previous slot List.mem_cons_self).trans back, ?_, ?_⟩
    · cases rest with
      | nil => simpa using slotNext
      | cons second rest =>
        have distinct : ¬ (slot :: second :: rest).getLast? = some slot := by
          rw [List.getLast?_cons_cons]
          exact fun same => absent (List.mem_of_getLast? same)
        rw [slotNext, if_neg distinct, forth]
        rfl
    · refine inductionHypothesis (some slot) tail uniqueRest
        (fun other member => previous other (List.mem_cons_of_mem slot member)) ?_
      intro other member
      rw [next other (List.mem_cons_of_mem slot member)]
      cases rest with
      | nil => cases member
      | cons second rest => rw [List.getLast?_cons_cons]

end LinkedChains
