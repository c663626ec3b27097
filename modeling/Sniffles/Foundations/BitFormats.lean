import Sniffles.Foundations.BitSequences

/-!
# Formats of bit sequences

A format takes a value from the front of a bit sequence and leaves the rest, or it
finds that bits are missing. A code denotes a value in a format if the value is taken
from it whatever follows, so codes can be put one behind the other.

A machine implements a format if it returns the value and goes on to the rest. Where
bits are missing it gets lost, and a lost machine stays lost. Both notions are closed
under composition, and so they pass from single fields to lists of fields whose values
have types of their own.
-/

namespace BitFormats

open BitSequences

/-- What stands in front of a bit sequence. -/
abbrev BitFormat := StateT (List Bool) Option

/-- The number that the next bits denote. -/
def takeNumber (count : Nat) : BitFormat Nat := fun bits =>
  if count ≤ bits.length then some (value (bits.take count), bits.drop count) else none

theorem run_bind {α β : Type} (format : BitFormat α) (next : α → BitFormat β) (bits : List Bool) :
    (format >>= next).run bits = (format.run bits).bind fun taken => (next taken.1).run taken.2 :=
  rfl

theorem run_takeNumber (count : Nat) (bits : List Bool) :
    (takeNumber count).run bits =
      if count ≤ bits.length then some (value (bits.take count), bits.drop count) else none := rfl

/-- A number that is found is the value of the next bits. -/
theorem number_found {α : Type} {function : Nat → α} {count : Nat} {bits rest : List Bool} {a : α}
    (taken : (function <$> takeNumber count).run bits = some (a, rest)) :
    count ≤ bits.length ∧ function (value (bits.take count)) = a ∧ bits.drop count = rest := by
  have split : ((takeNumber count).run bits).bind (fun pair => some (function pair.1, pair.2)) =
      some (a, rest) := taken
  rw [run_takeNumber] at split
  by_cases room : count ≤ bits.length
  · rw [if_pos room, Option.bind_some] at split
    cases split
    exact ⟨room, rfl, rfl⟩
  · rw [if_neg room] at split
    cases split

/-- A number is missing where there are too few bits. -/
theorem number_missing {α : Type} {function : Nat → α} {count : Nat} {bits : List Bool}
    (missing : (function <$> takeNumber count).run bits = none) : bits.length < count := by
  have split : ((takeNumber count).run bits).bind (fun pair => some (function pair.1, pair.2)) =
      none := missing
  rw [run_takeNumber] at split
  by_contra room
  rw [if_pos (Nat.le_of_not_lt room), Option.bind_some] at split
  cases split

/-- Whatever follows the code, the value is taken from it and the rest is left. -/
def Denotes {α : Type} (format : BitFormat α) (code : List Bool) (a : α) : Prop :=
  ∀ more, format.run (code ++ more) = some (a, more)

namespace Denotes

variable {α β : Type} {format : BitFormat α} {code : List Bool} {a : α}

theorem pure (a : α) : Denotes (Pure.pure a : BitFormat α) [] a := fun _ => rfl

/-- The codes of successive values stand one behind the other. -/
theorem bind {next : α → BitFormat β} {second : List Bool} {b : β} (first : Denotes format code a)
    (following : Denotes (next a) second b) : Denotes (format >>= next) (code ++ second) b := by
  intro more
  rw [run_bind, List.append_assoc, first, Option.bind_some, following]

/-- The last value is put together with the earlier ones. -/
theorem done {function : α → β} {b : β} (denotes : Denotes format code a) (same : function a = b) :
    Denotes (format >>= fun a => Pure.pure (function a)) code b := by
  have last : Denotes (format >>= fun a => Pure.pure (function a)) (code ++ []) (function a) :=
    denotes.bind (Denotes.pure (function a))
  rw [List.append_nil, same] at last
  exact last

theorem map (function : α → β) (denotes : Denotes format code a) :
    Denotes (function <$> format) code (function a) := denotes.done rfl

/-- A number is denoted by its low bits. -/
theorem number (count number : Nat) (small : number < 2 ^ count) :
    Denotes (takeNumber count) (numberBits count number) number := by
  intro more
  have room : count ≤ (numberBits count number ++ more).length := by
    rw [List.length_append, numberBits_length]
    exact Nat.le_add_right count _
  have taken : (numberBits count number ++ more).take count = numberBits count number :=
    List.take_left' (numberBits_length count number)
  have left : (numberBits count number ++ more).drop count = more :=
    List.drop_left' (numberBits_length count number)
  rw [run_takeNumber, if_pos room, taken, left, value_numberBits, Nat.mod_eq_of_lt small]

/-- A bit sequence begins with at most one code. -/
theorem unique {second rest behind : List Bool} {b : α} (first : Denotes format code a)
    (other : Denotes format second b) (same : code ++ rest = second ++ behind) :
    a = b ∧ rest = behind := by
  have both := (first rest).symm.trans ((congrArg format.run same).trans (other behind))
  exact Prod.mk.inj (Option.some.inj both)

end Denotes

section Machines

variable {State : Type} (Stands : State → List Bool → Prop) (Lost : State → Prop)

/-- The machine reads what the format takes, and is lost for good where bits are
    missing. -/
structure Implements {α : Type} (machine : StateM State α) (format : BitFormat α) : Prop where
  found : ∀ {state : State} {bits rest : List Bool} {a : α}, Stands state bits →
    format.run bits = some (a, rest) →
      (machine.run state).1 = a ∧ Stands (machine.run state).2 rest
  missing : ∀ {state : State} {bits : List Bool}, Stands state bits → format.run bits = none →
    Lost (machine.run state).2
  lost : ∀ {state : State}, Lost state → Lost (machine.run state).2

namespace Implements

variable {Stands Lost} {α β : Type} {machine : StateM State α} {format : BitFormat α}

theorem pure (a : α) : Implements Stands Lost (Pure.pure a) (Pure.pure a) where
  found stands taken := by
    cases taken
    exact ⟨rfl, stands⟩
  missing _ none := by cases none
  lost gone := gone

/-- What follows may depend on the value. -/
theorem bind {next : α → StateM State β} {following : α → BitFormat β}
    (first : Implements Stands Lost machine format)
    (others : ∀ a, Implements Stands Lost (next a) (following a)) :
    Implements Stands Lost (machine >>= next) (format >>= following) where
  found {state bits rest b} stands taken := by
    rw [run_bind, Option.bind_eq_some_iff] at taken
    obtain ⟨⟨a, between⟩, one, two⟩ := taken
    obtain ⟨read, further⟩ := first.found stands one
    rw [StateT.run_bind]
    have behind := (others a).found further two
    rw [← read] at behind
    exact behind
  missing {state bits} stands none := by
    rw [run_bind] at none
    cases one : format.run bits with
    | none => exact (others _).lost (first.missing stands one)
    | some taken =>
      obtain ⟨a, between⟩ := taken
      rw [one, Option.bind_some] at none
      obtain ⟨read, further⟩ := first.found stands one
      have behind := (others a).missing further none
      rw [← read] at behind
      exact behind
  lost gone := (others _).lost (first.lost gone)

theorem map (function : α → β) (implements : Implements Stands Lost machine format) :
    Implements Stands Lost (function <$> machine) (function <$> format) :=
  implements.bind fun a => pure (function a)

/-- Both sides may take the same branch. -/
theorem branch {condition : Prop} [Decidable condition] {others : StateM State α}
    {otherFormat : BitFormat α} (yes : condition → Implements Stands Lost machine format)
    (no : ¬condition → Implements Stands Lost others otherFormat) :
    Implements Stands Lost (if condition then machine else others)
      (if condition then format else otherFormat) := by
  split
  case isTrue holds => exact yes holds
  case isFalse fails => exact no fails

end Implements

end Machines

section Fields

variable {Kind : Type} {Value : Kind → Type}

/-- Read fields of the given kinds one behind the other. -/
def readFields {m : Type → Type} [Monad m] (read : (kind : Kind) → m (Value kind)) :
    List Kind → m (List (Sigma Value))
  | [] => pure []
  | kind :: kinds => do
    let field ← read kind
    let others ← readFields read kinds
    pure (⟨kind, field⟩ :: others)

/-- The codes of the fields of a list make up a code of the list. -/
theorem Denotes.fields (format : (kind : Kind) → BitFormat (Value kind))
    (code : Sigma Value → List Bool) (fields : List (Sigma Value))
    (each : ∀ field ∈ fields, Denotes (format field.1) (code field) field.2) :
    Denotes (readFields format (fields.map Sigma.fst)) (fields.flatMap code) fields := by
  induction fields with
  | nil => exact Denotes.pure []
  | cons field others inductionHypothesis =>
    obtain ⟨one, rest⟩ := List.forall_mem_cons.mp each
    exact one.bind ((inductionHypothesis rest).done rfl)

/-- A machine that implements every kind of field implements every list of them. -/
theorem Implements.fields {State : Type} {Stands : State → List Bool → Prop} {Lost : State → Prop}
    {machine : (kind : Kind) → StateM State (Value kind)}
    {format : (kind : Kind) → BitFormat (Value kind)}
    (each : ∀ kind, Implements Stands Lost (machine kind) (format kind)) (kinds : List Kind) :
    Implements Stands Lost (readFields machine kinds) (readFields format kinds) := by
  induction kinds with
  | nil => exact Implements.pure []
  | cons kind kinds inductionHypothesis =>
    exact (each kind).bind fun field => inductionHypothesis.bind fun others => Implements.pure _

end Fields

end BitFormats
