import Sniffles.SlidingWindow

/-!
# The match search

The walk along a list compares the look-ahead with every earlier occurrence of
its first byte in the window, latest first, until one agrees as far as the
look-ahead reaches. Over represented chains it reads inside the input only, it
ends after at most one node for each position of the window, and it returns the
best candidate of the list of occurrences.
-/

namespace Sniffles.CLZSS

open BitSequences CheckedMemory LinkedChains

/-- The number of equal bytes from two positions on, up to a limit. -/
def agreement (bytes : List Byte) (first second : Nat) : Nat → Nat
  | 0 => 0
  | limit + 1 =>
    if bytes[first]? = bytes[second]? then agreement bytes (first + 1) (second + 1) limit + 1 else 0

/-- The walk over candidate positions: a longer agreement replaces the best one, and
    an agreement of the whole look-ahead ends the walk. -/
def bestOf (source : Source) (position limit : Nat) : List Nat → Match → Match
  | [], best => best
  | candidate :: rest, best =>
    let length := agreement source.bytes candidate position limit
    let best := best.improve length (source.base + candidate)
    if length = limit then best else bestOf source position limit rest best

theorem agreement_le (bytes : List Byte) (first second limit : Nat) :
    agreement bytes first second limit ≤ limit := by
  induction limit generalizing first second with
  | zero => exact Nat.le_refl 0
  | succ limit inductionHypothesis =>
    rw [agreement]
    split
    · exact Nat.succ_le_succ (inductionHypothesis _ _)
    · exact Nat.zero_le _

/-- Below the agreement the bytes are equal. -/
theorem agreement_equal (bytes : List Byte) (first second limit index : Nat)
    (below : index < agreement bytes first second limit) :
    bytes[first + index]? = bytes[second + index]? := by
  induction limit generalizing first second index with
  | zero => exact absurd below (Nat.not_lt_zero index)
  | succ limit inductionHypothesis =>
    rw [agreement] at below
    split at below
    case isTrue equal =>
      cases index with
      | zero => exact equal
      | succ index =>
        have next := inductionHypothesis (first + 1) (second + 1) index (Nat.lt_of_succ_lt_succ below)
        rwa [Nat.add_right_comm, Nat.add_right_comm second] at next
    case isFalse => exact absurd below (Nat.not_lt_zero index)

/-- Equal bytes agree up to the limit. -/
theorem agreement_complete (bytes : List Byte) (first second limit : Nat)
    (equal : ∀ index < limit, bytes[first + index]? = bytes[second + index]?) :
    agreement bytes first second limit = limit := by
  induction limit generalizing first second with
  | zero => rfl
  | succ limit inductionHypothesis =>
    have here : bytes[first]? = bytes[second]? := equal 0 (Nat.succ_pos limit)
    have rest := inductionHypothesis (first + 1) (second + 1) fun index below => by
      have next := equal (index + 1) (Nat.succ_lt_succ below)
      rwa [Nat.add_right_comm, Nat.add_right_comm second, Nat.add_assoc, Nat.add_assoc]
    rw [agreement, if_pos here, rest]

/-- The compare loop counts the equal bytes. -/
theorem matchFrom_counts (source : Source) (candidate position length matched : Nat)
    (earlier : candidate < position) (inside : position + matched + length ≤ source.bytes.length) :
    matchFrom source (source.base + candidate) (source.base + position) length matched =
      .ok (matched + agreement source.bytes (candidate + matched) (position + matched) length) := by
  induction length generalizing matched with
  | zero => rfl
  | succ length inductionHypothesis =>
    have first := List.getElem?_eq_getElem (by omega : candidate + matched < source.bytes.length)
    have second := List.getElem?_eq_getElem (by omega : position + matched < source.bytes.length)
    rw [matchFrom, Nat.add_assoc, source.load_stored _ _ first, ok_bind, Nat.add_assoc,
      source.load_stored _ _ second, ok_bind, agreement, first, second]
    by_cases equal : source.bytes[candidate + matched] = source.bytes[position + matched]
    · have next := inductionHypothesis (matched + 1) (by omega)
      rw [← Nat.add_assoc, ← Nat.add_assoc] at next
      rw [if_pos equal, if_pos (congrArg some equal), next, Nat.add_assoc matched, Nat.add_comm 1]
    · rw [if_neg equal, if_neg fun same => equal (Option.some.inj same), Nat.add_zero]

/-- The walk along a chain of earlier positions evaluates them in order.

Induct over the positions: each node leads to the next one. -/
theorem search_chain (source : Source) (hash : Hash) (position limit nodes : Nat)
    (candidates : List Nat) (before : Option Nat) (best : Match)
    (linked : Linked hash.links before (candidates.map source.slot))
    (stored : ∀ candidate ∈ candidates, candidate < position ∧
      source.slot candidate < hash.nodes ∧
      (hash.target (source.slot candidate)).pData = source.base + candidate)
    (enough : candidates.length ≤ nodes) (inside : position + limit ≤ source.bytes.length) :
    search source hash (source.base + position) limit nodes (candidates.map source.slot).head? best =
      .ok (bestOf source position limit candidates best) := by
  induction candidates generalizing before nodes best with
  | nil => cases nodes <;> rfl
  | cons candidate rest inductionHypothesis =>
    obtain ⟨earlier, slot, address⟩ := stored candidate List.mem_cons_self
    obtain ⟨_, forth, tail⟩ := linked
    rw [Hash.links_next] at forth
    cases nodes with
    | zero => exact absurd enough (Nat.not_succ_le_zero _)
    | succ nodes =>
      have counted := matchFrom_counts source candidate position limit 0 earlier inside
      rw [Nat.zero_add, Nat.add_zero, Nat.add_zero] at counted
      rw [List.map_cons, List.head?_cons, search, hash.node_inside _ slot, ok_bind, address, counted,
        ok_bind, bestOf, forth]
      by_cases complete : agreement source.bytes candidate position limit = limit
      · rw [if_pos complete, if_pos complete]
      · rw [if_neg complete, if_neg complete]
        exact inductionHypothesis nodes _ _ tail
          (fun other member => stored other (List.mem_cons_of_mem candidate member))
          (Nat.le_of_succ_le_succ enough)

/-- The walk over decreasing positions keeps the match it started with if no candidate
    agrees further; otherwise it returns the latest of the candidates that agree furthest.

Induct over the candidates: a later one in the walk lies earlier in the text, so it
replaces the best one only if it is longer. -/
theorem bestOf_greatest (source : Source) (position limit : Nat) (candidates : List Nat)
    (best : Match) (decreasing : candidates.Pairwise (· > ·)) :
    (bestOf source position limit candidates best = best ∧ ∀ candidate ∈ candidates,
      agreement source.bytes candidate position limit ≤ best.encodedLength) ∨
    ∃ candidate ∈ candidates, bestOf source position limit candidates best =
        ⟨agreement source.bytes candidate position limit, source.base + candidate⟩ ∧
      best.encodedLength < agreement source.bytes candidate position limit ∧
      ∀ other ∈ candidates,
        agreement source.bytes other position limit ≤
          agreement source.bytes candidate position limit ∧
        (candidate < other → agreement source.bytes other position limit <
          agreement source.bytes candidate position limit) := by
  induction candidates generalizing best with
  | nil => exact .inl ⟨rfl, fun candidate member => absurd member List.not_mem_nil⟩
  | cons candidate rest inductionHypothesis =>
    obtain ⟨earlier, ordered⟩ := List.pairwise_cons.mp decreasing
    rw [bestOf, Match.improve]
    by_cases complete : agreement source.bytes candidate position limit = limit
    case pos =>
      rw [if_pos complete]
      have bounded (other : Nat) : agreement source.bytes other position limit ≤
          agreement source.bytes candidate position limit :=
        Nat.le_trans (agreement_le source.bytes other position limit) (Nat.le_of_eq complete.symm)
      by_cases longer : agreement source.bytes candidate position limit > best.encodedLength
      · refine .inr ⟨candidate, List.mem_cons_self, if_pos longer, longer, fun other member =>
          ⟨bounded other, ?_⟩⟩
        intro later
        rcases List.mem_cons.mp member with rfl | member
        · exact absurd later (Nat.lt_irrefl other)
        · exact absurd later (Nat.lt_asymm (earlier other member))
      · refine .inl ⟨if_neg longer, ?_⟩
        intro other member
        exact Nat.le_trans (bounded other) (Nat.le_of_not_lt longer)
    case neg =>
      rw [if_neg complete]
      by_cases longer : agreement source.bytes candidate position limit > best.encodedLength
      · rw [if_pos longer]
        rcases inductionHypothesis ⟨agreement source.bytes candidate position limit,
          source.base + candidate⟩ ordered with ⟨kept, shorter⟩ | ⟨found, member, same, further, most⟩
        · refine .inr ⟨candidate, List.mem_cons_self, kept, longer, ?_⟩
          intro other member
          rcases List.mem_cons.mp member with rfl | member
          · exact ⟨Nat.le_refl _, fun later => absurd later (Nat.lt_irrefl other)⟩
          · exact ⟨shorter other member, fun later => absurd later (Nat.lt_asymm (earlier other member))⟩
        · refine .inr ⟨found, List.mem_cons_of_mem candidate member, same,
            Nat.lt_trans longer further, ?_⟩
          intro other member
          rcases List.mem_cons.mp member with rfl | member
          · exact ⟨Nat.le_of_lt further, fun _ => further⟩
          · exact most other member
      · rw [if_neg longer]
        have shorter := Nat.le_of_not_lt longer
        rcases inductionHypothesis best ordered with ⟨kept, others⟩ | ⟨found, member, same, further, most⟩
        · refine .inl ⟨kept, ?_⟩
          intro other member
          rcases List.mem_cons.mp member with rfl | member
          · exact shorter
          · exact others other member
        · refine .inr ⟨found, List.mem_cons_of_mem candidate member, same, further, ?_⟩
          intro other member
          rcases List.mem_cons.mp member with rfl | member
          · have less := Nat.lt_of_le_of_lt shorter further
            exact ⟨Nat.le_of_lt less, fun _ => less⟩
          · exact most other member

/-- Over the window before a position, the search evaluates the occurrences of the
    look-ahead's first byte. -/
theorem search_window {source : Source} (window : source.PowerWindow) (hash : Hash)
    (position limit : Nat) (symbol : Byte) (best : Match) (before : Window source hash position)
    (inside : position + limit ≤ source.bytes.length) :
    search source hash (source.base + position) limit source.windowSize
        (hash.table symbol).pStart best =
      .ok (bestOf source position limit
        (occurrences source.bytes symbol (position - source.windowSize) position) best) := by
  have represents := before.represents
  have few := occurrences_length source.bytes symbol (position - source.windowSize) position
  rw [represents.start symbol]
  refine search_chain source hash position limit _ _ none best (represents.linked symbol)
    (?_) (by omega) inside
  intro candidate member
  obtain ⟨above, below, _⟩ := (mem_occurrences _ _ _ _ _).mp member
  exact ⟨below, before.slot_inside window candidate, represents.stored candidate above below⟩

end Sniffles.CLZSS
