import Sniffles.Foundations.LinkedChains
import Sniffles.LzssCodec

/-!
# The chains represent the sliding window

After `BuildHash` has been applied to the first bytes of the input, the nodes in
use are those of the last `m_nWindowSize` positions. The list of a byte value
runs through the positions that hold it, from the latest to the earliest. Adding
a position reuses the slot of the one that leaves the window, which is the
earliest one of its list.

The array has a node for each position of the window as long as its size in bytes
fits a `size_t`. From windows of 2^28 bytes on the size is a multiple of 2^32, the
block has no nodes, and the first byte is added behind it.
-/

namespace Sniffles.CLZSS

open BitSequences CheckedMemory LinkedChains

/-- The positions from `low` to below `high` that hold a byte, latest first. -/
def occurrences (bytes : List Byte) (symbol : Byte) (low high : Nat) : List Nat :=
  ((List.range' low (high - low)).filter fun position => bytes[position]? = some symbol).reverse

theorem mem_occurrences (bytes : List Byte) (symbol : Byte) (low high position : Nat) :
    position ∈ occurrences bytes symbol low high ↔
      low ≤ position ∧ position < high ∧ bytes[position]? = some symbol := by
  simp only [occurrences, List.mem_reverse, List.mem_filter, List.mem_range'_1, decide_eq_true_eq]
  constructor
  · rintro ⟨⟨above, below⟩, stored⟩
    exact ⟨above, by omega, stored⟩
  · rintro ⟨above, below, stored⟩
    exact ⟨⟨above, by omega⟩, stored⟩

/-- The positions are listed in strictly decreasing order. -/
theorem occurrences_decreasing (bytes : List Byte) (symbol : Byte) (low high : Nat) :
    (occurrences bytes symbol low high).Pairwise (· > ·) := by
  rw [occurrences, List.pairwise_reverse]
  exact List.Pairwise.filter _ List.pairwise_lt_range'

theorem occurrences_nodup (bytes : List Byte) (symbol : Byte) (low high : Nat) :
    (occurrences bytes symbol low high).Nodup :=
  (occurrences_decreasing bytes symbol low high).imp fun greater => Nat.ne_of_gt greater

/-- There are no more occurrences than positions. -/
theorem occurrences_length (bytes : List Byte) (symbol : Byte) (low high : Nat) :
    (occurrences bytes symbol low high).length ≤ high - low := by
  rw [occurrences, List.length_reverse]
  exact (List.length_filter_le _ _).trans (Nat.le_of_eq List.length_range')

/-- A position added behind the window becomes the first occurrence of its byte. -/
theorem occurrences_added (bytes : List Byte) (symbol stored : Byte) (low high : Nat)
    (ordered : low ≤ high) (holds : bytes[high]? = some stored) :
    occurrences bytes symbol low (high + 1) =
      if symbol = stored then high :: occurrences bytes symbol low high
      else occurrences bytes symbol low high := by
  have width : high + 1 - low = high - low + 1 := by omega
  have last : low + 1 * (high - low) = high := by omega
  rw [occurrences, width, List.range'_concat, last, List.filter_append, List.reverse_append]
  split
  case isTrue same =>
    subst same
    simp [occurrences, holds]
  case isFalse distinct =>
    have other : ¬ stored = symbol := fun same => distinct same.symm
    simp [occurrences, holds, other]

/-- The first position of the window is the last occurrence of its byte. -/
theorem occurrences_removed (bytes : List Byte) (symbol stored : Byte) (low high : Nat)
    (ordered : low < high) (holds : bytes[low]? = some stored) :
    occurrences bytes symbol low high =
      if symbol = stored then occurrences bytes symbol (low + 1) high ++ [low]
      else occurrences bytes symbol (low + 1) high := by
  have width : high - low = (high - (low + 1)) + 1 := by omega
  rw [occurrences, width, List.range'_succ, List.filter_cons, holds]
  by_cases same : symbol = stored
  · simp [occurrences, same]
  · have other : ¬ stored = symbol := fun equal => same equal.symm
    simp [occurrences, same, other]

/-- The slot of an input position. -/
def Source.slot (source : Source) (position : Nat) : Nat :=
  source.targetIndex (source.base + position)

/-- The window size is a power of two for whose nodes the size of the block does not
    wrap. -/
def Source.PowerWindow (source : Source) : Prop :=
  ∃ power, power < 28 ∧ source.windowSize = 2 ^ power

theorem Source.PowerWindow.positive {source : Source} (window : source.PowerWindow) :
    0 < source.windowSize := by
  obtain ⟨power, _, size⟩ := window
  rw [size]
  exact Nat.two_pow_pos power

/-- The block then has a node for each position of the window. -/
theorem Source.PowerWindow.nodes {source : Source} (window : source.PowerWindow) :
    targetBytes source.windowSize / nodeSize = source.windowSize := by
  obtain ⟨power, small, size⟩ := window
  have fits : source.windowSize ≤ 2 ^ 27 := by
    rw [size]
    exact Nat.pow_le_pow_right (by decide) (by omega)
  rw [targetBytes, nodeSize]
  omega

/-- A power of two below 2^28 is such a window size. -/
theorem Source.powerWindow {source : Source} {power : Nat} (size : source.windowSize = 2 ^ power)
    (allocated : source.windowSize < 268435456) : source.PowerWindow := by
  refine ⟨power, ?_, size⟩
  rw [size] at allocated
  exact (Nat.pow_lt_pow_iff_right Nat.one_lt_two).mp (allocated : 2 ^ power < 2 ^ 28)

/-- From 2^28 bytes on a power of two leaves no nodes. -/
theorem Source.unallocated {source : Source} {power : Nat} (size : source.windowSize = 2 ^ power)
    (wide : 268435456 ≤ source.windowSize) : targetBytes source.windowSize / nodeSize = 0 := by
  have high : 28 ≤ power := by
    rw [size] at wide
    exact (Nat.pow_le_pow_iff_right Nat.one_lt_two).mp (wide : 2 ^ 28 ≤ 2 ^ power)
  have whole : source.windowSize * nodeSize = 4294967296 * 2 ^ (power - 28) := by
    rw [size, nodeSize, ← Nat.add_sub_cancel' high, Nat.pow_add, Nat.add_sub_cancel_left]
    ring
  rw [targetBytes, whole, Nat.mul_mod_right, Nat.zero_div]

/-- For a power of two the mask takes the address modulo the window size. -/
theorem Source.PowerWindow.slot_eq {source : Source} (window : source.PowerWindow)
    (position : Nat) : source.slot position = (source.base + position) % source.windowSize := by
  obtain ⟨power, small, size⟩ := window
  have divides : 2 ^ power ∣ 4294967296 := pow_dvd_pow 2 (by omega : power ≤ 32)
  rw [Source.slot, Source.targetIndex, size, Nat.and_two_pow_sub_one_eq_mod,
    Nat.mod_mod_of_dvd _ divides]

/-- Two positions less than a window apart lie in different slots. -/
theorem Source.PowerWindow.slot_ne {source : Source} (window : source.PowerWindow)
    {earlier later : Nat} (ordered : earlier < later)
    (near : later < earlier + source.windowSize) : source.slot earlier ≠ source.slot later := by
  intro same
  rw [window.slot_eq, window.slot_eq] at same
  have remainder := Nat.sub_mod_eq_zero_of_mod_eq same.symm
  have distance : source.base + later - (source.base + earlier) = later - earlier := by omega
  rw [distance, Nat.mod_eq_of_lt (by omega)] at remainder
  omega

/-- A position a whole window later reuses the slot. -/
theorem Source.PowerWindow.slot_reused {source : Source} (window : source.PowerWindow)
    (position : Nat) : source.slot (position + source.windowSize) = source.slot position := by
  rw [window.slot_eq, window.slot_eq, ← Nat.add_assoc, Nat.add_mod_right]

/-- The node links of both arrays. -/
def Hash.links (hash : Hash) : Links Nat :=
  ⟨fun index => (hash.target index).pPrev, fun index => (hash.target index).pNext⟩

@[simp] theorem Hash.links_previous (hash : Hash) (index : Nat) :
    hash.links.previous index = (hash.target index).pPrev := rfl

@[simp] theorem Hash.links_next (hash : Hash) (index : Nat) :
    hash.links.next index = (hash.target index).pNext := rfl

/-- The slots of the occurrences of a byte. -/
def Source.chain (source : Source) (symbol : Byte) (low high : Nat) : List Nat :=
  (occurrences source.bytes symbol low high).map source.slot

/-- The lists run through the occurrences from `low` to below `high`, and the nodes
    hold their addresses. -/
structure Represents (source : Source) (hash : Hash) (low high : Nat) : Prop where
  linked : ∀ symbol, Linked hash.links none (source.chain symbol low high)
  start : ∀ symbol, (hash.table symbol).pStart = (source.chain symbol low high).head?
  last : ∀ symbol, (hash.table symbol).pEnd = (source.chain symbol low high).getLast?
  stored : ∀ position, low ≤ position → position < high →
    (hash.target (source.slot position)).pData = source.base + position

/-- The lists represent the window before a position, and all other nodes of the block are
    unused. -/
structure Window (source : Source) (hash : Hash) (position : Nat) : Prop where
  represents : Represents source hash (position - source.windowSize) position
  unused : ∀ index, (∀ live, position - source.windowSize ≤ live → live < position →
    source.slot live ≠ index) → (hash.target index).pData = 0
  allocated : hash.nodes = targetBytes source.windowSize / nodeSize

/-- The arrays without the node at an index, which ends the list of a byte. -/
def Hash.withoutLast (hash : Hash) (symbol : Byte) (index : Nat) : Hash :=
  match (hash.target index).pPrev with
  | some previous =>
    (hash.setList symbol { hash.table symbol with pEnd := some previous }).setNode previous
      { hash.target previous with pNext := none }
  | none => hash.setList symbol ⟨none, none⟩

/-- The arrays with the node at an index in front of the list of a byte. -/
def Hash.withFirst (hash : Hash) (symbol : Byte) (index pData : Nat) : Hash :=
  let pStart := (hash.table symbol).pStart
  let stored := hash.setNode index ⟨pData, none, pStart⟩
  match pStart with
  | some start =>
    (stored.setNode start { stored.target start with pPrev := some index }).setList symbol
      { hash.table symbol with pStart := some index }
  | none => stored.setList symbol ⟨some index, some index⟩

@[simp] theorem Hash.withoutLast_nodes (hash : Hash) (symbol : Byte) (index : Nat) :
    (hash.withoutLast symbol index).nodes = hash.nodes := by
  rw [Hash.withoutLast]
  cases (hash.target index).pPrev <;> rfl

@[simp] theorem Hash.withFirst_nodes (hash : Hash) (symbol : Byte) (index pData : Nat) :
    (hash.withFirst symbol index pData).nodes = hash.nodes := by
  rw [Hash.withFirst]
  cases (hash.table symbol).pStart <;> rfl

/-- A node of the block is found. -/
theorem Hash.node_inside (hash : Hash) (index : Nat) (inside : index < hash.nodes) :
    hash.node index = .ok (hash.target index) := if_pos inside

/-- Taking a node away stays inside the block if the node before it lies there. -/
theorem removeLast_inside (hash : Hash) (symbol : Byte) (index : Nat)
    (inside : ∀ previous, (hash.target index).pPrev = some previous → previous < hash.nodes) :
    hash.removeLast symbol (hash.target index) = .ok (hash.withoutLast symbol index) := by
  rw [Hash.removeLast, Hash.withoutLast]
  cases back : (hash.target index).pPrev with
  | none => rfl
  | some previous => exact congrArg (· >>= _) (hash.node_inside previous (inside previous back))

/-- Putting a node in front stays inside the block if the old first node lies there. -/
theorem insertFirst_inside (hash : Hash) (symbol : Byte) (index pData : Nat)
    (inside : ∀ start, (hash.table symbol).pStart = some start → start < hash.nodes) :
    hash.insertFirst symbol index pData = .ok (hash.withFirst symbol index pData) := by
  rw [Hash.insertFirst, Hash.withFirst]
  cases first : (hash.table symbol).pStart with
  | none => rfl
  | some start =>
    exact congrArg (· >>= _) (Hash.node_inside (hash.setNode index ⟨pData, none, some start⟩) start
      (inside start first))

theorem mem_chain (source : Source) (symbol : Byte) (low high index : Nat) :
    index ∈ source.chain symbol low high ↔ ∃ position, low ≤ position ∧ position < high ∧
      source.bytes[position]? = some symbol ∧ source.slot position = index := by
  simp only [Source.chain, List.mem_map, mem_occurrences, and_assoc]

/-- Inside one window the slots of a list are distinct. -/
theorem Source.PowerWindow.chain_nodup {source : Source} (window : source.PowerWindow)
    (symbol : Byte) {low high : Nat} (near : high ≤ low + source.windowSize) :
    (source.chain symbol low high).Nodup := by
  refine (List.nodup_map_iff_inj_on (occurrences_nodup _ _ _ _)).mpr ?_
  intro first firstMember second secondMember same
  obtain ⟨firstLow, firstHigh, _⟩ := (mem_occurrences _ _ _ _ _).mp firstMember
  obtain ⟨secondLow, secondHigh, _⟩ := (mem_occurrences _ _ _ _ _).mp secondMember
  rcases Nat.lt_trichotomy first second with earlier | equal | later
  · exact absurd same (window.slot_ne earlier (by omega))
  · exact equal
  · exact absurd same.symm (window.slot_ne later (by omega))

/-- Inside one window no slot lies in the lists of two bytes. -/
theorem Source.PowerWindow.chain_disjoint {source : Source} (window : source.PowerWindow)
    {first second : Byte} {low high index : Nat} (near : high ≤ low + source.windowSize)
    (inFirst : index ∈ source.chain first low high)
    (inSecond : index ∈ source.chain second low high) : first = second := by
  obtain ⟨one, oneLow, oneHigh, oneHolds, oneSlot⟩ := (mem_chain _ _ _ _ _).mp inFirst
  obtain ⟨two, twoLow, twoHigh, twoHolds, twoSlot⟩ := (mem_chain _ _ _ _ _).mp inSecond
  have same : source.slot one = source.slot two := oneSlot.trans twoSlot.symm
  rcases Nat.lt_trichotomy one two with earlier | equal | later
  · exact absurd same (window.slot_ne earlier (by omega))
  · exact Option.some.inj (oneHolds.symm.trans ((congrArg _ equal).trans twoHolds))
  · exact absurd same.symm (window.slot_ne later (by omega))

theorem chain_added (source : Source) (symbol stored : Byte) (low high : Nat)
    (ordered : low ≤ high) (holds : source.bytes[high]? = some stored) :
    source.chain symbol low (high + 1) =
      if symbol = stored then source.slot high :: source.chain symbol low high
      else source.chain symbol low high := by
  rw [Source.chain, occurrences_added _ _ _ _ _ ordered holds]
  split <;> rfl

theorem chain_removed (source : Source) (symbol stored : Byte) (low high : Nat)
    (ordered : low < high) (holds : source.bytes[low]? = some stored) :
    source.chain symbol low high =
      if symbol = stored then source.chain symbol (low + 1) high ++ [source.slot low]
      else source.chain symbol (low + 1) high := by
  rw [Source.chain, occurrences_removed _ _ _ _ _ ordered holds]
  split
  · rw [List.map_append]
    rfl
  · rfl

/-- The node of the earliest position names the last one of the rest of its list. -/
theorem chainLast_previous {source : Source} {hash : Hash} {low high : Nat} {stored : Byte}
    (represents : Represents source hash low high) (ordered : low < high)
    (holds : source.bytes[low]? = some stored) :
    (hash.target (source.slot low)).pPrev = (source.chain stored (low + 1) high).getLast? := by
  have linked := represents.linked stored
  rw [chain_removed source stored stored low high ordered holds, if_pos rfl] at linked
  have last := linked_last hash.links none _ _ linked
  rwa [Option.or_none] at last

/-- Taking the earliest position from the end of its list leaves the rest of the
    window represented. -/
theorem withoutLast_represents {source : Source} (window : source.PowerWindow) (hash : Hash)
    (low high : Nat) (stored : Byte) (represents : Represents source hash low high)
    (ordered : low < high) (near : high ≤ low + source.windowSize)
    (holds : source.bytes[low]? = some stored) :
    Represents source (hash.withoutLast stored (source.slot low)) (low + 1) high := by
  have nearer : high ≤ low + 1 + source.windowSize := by omega
  have own := chain_removed source stored stored low high ordered holds
  rw [if_pos rfl] at own
  have foreign (symbol : Byte) (other : symbol ≠ stored) :
      source.chain symbol low high = source.chain symbol (low + 1) high := by
    rw [chain_removed source symbol stored low high ordered holds, if_neg other]
  have ownLinked := represents.linked stored
  rw [own] at ownLinked
  rw [Hash.withoutLast, chainLast_previous represents ordered holds]
  cases before : (source.chain stored (low + 1) high).getLast? with
  | none =>
    have empty : source.chain stored (low + 1) high = [] := List.getLast?_eq_none_iff.mp before
    refine ⟨?_, ?_, ?_, fun position above below =>
      represents.stored position (Nat.le_of_succ_le above) below⟩
    · intro symbol
      by_cases same : symbol = stored
      · rw [same, empty]
        trivial
      · rw [← foreign symbol same]
        exact represents.linked symbol
    · intro symbol
      by_cases same : symbol = stored
      · simp [Hash.setList, same, empty]
      · simp [Hash.setList, same, represents.start, foreign symbol same]
    · intro symbol
      by_cases same : symbol = stored
      · simp [Hash.setList, same, empty]
      · simp [Hash.setList, same, represents.last, foreign symbol same]
  | some previous =>
    have member : previous ∈ source.chain stored (low + 1) high := List.mem_of_getLast? before
    have nonempty : source.chain stored (low + 1) high ≠ [] := List.ne_nil_of_mem member
    refine ⟨?_, ?_, ?_, ?_⟩
    · intro symbol
      by_cases same : symbol = stored
      · rw [same]
        refine linked_without_last hash.links _ none _ _ ownLinked
          (window.chain_nodup stored nearer) (?_) (?_)
        · intro other _
          by_cases place : other = previous <;> simp [Hash.setNode, Hash.setList, place]
        · intro other _
          by_cases place : other = previous
          · simp [Hash.setNode, Hash.setList, place, before]
          · have distinct : ¬ previous = other := fun equal => place equal.symm
            simp [Hash.setNode, Hash.setList, place, before, distinct]
      · rw [← foreign symbol same]
        refine linked_congr hash.links _ none _ (represents.linked symbol) ?_
        intro other inside
        have place : other ≠ previous := by
          rintro rfl
          rw [foreign symbol same] at inside
          exact same (window.chain_disjoint nearer inside member)
        simp [Hash.setNode, Hash.setList, place]
    · intro symbol
      by_cases same : symbol = stored
      · have first : (source.chain stored (low + 1) high ++ [source.slot low]).head? =
            (source.chain stored (low + 1) high).head? := List.head?_append_of_ne_nil _ nonempty
        simp only [Hash.setNode, Hash.setList, same, if_true, represents.start, own, first]
      · simp [Hash.setNode, Hash.setList, same, represents.start, foreign symbol same]
    · intro symbol
      by_cases same : symbol = stored
      · simp [Hash.setNode, Hash.setList, same, before]
      · simp [Hash.setNode, Hash.setList, same, represents.last, foreign symbol same]
    · intro position above below
      have address := represents.stored position (Nat.le_of_succ_le above) below
      by_cases place : source.slot position = previous
      · rw [← place]
        simpa [Hash.setNode, Hash.setList] using address
      · simpa [Hash.setNode, Hash.setList, place] using address

/-- The first entry of a list becomes the inserted node; the last one stays unless the
    list was empty. -/
theorem withFirst_table (hash : Hash) (symbol other : Byte) (index pData : Nat) :
    (hash.withFirst symbol index pData).table other =
      if other = symbol then ⟨some index, if (hash.table symbol).pStart = none then some index
        else (hash.table symbol).pEnd⟩
      else hash.table other := by
  rw [Hash.withFirst]
  cases (hash.table symbol).pStart <;> simp [Hash.setList, Hash.setNode]

/-- The inserted node names the old first node, which names it in turn. -/
theorem withFirst_target (hash : Hash) (symbol : Byte) (index pData other : Nat)
    (fresh : (hash.table symbol).pStart ≠ some index) :
    (hash.withFirst symbol index pData).target other =
      if other = index then ⟨pData, none, (hash.table symbol).pStart⟩
      else if (hash.table symbol).pStart = some other then
        { hash.target other with pPrev := some index }
      else hash.target other := by
  rw [Hash.withFirst]
  cases first : (hash.table symbol).pStart with
  | none => simp [Hash.setList, Hash.setNode]
  | some start =>
    have apart : start ≠ index := fun same => fresh (first.trans (congrArg some same))
    by_cases isIndex : other = index
    · simp [Hash.setList, Hash.setNode, isIndex, Ne.symm apart]
    · by_cases isStart : other = start
      · simp [Hash.setList, Hash.setNode, isStart, apart]
      · have notStart : ¬ start = other := fun same => isStart same.symm
        simp [Hash.setList, Hash.setNode, isIndex, isStart, notStart]

/-- Putting the next position into an unused slot adds it to the represented window. -/
theorem withFirst_represents {source : Source} (window : source.PowerWindow) (hash : Hash)
    (low high : Nat) (stored : Byte) (represents : Represents source hash low high)
    (ordered : low ≤ high) (near : high < low + source.windowSize)
    (holds : source.bytes[high]? = some stored) :
    Represents source (hash.withFirst stored (source.slot high) (source.base + high)) low
      (high + 1) := by
  have fresh (symbol : Byte) : source.slot high ∉ source.chain symbol low high := by
    intro member
    obtain ⟨position, above, below, _, same⟩ := (mem_chain _ _ _ _ _).mp member
    exact window.slot_ne below (by omega) same
  have own := chain_added source stored stored low high ordered holds
  rw [if_pos rfl] at own
  have foreign (symbol : Byte) (other : symbol ≠ stored) :
      source.chain symbol low (high + 1) = source.chain symbol low high := by
    rw [chain_added source symbol stored low high ordered holds, if_neg other]
  have first : (hash.table stored).pStart ≠ some (source.slot high) := by
    rw [represents.start]
    exact fun same => fresh stored (List.mem_of_head? same)
  have target (other : Nat) := withFirst_target hash stored (source.slot high)
    (source.base + high) other first
  have table (symbol : Byte) := withFirst_table hash stored symbol (source.slot high)
    (source.base + high)
  refine ⟨?_, ?_, ?_, ?_⟩
  · intro symbol
    by_cases same : symbol = stored
    · rw [same, own]
      refine linked_first hash.links _ _ _ (represents.linked stored)
        (window.chain_nodup stored (Nat.le_of_lt near)) ?_ ?_ (?_)
        (?_)
      · simp [target]
      · simp [target, represents.start]
      · intro other inside
        have apart : other ≠ source.slot high := fun same => fresh stored (same ▸ inside)
        rw [Hash.links_previous, target, if_neg apart, represents.start]
        split <;> rfl
      · intro other inside
        have apart : other ≠ source.slot high := fun same => fresh stored (same ▸ inside)
        rw [Hash.links_next, target, if_neg apart]
        split <;> rfl
    · rw [foreign symbol same]
      refine linked_congr hash.links _ none _ (represents.linked symbol) ?_
      intro other inside
      have apart : other ≠ source.slot high := fun same => fresh symbol (same ▸ inside)
      have elsewhere : ¬ (hash.table stored).pStart = some other := by
        rw [represents.start]
        exact fun place => same
          (window.chain_disjoint (Nat.le_of_lt near) inside (List.mem_of_head? place))
      rw [Hash.links_previous, Hash.links_next, target, if_neg apart, if_neg elsewhere]
      exact ⟨rfl, rfl⟩
  · intro symbol
    by_cases same : symbol = stored
    · rw [table, if_pos same, same, own, List.head?_cons]
    · rw [table, if_neg same, foreign symbol same]
      exact represents.start symbol
  · intro symbol
    by_cases same : symbol = stored
    · rw [table, if_pos same, same, own, represents.start, represents.last]
      cases source.chain stored low high with
      | nil => rfl
      | cons slot rest => simp
    · rw [table, if_neg same, foreign symbol same]
      exact represents.last symbol
  · intro position above below
    by_cases last : position = high
    · rw [last, target, if_pos rfl]
    · have apart : source.slot position ≠ source.slot high :=
        window.slot_ne (by omega) (by omega)
      have address := represents.stored position above (by omega)
      rw [target, if_neg apart]
      split
      · exact address
      · exact address

/-- The byte of an input position is loaded from its address. -/
theorem Source.load_stored (source : Source) (position : Nat) (byte : Byte)
    (holds : source.bytes[position]? = some byte) :
    source.load (source.base + position) = .ok byte := by
  have offset : ((source.base + position : Nat) : Int) - source.base = (position : Nat) := by omega
  rw [Source.load, offset]
  exact readAt_inside source.bytes position byte holds

/-- Unlinking keeps every stored address. -/
theorem withoutLast_pData (hash : Hash) (symbol : Byte) (index other : Nat) :
    ((hash.withoutLast symbol index).target other).pData = (hash.target other).pData := by
  rw [Hash.withoutLast]
  cases (hash.target index).pPrev with
  | none => rfl
  | some previous => by_cases place : other = previous <;> simp [Hash.setNode, Hash.setList, place]

/-- Inserting stores one address. -/
theorem withFirst_pData (hash : Hash) (symbol : Byte) (index pData other : Nat)
    (apart : other ≠ index) :
    ((hash.withFirst symbol index pData).target other).pData = (hash.target other).pData := by
  rw [Hash.withFirst]
  cases (hash.table symbol).pStart with
  | none => simp [Hash.setNode, Hash.setList, apart]
  | some start =>
    by_cases place : other = start
    · have startApart : start ≠ index := place ▸ apart
      simp [Hash.setNode, Hash.setList, place, startApart]
    · simp [Hash.setNode, Hash.setList, apart, place]

/-- The cleared arrays represent the empty window before the first position. -/
theorem cleared_window (source : Source) :
    Window source (Hash.cleared source.windowSize) 0 := by
  have empty (symbol : Byte) : source.chain symbol (0 - source.windowSize) 0 = [] := by
    simp [Source.chain, occurrences]
  refine ⟨⟨?_, ?_, ?_, ?_⟩, fun _ _ => rfl, rfl⟩
  · intro symbol
    rw [empty]
    trivial
  · intro symbol
    rw [empty]
    rfl
  · intro symbol
    rw [empty]
    rfl
  · intro position _ below
    exact absurd below (Nat.not_lt_zero position)

/-- The block has the slot of every position. -/
theorem Window.slot_inside {source : Source} (window : source.PowerWindow) {hash : Hash}
    {position : Nat} (before : Window source hash position) (other : Nat) :
    source.slot other < hash.nodes := by
  rw [before.allocated, window.nodes, window.slot_eq]
  exact Nat.mod_lt _ window.positive

/-- A free slot takes the next position. -/
theorem buildHash_free {source : Source} {hash : Hash} {position : Nat} {symbol : Byte}
    (slot : source.slot position < hash.nodes)
    (free : (hash.target (source.slot position)).pData = 0)
    (loaded : source.load (source.base + position) = .ok symbol) :
    buildHash source hash (source.base + position) =
      hash.insertFirst symbol (source.slot position) (source.base + position) := by
  have index : source.targetIndex (source.base + position) = source.slot position := rfl
  simp only [buildHash, index, hash.node_inside _ slot, ok_bind, free, if_true, loaded]

/-- An occupied slot is taken from the end of its list first. -/
theorem buildHash_occupied {source : Source} {hash middle : Hash} {position low : Nat}
    {leaving symbol : Byte} (slot : source.slot position < hash.nodes)
    (evicted : (hash.target (source.slot position)).pData = source.base + low)
    (occupied : source.base + low ≠ 0)
    (unloaded : source.load (source.base + low) = .ok leaving)
    (removed : hash.removeLast leaving (hash.target (source.slot position)) = .ok middle)
    (loaded : source.load (source.base + position) = .ok symbol) :
    buildHash source hash (source.base + position) =
      middle.insertFirst symbol (source.slot position) (source.base + position) := by
  have index : source.targetIndex (source.base + position) = source.slot position := rfl
  simp only [buildHash, index, hash.node_inside _ slot, ok_bind, evicted, if_neg occupied, unloaded,
    removed, loaded]

/-- `BuildHash` moves the window on by one position. The reused slot is unused while
    the window still grows, and afterwards holds the position that leaves it. -/
theorem buildHash_window {source : Source} (window : source.PowerWindow)
    (nonNull : source.base ≠ 0) (hash : Hash) (position : Nat)
    (before : Window source hash position) (inside : position < source.bytes.length) :
    ∃ next, buildHash source hash (source.base + position) = .ok next ∧
      Window source next (position + 1) := by
  have positive := window.positive
  have holds := List.getElem?_eq_getElem inside
  have loaded := source.load_stored position _ holds
  have slots := before.slot_inside window
  have members (symbol : Byte) (low high index : Nat) (member : index ∈ source.chain symbol low high) :
      index < hash.nodes := by
    obtain ⟨live, _, _, _, rfl⟩ := (mem_chain _ _ _ _ _).mp member
    exact slots live
  by_cases growing : position < source.windowSize
  case pos =>
    have low : position - source.windowSize = 0 := by omega
    have nextLow : position + 1 - source.windowSize = 0 := by omega
    have represents := before.represents
    rw [low] at represents
    have free : (hash.target (source.slot position)).pData = 0 :=
      before.unused _ fun live _ below => window.slot_ne below (by omega)
    have inserted := insertFirst_inside hash source.bytes[position] (source.slot position)
      (source.base + position) fun start first =>
        members _ _ _ start (List.mem_of_head? ((represents.start _).symm.trans first))
    refine ⟨_, (buildHash_free (slots position) free loaded).trans inserted, ?_, ?_, ?_⟩
    · rw [nextLow]
      exact withFirst_represents window hash 0 position _ represents (Nat.zero_le _)
        (by omega) holds
    · intro other absent
      have apart : other ≠ source.slot position := (absent position (by omega) (by omega)).symm
      rw [withFirst_pData _ _ _ _ _ apart]
      exact before.unused other fun live above below => absent live (by omega) (by omega)
    · rw [Hash.withFirst_nodes]
      exact before.allocated
  case neg =>
    obtain ⟨low, reached⟩ := Nat.exists_eq_add_of_le' (Nat.le_of_not_lt growing)
    have reused : source.slot position = source.slot low := by
      rw [reached, window.slot_reused]
    have start : position - source.windowSize = low := by omega
    have nextStart : position + 1 - source.windowSize = low + 1 := by omega
    have represents := before.represents
    rw [start] at represents
    have lowInside : low < source.bytes.length := by omega
    have lowHolds := List.getElem?_eq_getElem lowInside
    have evicted : (hash.target (source.slot position)).pData = source.base + low := by
      rw [reused]
      exact represents.stored low (Nat.le_refl _) (by omega)
    have occupied : source.base + low ≠ 0 := by omega
    have removed := withoutLast_represents window hash low position _ represents (by omega)
      (by omega) lowHolds
    have back := chainLast_previous represents (by omega) lowHolds
    rw [← reused] at removed back
    have unlinked := removeLast_inside hash source.bytes[low] (source.slot position)
      fun previous before => members _ _ _ previous (List.mem_of_getLast? (back.symm.trans before))
    have inserted := insertFirst_inside (hash.withoutLast source.bytes[low] (source.slot position))
      source.bytes[position] (source.slot position) (source.base + position) fun start first => by
        rw [Hash.withoutLast_nodes]
        exact members _ _ _ start (List.mem_of_head? ((removed.start _).symm.trans first))
    refine ⟨_, (buildHash_occupied (slots position) evicted occupied
      (source.load_stored low _ lowHolds) unlinked loaded).trans inserted, ?_, ?_, ?_⟩
    · rw [nextStart]
      exact withFirst_represents window _ (low + 1) position _ removed (by omega) (by omega) holds
    · intro other absent
      have apart : other ≠ source.slot position := (absent position (by omega) (by omega)).symm
      rw [withFirst_pData _ _ _ _ _ apart, withoutLast_pData]
      refine before.unused other ?_
      intro live above below
      by_cases first : live = low
      · rw [first, ← reused]
        exact apart.symm
      · exact absent live (by omega) (by omega)
    · rw [Hash.withFirst_nodes, Hash.withoutLast_nodes]
      exact before.allocated

/-- Without nodes no byte can be added. -/
theorem buildHash_unallocated (source : Source) (hash : Hash) (pData : Nat)
    (absent : hash.nodes = 0) : buildHash source hash pData = .error .outOfBounds := by
  have outside : ¬ source.targetIndex pData < hash.nodes := by
    rw [absent]
    exact Nat.not_lt_zero _
  rw [buildHash, Hash.node, if_neg outside]
  rfl

/-- The bytes of a token move the window on together. -/
theorem buildHashes_window {source : Source} (window : source.PowerWindow)
    (nonNull : source.base ≠ 0) (count : Nat) (hash : Hash) (position : Nat)
    (before : Window source hash position) (inside : position + count ≤ source.bytes.length) :
    ∃ next, buildHashes source count hash (source.base + position) = .ok next ∧
      Window source next (position + count) := by
  induction count generalizing hash position with
  | zero => exact ⟨hash, rfl, before⟩
  | succ count inductionHypothesis =>
    obtain ⟨middle, built, moved⟩ :=
      buildHash_window window nonNull hash position before (by omega)
    obtain ⟨next, rest, reached⟩ := inductionHypothesis middle (position + 1) moved (by omega)
    refine ⟨next, ?_, ?_⟩
    · rw [buildHashes, built, ok_bind, Nat.add_assoc, rest]
    · rwa [Nat.add_right_comm] at reached

end Sniffles.CLZSS
