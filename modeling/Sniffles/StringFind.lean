import Sniffles.Foundations.BitSequences
import Sniffles.Foundations.CheckedMemory
import Sniffles.Foundations.MachineIntegers
import Sniffles.Foundations.SubstringSearch

/-!
# Searching a string

`String::find` compares the needle at every index up to the difference of the
two lengths. The difference is a `size_t`: a needle that is longer than the
string makes it wrap, and the search then leaves the character array. The array
is checked here, and so is the bound of `operator[]`.

A caller may store through the reference that `operator[]` returns, so the
characters of a string, its terminating zero included, are arbitrary.
-/

namespace Sniffles

open BitSequences CheckedMemory MachineIntegers SubstringSearch

/-- The fields of a `String` agree: there is no array, or one with a character for each
    index up to the length. `new` throws for an array whose size does not fit an `int`. -/
def StringShape (string : Option (List Byte)) (size : Int) (length : Nat) : Prop :=
  string = none ∧ size = 0 ∧ length = 0 ∨
    ∃ characters, string = some characters ∧ characters.length = length + 1 ∧
      size = length + 1 ∧ size < 2147483648

/-- `String`. -/
structure StringObject where
  string : Option (List Byte)
  size : Int
  length : Nat
  shaped : StringShape string size length

/-- A string of C: no zero before the terminating one, which is not part of the text. -/
structure CString where
  text : List Byte
  terminated : 0 ∉ text
  addressable : text.length < 4294967295

namespace CString

/-- The characters with the terminating zero. -/
def memory (str : CString) : List Byte := str.text ++ [0]

def strlen (str : CString) : Nat := (str.memory.takeWhile (· ≠ 0)).length

/-- The length counts the text. -/
theorem strlen_text (str : CString) : str.strlen = str.text.length := by
  have nonzero : ∀ character ∈ str.text, decide (character ≠ 0) = true := by
    intro character member
    exact decide_eq_true fun zero => str.terminated (zero ▸ member)
  rw [strlen, memory, List.takeWhile_append_of_pos nonzero]
  simp

end CString

namespace StringObject

theorem emptyShape : StringShape none 0 0 := .inl ⟨rfl, rfl, rfl⟩

/-- `String()`. -/
def empty : StringObject := ⟨none, 0, 0, emptyShape⟩

theorem copiedShape (str : CString) (fits : (str.strlen : Int) + 1 < 2147483648) :
    StringShape (some str.memory) (str.strlen + 1) str.strlen := by
  refine .inr ⟨str.memory, rfl, ?_, rfl, fits⟩
  rw [CString.strlen_text, CString.memory, List.length_append, List.length_singleton]

/-- `String(const char*)`. -/
def copy (str : CString) : Option StringObject :=
  if fits : (str.strlen : Int) + 1 < 2147483648 then
    some ⟨some str.memory, str.strlen + 1, str.strlen, copiedShape str fits⟩
  else none

/-- The characters up to the length. -/
def text (self : StringObject) : List Byte := (self.string.getD []).take self.length

def npos : Nat := uint32 (-1)

/-- `operator[]`. Outside the bound an error is printed and the first character returned. -/
def subscript (self : StringObject) (index : Int) : Checked Byte := do
  let characters ← dereference self.string
  if index ≥ 0 ∧ index < self.size then readCell characters index.toNat
  else readCell characters 0

/-- `while (j < m && _string[i + j] == P[j])`, for a needle given by its subscript. -/
def matchFrom (self : StringObject) (needle : Nat → Checked Byte) (m i j : Nat) : Checked Nat :=
  if j < m then do
    let characters ← dereference self.string
    let character ← readCell characters (uint32 (i + j))
    let expected ← needle j
    if character = expected then matchFrom self needle m i (j + 1) else .ok j
  else .ok j
termination_by m - j

/-- The outer loop of `find`. A counter that wraps starts over, and the loop never ends. -/
def findFrom (self : StringObject) (needle : Nat → Checked Byte) (m bound i : Nat) : Checked Nat :=
  if i ≤ bound then do
    let j ← matchFrom self needle m i 0
    if j = m then .ok i
    else if _more : i + 1 < 4294967296 then findFrom self needle m bound (i + 1)
    else .error .unfinished
  else .ok npos
termination_by 4294967296 - i

/-- `find(String& P)`. The counter is converted to the `int` of `operator[]`. -/
def find (self P : StringObject) : Checked Nat :=
  findFrom self (fun j => P.subscript (int32 j)) P.length
    (uint32 ((self.length : Int) - P.length)) 0

/-- `find(const char* P)`. -/
def findChars (self : StringObject) (P : CString) : Checked Nat :=
  findFrom self (readCell P.memory) P.strlen (uint32 ((self.length : Int) - P.strlen)) 0

/-- The search returns, without leaving an array, and its result is exact. -/
def Exact (outcome : Checked Nat) (text pattern : List Byte) : Prop :=
  ∃ result, outcome = .ok result ∧ Finds text pattern npos result

/-- A string has fewer than 2^31 characters. -/
theorem length_fits (self : StringObject) : self.length + 1 < 2147483648 := by
  rcases self.shaped with ⟨_, _, empty⟩ | ⟨_, _, _, sized, fits⟩
  · rw [empty]
    decide
  · omega

theorem text_length (self : StringObject) : self.text.length = self.length := by
  rcases self.shaped with ⟨_, _, empty⟩ | ⟨characters, stored, sized, _, _⟩
  · rw [text, List.length_take, empty]
    exact Nat.zero_min _
  · rw [text, stored, List.length_take, Option.getD_some, sized]
    omega

/-- Every character of the text can be read. -/
theorem text_read (self : StringObject) (index : Nat) (inside : index < self.length) :
    ∃ characters character, self.string = some characters ∧
      readCell characters index = .ok character ∧ self.text[index]? = some character := by
  rcases self.shaped with ⟨_, _, empty⟩ | ⟨characters, stored, sized, _, _⟩
  · omega
  · have below : index < characters.length := by omega
    refine ⟨characters, characters[index], stored, ?_, ?_⟩
    · rw [readCell, dif_pos below]
    · rw [text, stored, Option.getD_some, List.getElem?_take_of_lt inside,
        List.getElem?_eq_getElem below]

/-- The needle yields the characters of a pattern. -/
def Yields (needle : Nat → Checked Byte) (pattern : List Byte) : Prop :=
  ∀ (j : Nat) (inside : j < pattern.length), needle j = .ok pattern[j]

/-- `operator[]` yields the characters of a string. -/
theorem subscript_yields (P : StringObject) : Yields (fun j => P.subscript (int32 j)) P.text := by
  intro j inside
  rw [text_length] at inside
  obtain ⟨characters, character, stored, read, value⟩ := text_read P j inside
  have fits := length_fits P
  have counter : int32 j = j := int32_of_fits (by omega) (by omega)
  have bound : (j : Int) ≥ 0 ∧ (j : Int) < P.size := by
    rcases P.shaped with ⟨_, _, empty⟩ | ⟨_, _, _, sized, _⟩ <;> omega
  have same : P.text[j] = character := by
    obtain ⟨_, value⟩ := List.getElem?_eq_some_iff.mp value
    exact value
  change P.subscript (int32 j) = _
  rw [subscript, stored, dereference_some, ok_bind, counter, if_pos bound, Int.toNat_natCast, read,
    same]

/-- A string of C yields its text. -/
theorem memory_yields (P : CString) : Yields (readCell P.memory) P.text := by
  intro j inside
  have below : j < P.memory.length := by
    rw [CString.memory, List.length_append]
    omega
  have same : P.memory[j] = P.text[j] := List.getElem_append_left inside
  rw [readCell, dif_pos below, same]

/-- Inside the text the inner loop returns, and it reaches the end of the needle exactly
    when the needle occurs.

Induct over the characters that are left: a different one ends the loop before the end. -/
theorem matchFrom_inside (self : StringObject) (needle : Nat → Checked Byte) (pattern : List Byte)
    (yields : Yields needle pattern) (i : Nat) (room : i + pattern.length ≤ self.length)
    (left j : Nat) (total : j + left = pattern.length)
    (agree : ∀ offset < j, self.text[i + offset]? = pattern[offset]?) :
    ∃ stopped, matchFrom self needle pattern.length i j = .ok stopped ∧
      (stopped = pattern.length ↔ OccursAt self.text pattern i) := by
  induction left generalizing j with
  | zero =>
    have done : ¬ j < pattern.length := by omega
    refine ⟨j, by rw [matchFrom, if_neg done], ?_, fun _ => total⟩
    intro _
    rw [occursAt_iff, text_length]
    exact ⟨room, fun offset inside => agree offset (by omega)⟩
  | succ left inductionHypothesis =>
    have more : j < pattern.length := by omega
    obtain ⟨characters, character, stored, read, value⟩ := text_read self (i + j) (by omega)
    have fits := length_fits self
    have counter : uint32 (i + j) = i + j := by
      have := uint32_of_fits (by omega : (0 : Int) ≤ i + j) (by omega)
      omega
    rw [matchFrom, if_pos more, stored, dereference_some, ok_bind, counter, read, ok_bind,
      yields j more, ok_bind]
    have expected : pattern[j]? = some pattern[j] := List.getElem?_eq_getElem more
    by_cases same : character = pattern[j]
    · rw [if_pos same]
      refine inductionHypothesis (j + 1) (by omega) ?_
      intro offset inside
      rcases Nat.lt_succ_iff_lt_or_eq.mp inside with earlier | rfl
      · exact agree offset earlier
      · rw [value, expected, same]
    · rw [if_neg same]
      refine ⟨j, rfl, fun reached => absurd reached (Nat.ne_of_lt more), ?_⟩
      intro occurs
      have equal := ((occursAt_iff _ _ _).mp occurs).2 j more
      rw [value, expected] at equal
      exact absurd (Option.some.inj equal) same

/-- With a needle that is not longer, the outer loop is exact once no earlier index
    matches.

Induct over the indices that are left. -/
theorem findFrom_exact (self : StringObject) (needle : Nat → Checked Byte) (pattern : List Byte)
    (yields : Yields needle pattern) (bound : Nat) (room : bound + pattern.length = self.length)
    (left i : Nat) (total : i + left = bound + 1)
    (notBefore : ∀ earlier < i, ¬ OccursAt self.text pattern earlier) :
    Exact (findFrom self needle pattern.length bound i) self.text pattern := by
  have fits := length_fits self
  induction left generalizing i with
  | zero =>
    have done : ¬ i ≤ bound := by omega
    refine ⟨npos, by rw [findFrom, if_neg done], finds_none ?_⟩
    intro index occurs
    have inside := ((occursAt_iff _ _ _).mp occurs).1
    rw [text_length] at inside
    exact notBefore index (by omega) occurs
  | succ left inductionHypothesis =>
    have more : i ≤ bound := by omega
    have counter : i + 1 < 4294967296 := by omega
    obtain ⟨stopped, matched, occurs⟩ := matchFrom_inside self needle pattern yields i (by omega)
      pattern.length 0 (Nat.zero_add _) (fun _ absurdity => absurd absurdity (Nat.not_lt_zero _))
    rw [findFrom, if_pos more, matched, ok_bind]
    by_cases reached : stopped = pattern.length
    · have apart : i ≠ npos := by
        have last : npos = 4294967295 := rfl
        omega
      rw [if_pos reached]
      exact ⟨i, rfl, finds_first (occurs.mp reached) notBefore apart⟩
    · rw [if_neg reached, dif_pos counter]
      refine inductionHypothesis (i + 1) (by omega) ?_
      intro earlier inside
      rcases Nat.lt_succ_iff_lt_or_eq.mp inside with before | rfl
      · exact notBefore earlier before
      · exact fun found => reached (occurs.mpr found)

/-- Behind the terminating zero there is nothing to read. -/
theorem matchFrom_behind (self : StringObject) (needle : Nat → Checked Byte) (m : Nat)
    (nonempty : 0 < m) : ∃ fault, matchFrom self needle m (self.length + 1) 0 = .error fault := by
  have fits := length_fits self
  have counter : uint32 ((self.length + 1 : Nat) + (0 : Nat)) = self.length + 1 := by
    have := uint32_of_fits (by omega : (0 : Int) ≤ (self.length + 1 : Nat) + (0 : Nat)) (by omega)
    omega
  rw [matchFrom, if_pos nonempty]
  rcases self.shaped with ⟨absent, _, _⟩ | ⟨characters, stored, sized, _, _⟩
  · exact ⟨.nullDereference, by rw [absent]; rfl⟩
  · have outside : ¬ self.length + 1 < characters.length := by omega
    refine ⟨.outOfBounds, ?_⟩
    rw [stored, dereference_some, ok_bind, counter, readCell, dif_neg outside]
    rfl

/-- With a needle that is longer than the string the search never reports absence: the
    wrapped bound takes it behind the terminating zero.

Induct over the indices up to the one behind the zero. -/
theorem findFrom_longer (self : StringObject) (needle : Nat → Checked Byte) (m bound : Nat)
    (nonempty : 0 < m) (far : self.length + 1 ≤ bound) (left i : Nat)
    (total : i + left = self.length + 1) : findFrom self needle m bound i ≠ .ok npos := by
  have fits := length_fits self
  have last : npos = 4294967295 := rfl
  induction left generalizing i with
  | zero =>
    obtain rfl : i = self.length + 1 := by omega
    obtain ⟨fault, behind⟩ := matchFrom_behind self needle m nonempty
    rw [findFrom, if_pos far, behind]
    exact fun absurdity => nomatch absurdity
  | succ left inductionHypothesis =>
    have counter : i + 1 < 4294967296 := by omega
    rw [findFrom, if_pos (by omega)]
    cases matchFrom self needle m i 0 with
    | error fault => exact fun absurdity => nomatch absurdity
    | ok stopped =>
      rw [ok_bind]
      by_cases reached : stopped = m
      · rw [if_pos reached]
        intro same
        have := Except.ok.inj same
        omega
      · rw [if_neg reached, dif_pos counter]
        exact inductionHypothesis (i + 1) (by omega)

/-- Both overloads are exact exactly when the needle is not longer. -/
theorem findWith_exact_iff (self : StringObject) (needle : Nat → Checked Byte)
    (pattern : List Byte) (yields : Yields needle pattern)
    (addressable : pattern.length < 4294967296) :
    Exact (findFrom self needle pattern.length (uint32 ((self.length : Int) - pattern.length)) 0)
      self.text pattern ↔ pattern.length ≤ self.length := by
  have fits := length_fits self
  constructor
  · rintro ⟨result, returned, finds⟩
    by_contra longer
    have absent : result = npos := finds.missing.mpr fun index occurs => by
      have short := occursAt_short occurs
      rw [text_length] at short
      omega
    have far : self.length + 1 ≤ uint32 ((self.length : Int) - pattern.length) := by
      unfold uint32
      omega
    rw [absent] at returned
    exact findFrom_longer self needle pattern.length _ (by omega) far (self.length + 1) 0
      (Nat.zero_add _) returned
  · intro short
    have bound : uint32 ((self.length : Int) - pattern.length) = self.length - pattern.length := by
      unfold uint32
      omega
    rw [bound]
    exact findFrom_exact self needle pattern yields _ (by omega) _ 0 (Nat.zero_add _)
      fun _ absurdity => absurd absurdity (Nat.not_lt_zero _)

/-- For every string and every needle, as a string or as characters, the search is exact and
    stays inside the character array exactly when the needle is not longer than the
    string. -/
theorem find_exact_iff (self : StringObject) :
    (∀ P : StringObject, Exact (self.find P) self.text P.text ↔ P.length ≤ self.length) ∧
      ∀ P : CString, Exact (self.findChars P) self.text P.text ↔ P.strlen ≤ self.length := by
  constructor
  · intro P
    have fits := length_fits P
    have exact_iff := findWith_exact_iff self _ P.text (subscript_yields P) (by
      rw [text_length]
      omega)
    rw [text_length] at exact_iff
    exact exact_iff
  · intro P
    have addressable := P.addressable
    have exact_iff := findWith_exact_iff self _ P.text (memory_yields P) (by omega)
    rw [← CString.strlen_text] at exact_iff
    exact exact_iff

theorem letterShape : StringShape (some [0x61, 0x00]) 2 1 :=
  .inr ⟨[0x61, 0x00], rfl, rfl, rfl, by decide⟩

theorem lettersTerminated : (0 : Byte) ∉ ([0x62, 0x63] : List Byte) := by decide

theorem lettersAddressable : ([0x62, 0x63] : List Byte).length < 4294967295 := by decide

/-- The string of one letter. -/
def letter : StringObject := ⟨some [0x61, 0x00], 2, 1, letterShape⟩

/-- A needle of two other letters. -/
def letters : CString := ⟨[0x62, 0x63], lettersTerminated, lettersAddressable⟩

/-- The third comparison reads behind the terminating zero. -/
theorem letters_outside : letter.findChars letters = .error .outOfBounds := by
  have first : matchFrom letter (readCell letters.memory) 2 0 0 = .ok 0 := by
    rw [matchFrom]
    rfl
  have second : matchFrom letter (readCell letters.memory) 2 1 0 = .ok 0 := by
    rw [matchFrom]
    rfl
  have third : matchFrom letter (readCell letters.memory) 2 2 0 = .error .outOfBounds := by
    rw [matchFrom]
    rfl
  change findFrom letter (readCell letters.memory) 2 4294967295 0 = _
  rw [findFrom, if_pos (by decide), first, ok_bind, if_neg (by decide), dif_pos (by decide),
    findFrom, if_pos (by decide), second, ok_bind, if_neg (by decide), dif_pos (by decide),
    findFrom, if_pos (by decide), third]
  rfl

/-- A needle of two letters is not searched for in a string of one. -/
theorem longer_needle_outside : ¬ ∀ (self : StringObject) (P : CString),
    Exact (self.findChars P) self.text P.text := by
  intro holds
  obtain ⟨result, returned, _⟩ := holds letter letters
  rw [letters_outside] at returned
  cases returned

end StringObject

end Sniffles
