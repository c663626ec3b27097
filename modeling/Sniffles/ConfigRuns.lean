import Sniffles.ConfigStore

/-!
# Which settings survive

A file in the default layout holds a device, a port and a third field. Setting a
value in a field that has no bar inside replaces exactly that field, so saving
over clean settings always writes the new ones. A saved value that contains a
bar moves every later field boundary, and the third field can then no longer be
found. The settings therefore survive a sequence of program runs exactly when no
saved value contains a bar.
-/

namespace Sniffles.Config

open BitSequences CheckedMemory DelimitedFields

/-- An `int` none of whose bytes is a bar. -/
def Clean (value : BitVec 32) : Prop := bar ∉ wordBytes value

instance (value : BitVec 32) : Decidable (Clean value) := by
  unfold Clean
  infer_instance

/-- The bytes of the third default field. -/
def thirdField : List Byte := [0x67, 0x61, 0x79, 0x70, 0x75, 0x73, 0x73]

/-- The default layout with a device and a port. -/
def layout (device port : BitVec 32) : List Byte :=
  terminated bar [wordBytes device, wordBytes port, thirdField] ++ [0x00]

/-- The bytes from the start of a field to the next bar. -/
def fieldBytes (config : List Byte) (opt : Int) : Checked (List Byte) := do
  let v ← getConfigValue config opt
  let delimiter ← dereference (memchr config v (config.length - v))
  readRange config v (delimiter - v)

/-- One program run: the values it saves and what its allocations hold. -/
structure Run where
  device : BitVec 32
  port : BitVec 32
  portMemory : Nat → Byte
  deviceMemory : Nat → Byte

/-- Load the file and save the run's values over it. -/
def Run.perform (run : Run) (file : List Byte) : Checked (List Byte) :=
  saveConfig run.portMemory run.deviceMemory file (checkConfigFile (some file)).2 run.device run.port

/-- What the next load finds after a run that saved a device and a port. -/
structure Kept (file : List Byte) (device port : BitVec 32) : Prop where
  device : getConfigOption (checkConfigFile (some file)).2 DEVICE = .ok (some device)
  port : getConfigOption (checkConfigFile (some file)).2 PORT = .ok (some port)
  third : fieldBytes (checkConfigFile (some file)).2 GAY = .ok thirdField
  length : file.length = gDefaultConfig.length

/-- Every run of a sequence returns and leaves its values to the next load. -/
def Survives (file : List Byte) : List Run → Prop
  | [] => True
  | run :: rest => ∃ next, run.perform file = .ok next ∧ Kept next run.device run.port ∧
      Survives next rest

/-- The default file is the layout with device 2 and port 27015. -/
theorem default_layout : gDefaultConfig = layout 2 27015 := by decide

@[simp] theorem layout_length (device port : BitVec 32) :
    (layout device port).length = gDefaultConfig.length := rfl

/-- Stepping over clean fields arrives behind them. -/
theorem stepFields_skip (config : List Byte) (iterations v stop : Nat)
    (skipped : skip bar config iterations v = some stop) :
    stepFields config iterations v (config.length - v) = .ok stop := by
  induction iterations generalizing v with
  | zero =>
    cases skipped
    rfl
  | succ iterations inductionHypothesis =>
    rw [skip] at skipped
    obtain ⟨found, search, rest⟩ := Option.bind_eq_some_iff.mp skipped
    rw [stepFields, memchr, search, dereference_some, ok_bind]
    exact inductionHypothesis (found + 1) rest

/-- The value of an option is found behind the fields before it. -/
theorem getConfigValue_fields (fields : List (List Byte)) (after : List Byte) (opt : Int)
    (placed : opt.toNat = fields.length) (clean : ∀ field ∈ fields, bar ∉ field) :
    getConfigValue (terminated bar fields ++ after) opt = .ok (terminated bar fields).length := by
  have skipped := skip_fields bar fields [] after clean
  simp only [List.nil_append, List.length_nil, Nat.zero_add] at skipped
  rw [getConfigValue, placed]
  exact stepFields_skip _ _ 0 _ skipped

/-- A value that is not longer than the old one replaces it. The rest is read before
    it can be overwritten, because the value ends at it or before it. -/
theorem replaceValue_between (fresh : Nat → Byte) (before covered kept after value : List Byte)
    (sized : value.length = covered.length) :
    replaceValue fresh (before ++ (covered ++ (kept ++ after))) before.length
        (before.length + covered.length + kept.length) value =
      .ok (before ++ (value ++ after)) := by
  have size : (before ++ (covered ++ (kept ++ after))).length =
      before.length + covered.length + kept.length + after.length := by
    simp only [List.length_append]
    omega
  have rest : before.length + covered.length + kept.length + after.length -
      (before.length + covered.length + kept.length) = after.length := by omega
  have shrunk : before.length + covered.length + kept.length + after.length -
      (before.length + covered.length + kept.length - before.length) + covered.length =
        before.length + covered.length + after.length := by omega
  have reused : before.length + covered.length + after.length -
      (before.length + covered.length + kept.length + after.length) = 0 := by omega
  have stored := writeRange_between before covered value (kept ++ after) sized
  have source := readRange_between (before ++ value ++ kept) after []
  have target := writeRange_between (before ++ value) ((kept ++ after).take after.length) after
    ((kept ++ after).drop after.length) (by simp)
  simp only [List.append_assoc, List.append_nil, List.length_append, sized,
    List.take_append_drop] at stored source target
  rw [← Nat.add_assoc] at source
  have final : (before ++ (value ++ (after ++ (kept ++ after).drop after.length))).take
      (before.length + covered.length + after.length) = before ++ (value ++ after) := by
    have place : before.length + covered.length + after.length =
        (before ++ (value ++ after)).length := by
      simp only [List.length_append, sized]
      omega
    have regroup : before ++ (value ++ (after ++ (kept ++ after).drop after.length)) =
        (before ++ (value ++ after)) ++ (kept ++ after).drop after.length := by
      simp only [List.append_assoc]
    rw [place, regroup, List.take_left]
  rw [replaceValue]
  simp only [size, sized, rest, shrunk, reused, allocate, List.range_zero, List.map_nil,
    List.append_nil]
  rw [stored, ok_bind, source, ok_bind, target, ok_bind, final]

/-- Setting a value that is not longer than a field without bars replaces exactly
    that field. -/
theorem setConfigValue_replaces (fresh : Nat → Byte) (fields : List (List Byte))
    (field after value : List Byte) (opt : Int) (placed : opt.toNat = fields.length)
    (clean : ∀ other ∈ fields, bar ∉ other) (cleanField : bar ∉ field)
    (shorter : value.length ≤ field.length) :
    setConfigValue fresh (terminated bar fields ++ (field ++ bar :: after)) opt value =
      .ok (terminated bar fields ++ (value ++ bar :: after)) := by
  have index := getConfigValue_fields fields (field ++ bar :: after) opt placed clean
  rw [getConfigValue] at index
  have search := find_field bar (terminated bar fields) field after
    ((terminated bar fields ++ (field ++ bar :: after)).length - (terminated bar fields).length)
    cleanField (by simp)
  rw [setConfigValue, index, ok_bind, memchr, search, dereference_some, ok_bind]
  have replaced := replaceValue_between fresh (terminated bar fields) (field.take value.length)
    (field.drop value.length) (bar :: after) value (by simp [shorter])
  have split : field.take value.length ++ (field.drop value.length ++ bar :: after) =
      field ++ bar :: after := by
    rw [← List.append_assoc, List.take_append_drop]
  have place : (terminated bar fields).length + (field.take value.length).length +
      (field.drop value.length).length = (terminated bar fields).length + field.length := by
    simp only [List.length_take, List.length_drop]
    omega
  rw [split, place] at replaced
  exact replaced

/-- A field without bars behind clean fields is found whole. -/
theorem fieldBytes_field (fields : List (List Byte)) (field after : List Byte) (opt : Int)
    (placed : opt.toNat = fields.length) (clean : ∀ other ∈ fields, bar ∉ other)
    (cleanField : bar ∉ field) :
    fieldBytes (terminated bar fields ++ (field ++ bar :: after)) opt = .ok field := by
  have found := getConfigValue_fields fields (field ++ bar :: after) opt placed clean
  have search := find_field bar (terminated bar fields) field after
    ((terminated bar fields ++ (field ++ bar :: after)).length - (terminated bar fields).length)
    cleanField (by simp)
  have read := readRange_between (terminated bar fields) field (bar :: after)
  rw [List.append_assoc] at read
  rw [fieldBytes, found, ok_bind, memchr, search, dereference_some, ok_bind,
    Nat.add_sub_cancel_left]
  exact read

/-- The number stored at the start of a field is read by its option. -/
theorem getConfigOption_stored (fields : List (List Byte)) (value : BitVec 32) (after : List Byte)
    (opt : Int) (guarded : opt ≤ OPTCOUNT) (placed : opt.toNat = fields.length)
    (clean : ∀ field ∈ fields, bar ∉ field) :
    getConfigOption (terminated bar fields ++ (wordBytes value ++ after)) opt = .ok (some value) := by
  have found := getConfigValue_fields fields (wordBytes value ++ after) opt placed clean
  have read := readVector_between (terminated bar fields) after (wordCells value)
  rw [wordCells_toList, List.append_assoc] at read
  rw [getConfigOption, if_neg (by omega), found, ok_bind, read, ok_bind, joinBytes_wordCells]

/-- A run over clean settings writes the layout of its own values, whatever its
    allocations hold. -/
theorem perform_layout (run : Run) (device port : BitVec 32) (cleanDevice : Clean device)
    (cleanPort : Clean port) :
    run.perform (layout device port) = .ok (layout run.device run.port) := by
  have setPort := setConfigValue_replaces run.portMemory [wordBytes device] (wordBytes port)
    (thirdField ++ [bar, 0x00]) (wordBytes run.port) PORT rfl (by simpa [Clean] using cleanDevice)
    cleanPort (Nat.le_refl _)
  have setDevice := setConfigValue_replaces run.deviceMemory [] (wordBytes device)
    (wordBytes run.port ++ bar :: (thirdField ++ [bar, 0x00])) (wordBytes run.device) DEVICE rfl
    (by simp) cleanDevice (Nat.le_refl _)
  have before : layout device port =
      terminated bar [wordBytes device] ++ (wordBytes port ++ bar :: (thirdField ++ [bar, 0x00])) := by
    simp [layout, terminated]
  have between : terminated bar [wordBytes device] ++
      (wordBytes run.port ++ bar :: (thirdField ++ [bar, 0x00])) =
        terminated bar [] ++ (wordBytes device ++ bar ::
          (wordBytes run.port ++ bar :: (thirdField ++ [bar, 0x00]))) := by
    simp [terminated]
  have after : terminated bar [] ++ (wordBytes run.device ++ bar ::
      (wordBytes run.port ++ bar :: (thirdField ++ [bar, 0x00]))) = layout run.device run.port := by
    simp [layout, terminated]
  rw [← before, between] at setPort
  rw [after] at setDevice
  have guardPort : ¬ PORT > OPTCOUNT := by decide
  have guardDevice : ¬ DEVICE > OPTCOUNT := by decide
  have covered : (layout device port).drop (layout run.device run.port).length = [] :=
    List.drop_eq_nil_of_le (Nat.le_of_eq rfl)
  rw [Run.perform, checkConfigFile, saveConfig, setConfigOption, if_neg guardPort, setPort, ok_bind,
    setConfigOption, if_neg guardDevice, setDevice, ok_bind, saveConfigFile, covered,
    List.append_nil]

/-- Clean settings are found by the next load. -/
theorem kept_layout (device port : BitVec 32) (cleanDevice : Clean device) (cleanPort : Clean port) :
    Kept (layout device port) device port := by
  have third : terminated bar [wordBytes device, wordBytes port] ++
      (thirdField ++ bar :: [0x00]) = layout device port := by
    simp [layout, terminated]
  have clean : ∀ field ∈ [wordBytes device, wordBytes port], bar ∉ field := by
    intro field member
    rcases List.mem_cons.mp member with rfl | member
    · exact cleanDevice
    · rw [List.mem_singleton.mp member]
      exact cleanPort
  constructor
  case device =>
    have stored := getConfigOption_stored [] device
      (bar :: (wordBytes port ++ bar :: (thirdField ++ [bar, 0x00]))) DEVICE (by decide) rfl (by simp)
    simpa [checkConfigFile, layout, terminated] using stored
  case port =>
    have stored := getConfigOption_stored [wordBytes device] port
      (bar :: (thirdField ++ [bar, 0x00])) PORT (by decide) rfl (by simpa [Clean] using cleanDevice)
    simpa [checkConfigFile, layout, terminated] using stored
  case third =>
    rw [← third]
    exact fieldBytes_field [wordBytes device, wordBytes port] thirdField [0x00] GAY rfl clean
      (by decide)
  case length => rfl

/-- The bytes read for a field reach to the delimiter that the search finds. -/
theorem fieldBytes_length (config : List Byte) (opt : Int) (value delimiter : Nat)
    (field : List Byte) (starts : getConfigValue config opt = .ok value)
    (ends : memchr config value (config.length - value) = some delimiter)
    (read : fieldBytes config opt = .ok field) : field.length = delimiter - value := by
  rw [fieldBytes, starts, ok_bind, ends, dereference_some, ok_bind] at read
  exact readRange_length read

/-- A bar of the device or the port lies inside its four bytes of the file. -/
theorem unclean_place (device port : BitVec 32) (unclean : ¬ (Clean device ∧ Clean port)) :
    ∃ place, (layout device port)[place]? = some bar ∧ (place < 4 ∨ 5 ≤ place ∧ place < 9) := by
  have inside : ∀ value, ¬ Clean value → ∃ place, (wordBytes value)[place]? = some bar ∧ place < 4 := by
    intro value dirty
    obtain ⟨place, low, stored⟩ := List.getElem_of_mem (Decidable.not_not.mp dirty)
    exact ⟨place, List.getElem?_eq_some_iff.mpr ⟨low, stored⟩, low⟩
  rcases not_and_or.mp unclean with dirty | dirty
  · obtain ⟨place, stored, low⟩ := inside device dirty
    have shape : layout device port =
        wordBytes device ++ (bar :: (wordBytes port ++ bar :: (thirdField ++ [bar, 0x00]))) := by
      simp [layout, terminated]
    exact ⟨place, by rwa [shape, List.getElem?_append_left low], .inl low⟩
  · obtain ⟨place, stored, low⟩ := inside port dirty
    have shape : layout device port =
        (wordBytes device ++ [bar]) ++ (wordBytes port ++ bar :: (thirdField ++ [bar, 0x00])) := by
      simp [layout, terminated]
    have shifted : (wordBytes device ++ [bar]).length ≤ 5 + place := by simp
    refine ⟨5 + place, ?_, .inr (by omega)⟩
    rw [shape, List.getElem?_append_right shifted, List.getElem?_append_left (by simp [low])]
    simpa using stored

/-- A bar inside the device or the port moves the third field: a search stops at it,
    so the third search starts before the third field, and what it finds is too short. -/
theorem third_lost (device port : BitVec 32) (unclean : ¬ (Clean device ∧ Clean port)) :
    fieldBytes (layout device port) GAY ≠ .ok thirdField := by
  intro read
  have search (start place : Nat) (low : start ≤ place) (inside : place < 19)
      (stored : (layout device port)[place]? = some bar) :
      ∃ found, memchr (layout device port) start ((layout device port).length - start) = some found ∧
        start ≤ found ∧ found ≤ place := by
    have size : (layout device port).length = 19 := rfl
    exact find_at_most bar _ start _ place low (by omega) stored
  have deviceBar : (layout device port)[4]? = some bar := rfl
  have portBar : (layout device port)[9]? = some bar := rfl
  obtain ⟨first, foundFirst, _, firstLow⟩ := search 0 4 (by omega) (by omega) deviceBar
  have early : ∃ second, memchr (layout device port) (first + 1)
      ((layout device port).length - (first + 1)) = some second ∧ first + 1 ≤ second ∧ second < 9 := by
    by_cases stopped : first = 4
    case neg =>
      obtain ⟨second, found, low, high⟩ := search (first + 1) 4 (by omega) (by omega) deviceBar
      exact ⟨second, found, low, by omega⟩
    case pos =>
      obtain ⟨place, stored, within⟩ := unclean_place device port unclean
      by_cases inPort : 5 ≤ place
      case pos =>
        obtain ⟨second, found, low, high⟩ :=
          search (first + 1) place (by omega) (by omega) stored
        exact ⟨second, found, low, by omega⟩
      case neg =>
        have inDevice : place < 4 := by omega
        obtain ⟨found, foundEarlier, _, earlier⟩ := search 0 place (by omega) (by omega) stored
        have same : found = first := Option.some.inj (foundEarlier.symm.trans foundFirst)
        omega
  obtain ⟨second, foundSecond, secondLow, secondHigh⟩ := early
  have starts : getConfigValue (layout device port) GAY = .ok (second + 1) := by
    have skipped : skip bar (layout device port) 2 0 = some (second + 1) := by
      rw [memchr] at foundFirst foundSecond
      rw [skip, foundFirst, Option.bind_some, skip, foundSecond, Option.bind_some, skip]
    exact stepFields_skip _ 2 0 _ skipped
  have short : ∃ third, memchr (layout device port) (second + 1)
      ((layout device port).length - (second + 1)) = some third ∧ third - (second + 1) < 7 := by
    by_cases before : second < 4
    case pos =>
      obtain ⟨third, found, _, high⟩ := search (second + 1) 4 (by omega) (by omega) deviceBar
      exact ⟨third, found, by omega⟩
    case neg =>
      obtain ⟨third, found, _, high⟩ := search (second + 1) 9 (by omega) (by omega) portBar
      exact ⟨third, found, by omega⟩
  obtain ⟨third, foundThird, length⟩ := short
  have tooLong := fieldBytes_length _ _ _ _ _ starts foundThird read
  have seven : thirdField.length = 7 := rfl
  rw [seven] at tooLong
  omega

/-- Saved settings survive every run of a sequence exactly when no byte of a saved
    device or port is a bar.

Induct over the runs. A run over clean settings writes the layout of its values; the
next load finds them if they are clean, and does not find the third field otherwise. -/
theorem survives_iff_clean (device port : BitVec 32) (cleanDevice : Clean device)
    (cleanPort : Clean port) (runs : List Run) :
    Survives (layout device port) runs ↔ ∀ run ∈ runs, Clean run.device ∧ Clean run.port := by
  induction runs generalizing device port with
  | nil => simp [Survives]
  | cons run rest inductionHypothesis =>
    have performed := perform_layout run device port cleanDevice cleanPort
    rw [List.forall_mem_cons]
    constructor
    · rintro ⟨next, returned, kept, survives⟩
      obtain rfl : layout run.device run.port = next := Except.ok.inj (performed.symm.trans returned)
      have clean : Clean run.device ∧ Clean run.port := by
        by_contra unclean
        exact third_lost _ _ unclean kept.third
      exact ⟨clean, (inductionHypothesis _ _ clean.1 clean.2).mp survives⟩
    · rintro ⟨clean, cleanRest⟩
      exact ⟨_, performed, kept_layout _ _ clean.1 clean.2,
        (inductionHypothesis _ _ clean.1 clean.2).mpr cleanRest⟩

/-- Three runs over the default file, two of them with the port of the game. -/
theorem clean_runs_survive :
    Survives gDefaultConfig
      [⟨2, 27015, fun _ => 0, fun _ => 0⟩, ⟨1, 27005, fun _ => 0, fun _ => 0⟩,
        ⟨3, 27015, fun _ => 0, fun _ => 0⟩] := by
  rw [default_layout]
  exact (survives_iff_clean 2 27015 (by decide) (by decide) _).mpr (by decide)

/-- One run that saves port 124 over the default file loses the third field. -/
theorem bar_port_lost : ¬ ∀ runs, Survives gDefaultConfig runs := by
  intro survives
  obtain ⟨next, performed, kept, _⟩ := survives [⟨2, 124, fun _ => 0, fun _ => 0⟩]
  have written : Run.perform ⟨2, 124, fun _ => 0, fun _ => 0⟩ gDefaultConfig =
      .ok (layout 2 124) := by decide
  obtain rfl : layout 2 124 = next := Except.ok.inj (written.symm.trans performed)
  exact absurd kept.third (by decide)

end Sniffles.Config
