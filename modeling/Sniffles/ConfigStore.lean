import Sniffles.Foundations.CheckedMemory
import Sniffles.Foundations.BitSequences
import Sniffles.Foundations.DelimitedFields

/-!
# The configuration file

`cfg.h` keeps the settings as raw values in fields that end with a bar. A field
is located by searching for bars, a value is replaced in the loaded copy of the
file, and the copy is written over the start of the file.

Pointers are offsets into the loaded copy. `realloc` keeps all contents and adds
arbitrary cells when the copy grows; `memcpy` copies as if through a temporary.
A search from a null pointer and any access outside the copy are faults. Sizes
are natural numbers, since a file whose size does not fit an `int` cannot be
loaded.
-/

namespace Sniffles.Config

open BitSequences CheckedMemory

/-- `ConfigOptions`. -/
def DEVICE : Int := 0
def PORT : Int := 1
def GAY : Int := 2
def OPTCOUNT : Int := 3

def bar : Byte := 0x7C

/-- `g_default_config`, with the terminating zero that `sizeof` counts. -/
def gDefaultConfig : List Byte :=
  [0x02, 0x00, 0x00, 0x00, 0x7C, 0x87, 0x69, 0x00, 0x00, 0x7C,
    0x67, 0x61, 0x79, 0x70, 0x75, 0x73, 0x73, 0x7C, 0x00]

/-- `memchr(v, '|', length)` inside the loaded copy. -/
def memchr (config : List Byte) (v length : Nat) : Option Nat :=
  DelimitedFields.find bar config v length

/-- The loop that steps over one field for each of the given iterations. A failed
    search yields the address after null, which the next search dereferences. -/
def stepFields (config : List Byte) : Nat → Nat → Nat → Checked Nat
  | 0, v, _ => .ok v
  | iterations + 1, v, length => do
    let delimiter ← dereference (memchr config v length)
    stepFields config iterations (delimiter + 1) (config.length - (delimiter + 1))

def getConfigValue (config : List Byte) (opt : Int) : Checked Nat :=
  stepFields config opt.toNat 0 config.length

/-- From the reallocation on: store the value at its field and move everything from
    the delimiter on behind it. -/
def replaceValue (fresh : Nat → Byte) (config : List Byte) (index delimiterIndex : Nat)
    (value : List Byte) : Checked (List Byte) := do
  let length := config.length - delimiterIndex
  let oldValueSize := delimiterIndex - index
  let newSize := config.length - oldValueSize + value.length
  let cells := config ++ allocate fresh (newSize - config.length)
  let cells ← writeRange cells index value
  let moved ← readRange cells delimiterIndex length
  let cells ← writeRange cells (index + value.length) moved
  .ok (cells.take newSize)

def setConfigValue (fresh : Nat → Byte) (config : List Byte) (opt : Int) (value : List Byte) :
    Checked (List Byte) := do
  let index ← stepFields config opt.toNat 0 config.length
  let delimiterIndex ← dereference (memchr config index (config.length - index))
  replaceValue fresh config index delimiterIndex value

/-- An option outside the guard leaves the copy unchanged. -/
def setConfigOption (fresh : Nat → Byte) (config : List Byte) (opt : Int) (value : BitVec 32) :
    Checked (List Byte) :=
  if opt > OPTCOUNT then .ok config else setConfigValue fresh config opt (wordBytes value)

/-- `get_config_option<int>`. Outside the guard the returned memory is not set. -/
def getConfigOption (config : List Byte) (opt : Int) : Checked (Option (BitVec 32)) :=
  if opt > OPTCOUNT then .ok none
  else do
    let value ← getConfigValue config opt
    let stored ← readVector 4 config value
    .ok (some (joinBytes stored))

/-- `check_config_file`: whether the file exists, and the loaded copy. A missing
    file is created with the default contents. -/
def checkConfigFile : Option (List Byte) → Bool × List Byte
  | some file => (true, file)
  | none => (false, gDefaultConfig)

/-- `fwrite` on a file opened with `rb+` overwrites its start. -/
def saveConfigFile (file config : List Byte) : List Byte := config ++ file.drop config.length

/-- `save_config`: the port is set before the device. -/
def saveConfig (portMemory deviceMemory : Nat → Byte) (file config : List Byte)
    (cfgDevice cfgPort : BitVec 32) : Checked (List Byte) := do
  let config ← setConfigOption portMemory config PORT cfgPort
  let config ← setConfigOption deviceMemory config DEVICE cfgDevice
  .ok (saveConfigFile file config)

end Sniffles.Config
