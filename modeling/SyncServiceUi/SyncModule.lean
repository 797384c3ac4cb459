/-
SyncServiceUi/SyncModule.lean

`SyncInfo` and `SyncModule` (`src/sync_info.cpp`, `src/sync_module.cpp`): the
constructors, and the decoding from and encoding to JSON.

A path is its text: `fs::path` and `std::string` convert into each other
without loss.  The filesystem is a parameter, asked through `fs::exists`,
and so are the clock and the memory a default-constructed `SyncInfo` leaves
uninitialised.
-/
import SyncServiceUi.Json

namespace SyncServiceUi

open Completion

abbrev Path := String

/-! ### SyncInfo -/

structure SyncInfo where
  name : String
  last_sync_date_unix : Int32
  frequency : String
  dirty : Int32
  deriving DecidableEq, Repr

/-- What a constructor takes from outside the program: the clock as
`get_current_unix_time` truncates it, and the two ints that `SyncInfo()`
does not initialise. -/
structure Ambient where
  current_unix_time : Int32
  last_sync_date_garbage : Int32
  dirty_garbage : Int32
  deriving DecidableEq, Repr

namespace SyncInfo

/-- `SyncInfo()`. -/
def blank (amb : Ambient) : SyncInfo :=
  ⟨"", amb.last_sync_date_garbage, "", amb.dirty_garbage⟩

/-- `SyncInfo(name, frequency)`, which does not pass the frequency on. -/
def ofNameFrequency (amb : Ambient) (name _frequency : String) : SyncInfo :=
  ⟨name, amb.current_unix_time, "", 1⟩

/-- `SyncInfo(name)`. -/
def ofName (amb : Ambient) (name : String) : SyncInfo :=
  ofNameFrequency amb name ""

/-- `SyncInfo(const nlohmann::json&)`. -/
def ofJson (j : Json) : Except Exn SyncInfo := do
  let name ← j.stringAt "name"
  let last_sync_date_unix ← j.intAt "last_sync_date_unix"
  let frequency ← j.stringAt "frequency"
  let dirty ← j.intAt "dirty"
  return { name, last_sync_date_unix, frequency, dirty }

def to_json (i : SyncInfo) : Json :=
  .object <|
    Json.put "dirty" (.number_integer i.dirty.toInt) <|
    Json.put "frequency" (.string i.frequency) <|
    Json.put "last_sync_date_unix" (.number_integer i.last_sync_date_unix.toInt) <|
    Json.put "name" (.string i.name) []

/-- The shape `ofJson` accepts. -/
def Shape (j : Json) : Prop :=
  j.HasString "name" ∧ j.HasNumber "last_sync_date_unix" ∧
    j.HasString "frequency" ∧ j.HasNumber "dirty"

theorem completes_ofJson {j : Json} : Completes (ofJson j) ↔ Shape j := by
  show _ ↔ j.HasString "name" ∧ j.HasNumber "last_sync_date_unix" ∧
    j.HasString "frequency" ∧ j.HasNumber "dirty"
  rw [← Json.completes_stringAt, ← Json.completes_intAt, ← Json.completes_stringAt,
    ← Json.completes_intAt]
  simp only [ofJson, completes_bind, completes_pure, and_true]
  simp only [exists_and_right, Completes]

end SyncInfo

/-! ### SyncModule -/

structure SyncModule where
  name : String
  source : Path
  destination : Path
  type : String
  direction : String
  info : SyncInfo
  deriving DecidableEq, Repr

/-- Answer of `fs::exists`; `failed` where the query itself throws. -/
inductive Existence where
  | present
  | absent
  | failed
  deriving DecidableEq, Repr

/-- The state of the filesystem, as far as the program looks at it. -/
abbrev Filesystem := Path → Existence

/-- `fs::exists`. -/
def Filesystem.exists (fs : Filesystem) (p : Path) : Except Exn Bool :=
  match fs p with
  | .present => .ok true
  | .absent => .ok false
  | .failed => .error .filesystem_error

namespace SyncModule

/-- Members as the language initialises them. -/
def blank (amb : Ambient) : SyncModule :=
  ⟨"", "", "", "", "", SyncInfo.blank amb⟩

/-- `SyncModule(name, source, destination, type, direction, info)`.  On a
path that does not exist it only prints a line and leaves the members as
they are. -/
def ofFieldsInfo (fs : Filesystem) (amb : Ambient) (name : String) (source destination : Path)
    (type direction : String) (info : SyncInfo) : Except Exn SyncModule := do
  if ← fs.exists source then
    -- the destination is only asked for when the source is there
    if ← fs.exists destination then
      return { name, source, destination, type, direction, info }
    else
      return blank amb
  else
    return blank amb

/-- `SyncModule(name, source, destination, type, direction)`. -/
def ofFields (fs : Filesystem) (amb : Ambient) (name : String) (source destination : Path)
    (type direction : String) : Except Exn SyncModule :=
  ofFieldsInfo fs amb name source destination type direction (SyncInfo.ofName amb name)

/-- `SyncModule(const nlohmann::json&)`. -/
def ofJson (j : Json) : Except Exn SyncModule := do
  let name ← j.stringAt "name"
  let source ← j.stringAt "source"
  let destination ← j.stringAt "destination"
  let type ← j.stringAt "type"
  let direction ← j.stringAt "direction"
  let info ← SyncInfo.ofJson (← j.constSubscript "info")
  return { name, source, destination, type, direction, info }

def to_json (m : SyncModule) : Json :=
  .object <|
    Json.put "info" m.info.to_json <|
    Json.put "direction" (.string m.direction) <|
    Json.put "type" (.string m.type) <|
    Json.put "destination" (.string m.destination) <|
    Json.put "source" (.string m.source) <|
    Json.put "name" (.string m.name) []

/-- The path-checking constructor, case by case: the destination is only
looked at when the source is there. -/
theorem ofFieldsInfo_eq (fs : Filesystem) (amb : Ambient) (name : String)
    (source destination : Path) (type direction : String) (info : SyncInfo) :
    ofFieldsInfo fs amb name source destination type direction info =
      match fs source, fs destination with
      | .failed, _ => .error .filesystem_error
      | .absent, _ => .ok (blank amb)
      | .present, .failed => .error .filesystem_error
      | .present, .absent => .ok (blank amb)
      | .present, .present => .ok { name, source, destination, type, direction, info } := by
  rcases hs : fs source with - | - | - <;> rcases hd : fs destination with - | - | - <;>
    simp [ofFieldsInfo, Filesystem.exists, hs, hd, bind, Except.bind, pure, Except.pure]

/-! ### What decoding accepts -/

/-- `j` is an object with the five string fields. -/
def Fields (j : Json) : Prop :=
  j.HasString "name" ∧ j.HasString "source" ∧ j.HasString "destination" ∧
    j.HasString "type" ∧ j.HasString "direction"

/-- The shape `ofJson` accepts. -/
def Shape (j : Json) : Prop :=
  Fields j ∧ ∃ info, j.member "info" = some info ∧ SyncInfo.Shape info

theorem completes_ofJson {j : Json} : Completes (ofJson j) ↔ Shape j := by
  simp only [Shape, Fields, ← Json.completes_stringAt, ← SyncInfo.completes_ofJson]
  simp only [ofJson, completes_bind, completes_pure, and_true,
    Json.constSubscript_eq_ok_iff]
  simp only [exists_and_right, Completes, and_assoc]

end SyncModule

end SyncServiceUi
