/-
SyncServiceUi/TableObject.lean

`SyncTable` of `src/QObjects/SyncTable.h`, the C++ object behind the table:
the vector of modules it keeps and the QML table it drives, and what a frame
from the service does to the two.

The signals of `command_handler` reach this object through the event queue
of the UI thread, one after the other and in order; a slot runs to its end
before the next one starts.  A JavaScript exception in a QML handler is
logged and goes no further, so the C++ loop that emitted the signal goes on
(`SyncTable.receive`).
-/
import SyncServiceUi.CommandHandler
import SyncServiceUi.Strtod
import SyncServiceUi.TableSpec

namespace SyncServiceUi

open Completion Emission Runs

/-! ### The object -/

structure TableObject where
  modules : List SyncModule
  qObj : SyncTable
  deriving DecidableEq

/-- What `fromUtf8` sees of a path passed as a C string. -/
def c_str (s : String) : String :=
  String.ofList (s.toList.takeWhile (· ≠ '\x00'))

/-- The arguments `onModulesFetched` passes to `moduleAdded`: the paths go
through C strings, the other fields do not. -/
def SyncModule.fetchedEntry (module : SyncModule) : ModuleEntry where
  name := module.name
  source := c_str module.source
  destination := c_str module.destination
  type := module.type
  direction := module.direction

/-- The double the literal `0.8` stands for. -/
def fetchedProgress : ℚ := 3602879701896397 / 4503599627370496

example : Strtod.stod "0.8" = .ok fetchedProgress := by decide +kernel

section Slots

variable (lower : String → String)

namespace TableObject

/-- The signal `moduleAdded`, which is connected to the QML table only. -/
def moduleAdded (o : TableObject) (m : ModuleEntry) : TableObject :=
  { o with qObj := o.qObj.receive lower (.add m) }

def modifyCompletion (o : TableObject) (name : String) (value : ℚ) : TableObject :=
  { o with qObj := o.qObj.receive lower (.progress name value) }

/-- One round of the loop of `onModulesFetched`. -/
def fetch (o : TableObject) (module : SyncModule) : TableObject :=
  { o with modules := o.modules ++ [module] }.moduleAdded lower module.fetchedEntry

def onModulesFetched (o : TableObject) (init_modules : List SyncModule) : TableObject :=
  (init_modules.foldl (fetch lower) o).modifyCompletion lower "Module8" fetchedProgress

/-- `onModuleDeleted`: the first module of exactly this name. -/
def onModuleDeleted (o : TableObject) (name : String) : TableObject :=
  { o with modules := o.modules.eraseP fun module => module.name = name }

/-- The object after a signal of the client. -/
def receive (o : TableObject) : Signal → TableObject
  | .modulesFetched modules => o.onModulesFetched lower modules
  | .moduleAdded name source destination type direction =>
      o.moduleAdded lower ⟨name, source, destination, type, direction⟩
  | .moduleDeleted name =>
      -- the slot first, then the QML table
      let o := o.onModuleDeleted name
      { o with qObj := o.qObj.receive lower (.delete name) }
  | .modifyCompletion name value => o.modifyCompletion lower name value
  | .errorThrown _ => o

end TableObject

/-! ### Frames -/

/-- What `command_handler` emits on a frame. -/
def signals (lib : Nlohmann) (j : Json) : List Signal :=
  ((command_handler lib j).run []).2

/-- The object after a frame. -/
def TableObject.onFrame (lib : Nlohmann) (o : TableObject) (j : Json) : TableObject :=
  (signals lib j).foldl (TableObject.receive lower) o

end Slots

/-- A frame with this command and this data. -/
def Json.IsFrame (j : Json) (command : String) (data : Json) : Prop :=
  j.member "command" = some (.string command) ∧ j.member "data" = some data

/-- The frame the service sends with this command and this data. -/
def serviceFrame (command : String) (data : Json) : Json :=
  .object <| Json.put "data" data <| Json.put "command" (.string command) []

theorem isFrame_serviceFrame (command : String) (data : Json) :
    (serviceFrame command data).IsFrame command data := by
  simp [Json.IsFrame, serviceFrame]

/-- A library for trying things out on frames that are parsed already. -/
def noText : Nlohmann := ⟨fun _ => none, fun _ => ""⟩

/-- An object without modules, its table sorted by Name. -/
def TableObject.blank : TableObject := ⟨[], ⟨[], .name, true⟩⟩

theorem signals_of_emits {lib : Nlohmann} {j : Json} {r : Except Exn ℤ} {l : List Signal}
    (h : Emits (command_handler lib j) r l) : signals lib j = l := by
  unfold signals
  rw [h []]
  rfl

theorem emits_command_handler {lib : Nlohmann} {j : Json} {c : String} {r : Except Exn ℤ}
    {l : List Signal} (hc : j.member "command" = some (.string c))
    (h : Emits (dispatch lib j c) r l) : signals lib j = l := by
  have hread : j.readString "command" = .ok (j, c) :=
    Json.readString_eq_ok_iff.mpr ⟨c, hc, rfl⟩
  exact signals_of_emits (emits_liftM_bind hread h)

/-- A frame the handler does not accept emits nothing. -/
theorem signals_of_not_accepts {lib : Nlohmann} {j : Json} (h : ¬ Accepts j) :
    signals lib j = [] := by
  obtain ⟨e, he⟩ := @emits_of_not_accepts lib j h
  exact signals_of_emits he

theorem signals_init {lib : Nlohmann} {j : Json} {L : List SyncModule}
    (hc : j.member "command" = some (.string "init"))
    (hL : initModules ((j.member "data").getD .null) = .ok L) :
    signals lib j = [.modulesFetched L] := by
  obtain ⟨ms, rfl⟩ := Json.object_of_member hc
  apply emits_command_handler hc
  show Emits (initBranch (.object ms)) (.ok 1) _
  exact emits_liftM_bind (Json.subscript_object ms "data")
    (emits_liftM_bind hL (emits_emit_bind (emits_pure 1)))

theorem signals_add {lib : Nlohmann} {j module : Json} {m : ModuleEntry}
    (hframe : j.IsFrame "add" module) (hname : module.member "name" = some (.string m.name))
    (hsource : module.member "source" = some (.string m.source))
    (hdestination : module.member "destination" = some (.string m.destination))
    (htype : module.member "type" = some (.string m.type))
    (hdirection : module.member "direction" = some (.string m.direction)) :
    signals lib j = [.moduleAdded m.name m.source m.destination m.type m.direction] := by
  have hread : ∀ {key s}, module.member key = some (.string s) →
      module.readString key = .ok (module, s) := by
    intro key s h
    exact Json.readString_eq_ok_iff.mpr ⟨s, h, rfl⟩
  apply emits_command_handler hframe.1
  show Emits (addBranch j) (.ok 1) _
  exact emits_liftM_bind (Json.subscript_of_member hframe.2) <|
    emits_liftM_bind (hread hname) <| emits_liftM_bind (hread hsource) <|
    emits_liftM_bind (hread hdestination) <| emits_liftM_bind (hread htype) <|
    emits_liftM_bind (hread hdirection) (emits_emit_bind (emits_pure 1))

/-- A `progress` frame with data that can be subscripted: a null, also one
that was not there, or an object. -/
theorem signals_progress {lib : Nlohmann} {j : Json} {ms : List (String × Json)}
    (hc : j.member "command" = some (.string "progress"))
    (hdata : (j.member "data").getD .null = .null ∧ ms = [] ∨
      (j.member "data").getD .null = .object ms) :
    signals lib j = [.modifyCompletion (((ms.lookup "name").getD .null).dump lib)
      (progressValue (((ms.lookup "progress").getD .null).dump lib))] := by
  obtain ⟨js, rfl⟩ := Json.object_of_member hc
  have hname : ((js.lookup "data").getD .null).subscript "name" =
      .ok (.object (Json.emplace "name" ms), (ms.lookup "name").getD .null) := by
    rw [Json.member_object] at hdata
    rcases hdata with ⟨hnull, rfl⟩ | hobject
    · rw [hnull]
      rfl
    · rw [hobject]
      rfl
  -- looking up the name may add it, which changes nothing for the progress
  have hprogress : (Json.emplace "name" ms).lookup "progress" = ms.lookup "progress" := by
    rw [Json.lookup_emplace, if_neg (by decide)]
  have hsecond : (Json.object (Json.emplace "name" ms)).subscript "progress" =
      .ok (.object (Json.emplace "progress" (Json.emplace "name" ms)),
        (ms.lookup "progress").getD .null) := by
    rw [Json.subscript_object, hprogress]
  apply emits_command_handler hc
  show Emits (progressBranch lib (.object js)) (.ok 1) _
  exact emits_liftM_bind (Json.subscript_object js "data") <| emits_liftM_bind hname <|
    emits_liftM_bind hsecond (emits_emit_bind (emits_pure 1))

/-! ### What the slots do -/

namespace TableObject

variable (lower : String → String)

theorem foldl_fetch (o : TableObject) (L : List SyncModule) :
    L.foldl (fetch lower) o = ⟨o.modules ++ L,
      run (SyncTable.receive lower) o.qObj (L.map fun module => .add module.fetchedEntry)⟩ := by
  induction L generalizing o with
  | nil => simp
  | cons module L ih => simp [ih, fetch, moduleAdded]

/-- `onModulesFetched` appends the modules, adds their rows and sets the
progress of a row called Module8. -/
theorem onModulesFetched_eq (o : TableObject) (L : List SyncModule) :
    o.onModulesFetched lower L = ⟨o.modules ++ L,
      (run (SyncTable.receive lower) o.qObj
        (L.map fun module => .add module.fetchedEntry)).receive lower
          (.progress "Module8" fetchedProgress)⟩ := by
  unfold onModulesFetched
  rw [foldl_fetch]
  rfl

theorem onFrame_init {lib : Nlohmann} {j : Json} {L : List SyncModule} (o : TableObject)
    (hc : j.member "command" = some (.string "init"))
    (hL : initModules ((j.member "data").getD .null) = .ok L) :
    o.onFrame lower lib j = o.onModulesFetched lower L := by
  unfold onFrame
  rw [signals_init hc hL]
  rfl

end TableObject

end SyncServiceUi
