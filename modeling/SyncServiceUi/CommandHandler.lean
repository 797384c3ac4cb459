/-
SyncServiceUi/CommandHandler.lean

`TcpClient::command_handler` (`src/tcp_client.cpp`): one parsed frame from
the service, turned into at most one signal to the user interface.

The handler is code that throws and emits (`EmitM`); each branch of the
source is a definition of its own.  `Accepts` is the shape of the frames on
which the handler completes (`finishes_command_handler`), and
`atomic_command_handler` says that an exception leaves nothing emitted.
-/
import SyncServiceUi.Emission
import SyncServiceUi.Strtod
import SyncServiceUi.SyncModule

namespace SyncServiceUi

open Completion Emission

/-- Signals the client emits towards `SyncTable` and `ErrorModal`. -/
inductive Signal where
  | modulesFetched (modules : List SyncModule)
  | moduleAdded (name source destination type direction : String)
  | moduleDeleted (name : String)
  | modifyCompletion (name : String) (value : ℚ)
  | errorThrown (msg : String)
  deriving DecidableEq, Repr

/-- Code of the client that throws and emits. -/
abbrev Client := EmitM Exn Signal

/-! ### The handler -/

/-- The modules of an `init` frame; anything but an array has none. -/
def initModules : Json → Except Exn (List SyncModule)
  | .array items => items.mapM SyncModule.ofJson
  | _ => .ok []

def initBranch (j : Json) : Client ℤ := do
  -- a missing `data` becomes a null, which is no array
  let (_, data) ← liftM (j.subscript "data")
  let modules ← liftM (initModules data)
  emit (.modulesFetched modules)
  return 1

def addBranch (j : Json) : Client ℤ := do
  let (_, module) ← liftM (j.subscript "data")
  let (module, name) ← liftM (module.readString "name")
  let (module, source) ← liftM (module.readString "source")
  let (module, destination) ← liftM (module.readString "destination")
  let (module, type) ← liftM (module.readString "type")
  let (_, direction) ← liftM (module.readString "direction")
  emit (.moduleAdded name source destination type direction)
  return 1

def removeBranch (j : Json) : Client ℤ := do
  let (_, name) ← liftM (j.readString "data")
  emit (.moduleDeleted name)
  return 1

/-- `std::stod` of the progress text; both its exceptions are caught and
leave the zero the variable started with. -/
def progressValue (text : String) : ℚ :=
  match Strtod.stod text with
  | .ok v => v
  | .error .invalid_argument => 0
  | .error .out_of_range => 0

def progressBranch (lib : Nlohmann) (j : Json) : Client ℤ := do
  let (_, data) ← liftM (j.subscript "data")
  let (data, name) ← liftM (data.subscript "name")
  -- `dump`, not a conversion: a string keeps its quotes
  let module_name := name.dump lib
  let (_, progress) ← liftM (data.subscript "progress")
  let new_progress_value := progress.dump lib
  emit (.modifyCompletion module_name (progressValue new_progress_value))
  return 1

def errorBranch (j : Json) (command : String) : Client ℤ := do
  let (_, text) ← liftM (j.readString "data")
  emit (.errorThrown ("Command: \"" ++ command ++ "\"\nError Message: " ++ text))
  return 1

/-- The chain of comparisons; an unknown command does nothing. -/
def dispatch (lib : Nlohmann) (j : Json) (command : String) : Client ℤ :=
  if command = "init" then initBranch j
  else if command = "add" then addBranch j
  else if command = "remove" then removeBranch j
  else if command = "progress" then progressBranch lib j
  else if command = "-1" then errorBranch j command
  else return 1

def command_handler (lib : Nlohmann) (j : Json) : Client ℤ := do
  let (j, command) ← liftM (j.readString "command")
  dispatch lib j command

/-! ### The frames it accepts -/

/-- The data an accepted frame with command `c` carries. -/
def AcceptsData (c : String) (data : Option Json) : Prop :=
  if c = "init" then ∀ items, data = some (.array items) → ∀ item ∈ items, SyncModule.Shape item
  else if c = "add" then ∃ module, data = some module ∧ SyncModule.Fields module
  else if c = "remove" ∨ c = "-1" then ∃ s, data = some (.string s)
  else if c = "progress" then data = none ∨ data = some .null ∨ ∃ ms, data = some (.object ms)
  else True

/-- `j` is an object with a string under `command` and data to match. -/
def Accepts (j : Json) : Prop :=
  ∃ c, j.member "command" = some (.string c) ∧ AcceptsData c (j.member "data")

theorem accepts_iff {j : Json} {c : String} (hc : j.member "command" = some (.string c)) :
    Accepts j ↔ AcceptsData c (j.member "data") := by
  refine ⟨?_, ?_⟩
  · rintro ⟨c', hc', hdata⟩
    obtain rfl : c' = c := Json.string.inj (Option.some.inj (hc'.symm.trans hc))
    exact hdata
  · intro hdata
    exact ⟨c, hc, hdata⟩

section Branches

variable {lib : Nlohmann} {ms : List (String × Json)}

theorem completes_initModules {data : Json} :
    Completes (initModules data) ↔
      ∀ items, data = .array items → ∀ item ∈ items, SyncModule.Shape item := by
  cases data with
  | array items => simp [initModules, completes_mapM, SyncModule.completes_ofJson]
  | _ => simp [initModules]

theorem finishes_initBranch :
    Finishes (initBranch (.object ms)) ↔ AcceptsData "init" (ms.lookup "data") := by
  have h : Finishes (initBranch (.object ms)) ↔
      Completes (initModules ((ms.lookup "data").getD .null)) := by
    simp only [initBranch, finishes_liftM_bind, finishes_emit_pure, and_true,
      Json.subscript_object, Except.ok.injEq, exists_eq_left', Completes]
  rw [h, completes_initModules, AcceptsData, if_pos rfl]
  rcases ms.lookup "data" with - | data <;> simp

theorem finishes_addBranch :
    Finishes (addBranch (.object ms)) ↔ AcceptsData "add" (ms.lookup "data") := by
  have h : Finishes (addBranch (.object ms)) ↔
      SyncModule.Fields ((ms.lookup "data").getD .null) := by
    simp only [addBranch, finishes_liftM_bind, finishes_emit_pure, and_true,
      Json.readString_eq_ok_iff, Json.subscript_object, Except.ok.injEq, exists_eq_left']
    simp [SyncModule.Fields, Json.HasString]
  rw [h, AcceptsData, if_neg (by decide), if_pos rfl]
  rcases ms.lookup "data" with - | data
  · simp [SyncModule.Fields, Json.HasString, Json.member]
  · simp

theorem finishes_removeBranch :
    Finishes (removeBranch (.object ms)) ↔ AcceptsData "remove" (ms.lookup "data") := by
  simp only [removeBranch, finishes_liftM_bind, finishes_emit_pure, and_true,
    Json.readString_eq_ok_iff, Json.member_object]
  simp [AcceptsData]

theorem finishes_progressBranch :
    Finishes (progressBranch lib (.object ms)) ↔ AcceptsData "progress" (ms.lookup "data") := by
  have h : Finishes (progressBranch lib (.object ms)) ↔
      Completes (((ms.lookup "data").getD .null).subscript "name") := by
    simp only [progressBranch, finishes_liftM_bind, finishes_emit_pure, and_true,
      Json.subscript_object, Except.ok.injEq, exists_eq_left']
    refine ⟨?_, ?_⟩
    · intro h'
      obtain ⟨p, hp, -⟩ := h'
      exact ⟨p, hp⟩
    · intro h'
      obtain ⟨p, hp⟩ := h'
      exact ⟨p, hp, Json.completes_subscript_again hp⟩
  rw [h, Json.completes_subscript]
  rcases ms.lookup "data" with - | data <;> simp [AcceptsData]

theorem finishes_errorBranch :
    Finishes (errorBranch (.object ms) "-1") ↔ AcceptsData "-1" (ms.lookup "data") := by
  simp only [errorBranch, finishes_liftM_bind, finishes_emit_pure, and_true,
    Json.readString_eq_ok_iff, Json.member_object]
  simp [AcceptsData]

theorem finishes_dispatch {c : String} :
    Finishes (dispatch lib (.object ms) c) ↔ AcceptsData c (ms.lookup "data") := by
  unfold dispatch
  split
  next hi => rw [hi, finishes_initBranch]
  split
  next ha => rw [ha, finishes_addBranch]
  split
  next hr => rw [hr, finishes_removeBranch]
  split
  next hp => rw [hp, finishes_progressBranch]
  split
  next he => rw [he, finishes_errorBranch]
  next hi ha hr hp he => simp [AcceptsData, hi, ha, hr, hp, he]

end Branches

theorem finishes_command_handler {lib : Nlohmann} {j : Json} :
    Finishes (command_handler lib j) ↔ Accepts j := by
  simp only [command_handler, finishes_liftM_bind, Json.readString_eq_ok_iff]
  refine ⟨?_, ?_⟩
  · intro h'
    obtain ⟨-, ⟨c, hc, rfl⟩, h⟩ := h'
    obtain ⟨ms, rfl⟩ := Json.object_of_member hc
    exact ⟨c, hc, finishes_dispatch.mp h⟩
  · intro h'
    obtain ⟨c, hc, h⟩ := h'
    obtain ⟨ms, rfl⟩ := Json.object_of_member hc
    exact ⟨_, ⟨c, hc, rfl⟩, finishes_dispatch.mpr h⟩

/-! ### At most one signal, and none before a throw -/

theorem atomic_dispatch (lib : Nlohmann) (j : Json) (c : String) :
    Atomic (dispatch lib j c) := by
  unfold dispatch
  split
  next => exact atomic_liftM_bind fun _ _ => atomic_liftM_bind fun _ _ => atomic_emit_pure _ _
  split
  next =>
    exact atomic_liftM_bind fun _ _ => atomic_liftM_bind fun _ _ => atomic_liftM_bind fun _ _ =>
      atomic_liftM_bind fun _ _ => atomic_liftM_bind fun _ _ => atomic_liftM_bind fun _ _ =>
      atomic_emit_pure _ _
  split
  next => exact atomic_liftM_bind fun _ _ => atomic_emit_pure _ _
  split
  next =>
    exact atomic_liftM_bind fun _ _ => atomic_liftM_bind fun _ _ => atomic_liftM_bind fun _ _ =>
      atomic_emit_pure _ _
  split
  next => exact atomic_liftM_bind fun _ _ => atomic_emit_pure _ _
  next => exact atomic_pure _

theorem atomic_command_handler (lib : Nlohmann) (j : Json) :
    Atomic (command_handler lib j) :=
  atomic_liftM_bind fun _ _ => atomic_dispatch _ _ _

/-- On any other frame the handler throws, and emits nothing. -/
theorem emits_of_not_accepts {lib : Nlohmann} {j : Json} (h : ¬ Accepts j) :
    ∃ e, Emits (command_handler lib j) (.error e) [] := by
  obtain ⟨r, l, hl, -, hthrow⟩ := atomic_command_handler lib j
  rcases r with e | a
  · obtain rfl := hthrow (not_completes_error e)
    exact ⟨e, hl⟩
  · exact absurd (finishes_command_handler.mp ⟨a, l, hl⟩) h

/-- The handler completes on exactly the frames `Accepts` describes.  When it
completes it has emitted at most one signal; when it throws it has emitted
none. -/
theorem command_handler_completes_iff (lib : Nlohmann) (j : Json) (emitted : List Signal) :
    (Completes ((command_handler lib j).run emitted).1 ↔ Accepts j) ∧
      (∃ s : Option Signal, ((command_handler lib j).run emitted).2 = emitted ++ s.toList) ∧
      (¬ Completes ((command_handler lib j).run emitted).1 →
        ((command_handler lib j).run emitted).2 = emitted) := by
  have h := atomic_command_handler lib j
  exact ⟨(h.completes_run emitted).trans finishes_command_handler, h.run emitted⟩

end SyncServiceUi
