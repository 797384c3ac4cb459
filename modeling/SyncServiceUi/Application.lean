/-
SyncServiceUi/Application.lean

The client as a whole, once it is connected (`src/main.cpp`,
`src/tcp_client.cpp`, `src/QObjects/`, `src/qml/`): the thread inside
`start_reading`, the event queue between it and the UI thread, and what the
UI thread owns: the table, the dialog, the error window and the sending side
of the client.

A step is one thing one of the two threads does: a `read_some` returns, a
signal is taken off the queue, the user clicks somewhere.  The steps come in
any order; that the dialog is modal is not used.  What a handler finds
outside the program, such as the files that exist just then or the bytes the
socket takes, is part of the step.

An exception that leaves `start_reading` leaves its thread, which is the end
of the process: no step is possible after it (`Enabled`).  There is one
reading thread (compare `MainWindow.OneReader`).
-/
import SyncServiceUi.DialogEdit
import SyncServiceUi.Reader
import SyncServiceUi.TableObject
import SyncServiceUi.TableRuns

namespace SyncServiceUi

open Runs

/-- What the program takes from Qt, from the JavaScript engine and from the
JSON library. -/
structure Platform where
  sorter : ArraySort JsError Row
  lower : String → String
  toNativeSeparators : String → String
  lib : Nlohmann

/-! ### The reading thread -/

def Status.reader : Status → Reader
  | .reading r => r
  | .returned r => r
  | .escaped r _ => r

/-- The thread is back at `read_some`. -/
def Status.isReading : Status → Bool
  | .reading _ => true
  | _ => false

theorem Status.exists_reading {status : Status} (h : status.isReading = true) :
    ∃ r, status = .reading r := by
  cases status with
  | reading r => exact ⟨r, rfl⟩
  | _ => cases h

/-- The thread after one more result of `read_some`. -/
def Status.next (lib : Nlohmann) : Status → ReadResult → Status
  | .reading r, x => iteration lib r x
  | status, _ => status

/-- The signals emitted on the way from one status to the next. -/
def Status.posted (status status' : Status) : List Signal :=
  status'.reader.emitted.drop status.reader.emitted.length

/-! ### The error window -/

structure ErrorModal where
  visible : Bool
  text : String
  deriving DecidableEq, Repr

namespace ErrorModal

def start : ErrorModal := ⟨false, "An error has occured"⟩

def onErrorThrown (msg : String) : ErrorModal := ⟨true, msg⟩

/-- Only one of the signals is for the error window. -/
def receive (m : ErrorModal) : Signal → ErrorModal
  | .errorThrown msg => onErrorThrown msg
  | _ => m

/-- Either button. -/
def accept (m : ErrorModal) : ErrorModal := { m with visible := false }

end ErrorModal

/-! ### The table at the start -/

/-- What the constructor of `SyncTable` emits, with the doubles its literals
stand for. -/
def constructorMessages : List Message :=
  [ .progress "module10" (3152519739159347 / 4503599627370496),
    .status "module10" "paused",
    .status "module7" "active",
    .progress "module11" (5404319552844595 / 18014398509481984) ]

example : Strtod.stod "0.7" = .ok (3152519739159347 / 4503599627370496) ∧
    Strtod.stod "0.3" = .ok (5404319552844595 / 18014398509481984) := by decide +kernel

/-- The object its constructor leaves. -/
def TableObject.created (sorter : ArraySort JsError Row) (lower : String → String) : TableObject :=
  ⟨[], run (SyncTable.receive lower) (SyncTable.start sorter lower) constructorMessages⟩

/-! ### The whole -/

/-- The two threads and the queue between them.  `history` records the
signals taken off the queue; the program does not keep it. -/
structure Application where
  reader : Status
  queue : List Signal
  history : List Signal
  table : TableObject
  dialog : Dialog
  modal : ErrorModal
  sender : Sender

/-- The context menu of a row. -/
inductive MenuItem where
  | pause
  | resume
  | edit
  | delete
  | sync
  deriving DecidableEq, Repr

inductive AppEvent where
  /-- A `read_some` returns. -/
  | read (x : ReadResult)
  /-- The UI thread takes the next signal off its queue. -/
  | deliver
  /-- A click on a header. -/
  | reverseSort (column : Column)
  /-- An entry of the context menu of a row, and how many bytes the first
  write takes if it sends anything. -/
  | menu (item : MenuItem) (row : ℕ) (accepted : ℕ)
  /-- Something the user does with the dialog, and what it finds. -/
  | dialog (e : DialogEvent) (fs : Filesystem) (amb : Ambient) (accepted : ℕ)
  /-- A button of the error window. -/
  | accept

/-- What the reading thread reads. -/
def AppEvent.reads : AppEvent → List ReadResult
  | .read x => [x]
  | _ => []

/-- How many bytes the first write of a request takes. -/
def AppEvent.accepted : AppEvent → ℕ
  | .menu _ _ accepted => accepted
  | .dialog _ _ _ accepted => accepted
  | _ => 0

namespace Application

/-- `getModuleByRowIndex`. -/
def getModuleByRowIndex (a : Application) (row : ℕ) : Option Row :=
  a.table.qObj.rows[row]?

/-- The requests an event sends. -/
def requests (a : Application) : AppEvent → List Request
  | .menu item row _ =>
      match item, a.getModuleByRowIndex row with
      | .delete, some module => [.remove module.name]
      | .sync, some module => [.sync module.name]
      -- `undefined` has no name, and the other entries send nothing
      | _, _ => []
  | .dialog .mainButton fs amb _ => a.dialog.sends fs amb
  | _ => []

def calls (a : Application) (e : AppEvent) : List Call :=
  (a.requests e).map fun request => ⟨request, e.accepted⟩

/-- What an event amounts to for the dialog. -/
def dialogEvents (a : Application) : AppEvent → List DialogEvent
  | .menu .edit row _ => (a.getModuleByRowIndex row).toList.map Row.handleEdit
  | .dialog e _ _ _ => [e]
  -- `handlePause` and `handleResume` are not defined anywhere
  | _ => []

section Steps

variable (p : Platform)

def start : Application where
  reader := .reading .start
  queue := []
  history := []
  table := .created p.sorter p.lower
  dialog := .start
  modal := .start
  sender := .start

/-- The reading thread posts what it emits. -/
def onRead (a : Application) (x : ReadResult) : Application :=
  let reader := a.reader.next p.lib x
  { a with reader, queue := a.queue ++ a.reader.posted reader }

def onDeliver (a : Application) : Application :=
  match a.queue with
  | [] => a
  | signal :: queue =>
      { a with
        queue
        history := a.history ++ [signal]
        table := a.table.receive p.lower signal
        modal := a.modal.receive signal }

/-- What the user does on the UI thread. -/
def onUser (a : Application) (e : AppEvent) : Application :=
  { a with
    dialog := run (Dialog.handle p.toNativeSeparators) a.dialog (a.dialogEvents e)
    sender := run (send p.lib) a.sender (a.calls e) }

def step (a : Application) : AppEvent → Application
  | .read x => a.onRead p x
  | .deliver => a.onDeliver p
  | .reverseSort column =>
      { a with table.qObj := a.table.qObj.handle p.sorter p.lower (.reverseSort column) }
  | .accept => { a with modal := a.modal.accept }
  | e => a.onUser p e

end Steps

/-- No exception has left the reading thread. -/
def Alive (a : Application) : Prop :=
  ∀ r e, a.reader ≠ .escaped r e

/-- What can happen: the thread must be there to read, the queue must have
something in it, a menu belongs to a row, and the dialog is opened for a row
by its menu only. -/
def Enabled (a : Application) (e : AppEvent) : Prop :=
  a.Alive ∧
    match e with
    | .read _ => ∃ r, a.reader = .reading r
    | .deliver => a.queue ≠ []
    | .menu _ row _ => row < a.table.qObj.rows.length
    | .dialog e _ _ _ => a.dialog.Clickable e ∧ ∀ row, e ≠ .openEdit row
    | _ => True

end Application

end SyncServiceUi
