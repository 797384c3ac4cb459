/-
SyncServiceUi/SyncTable.lean

The table of modules (`src/qml/components/SyncTable/SyncTable.qml`): its
rows, the column and direction it is sorted by, and the functions that
change them.

The cells are typed as Qt has them: `TableModel` takes the type of a column
from its first row, and the signals that bring new values declare the types
of their parameters, so Progress holds numbers and every other column
strings.  What the code does with a cell is still decided at run time, by
`typeof` or by an exception (`JsValue`).

That a column whose first value is 0.0 keeps every number it is given as it
is, is an assumption on Qt: nothing in the repository says so.

Two things the program takes from the JavaScript engine are parameters:
`toLowerCase`, of which nothing is assumed, and `Array.prototype.sort`
(`ArraySort`).  A handler that throws leaves the table as it was.
-/
import Mathlib.Data.List.Lex
import Mathlib.Algebra.Order.Ring.Rat
import SyncServiceUi.ArraySort
import SyncServiceUi.KeyOrder
import SyncServiceUi.Runs

namespace SyncServiceUi

open Runs KeyOrder

/-! ### JavaScript values -/

inductive JsError where
  | typeError
  deriving DecidableEq, Repr

/-- What a cell holds, seen from JavaScript. -/
inductive JsValue where
  | str (s : String)
  | num (q : ℚ)
  deriving DecidableEq, Repr

/-- Sequences of UTF-16 code units, which `<` on strings compares. -/
def CodeUnits : Type := List ℕ

instance : LinearOrder CodeUnits := inferInstanceAs (LinearOrder (List ℕ))

/-- The code units of a character. -/
def utf16Char (c : Char) : List ℕ :=
  if c.toNat < 0x10000 then [c.toNat]
  else [0xD800 + (c.toNat - 0x10000) / 0x400, 0xDC00 + (c.toNat - 0x10000) % 0x400]

/-- The code units of a string. -/
def utf16 (s : String) : CodeUnits :=
  s.toList.flatMap utf16Char

/-- `<` on two values of one type.  A string and a number are never
compared: both sides of every comparison come from the same column. -/
def JsValue.lt : JsValue → JsValue → Bool
  | .str a, .str b => utf16 a < utf16 b
  | .num a, .num b => a < b
  | _, _ => false

/-! ### Rows and columns -/

inductive Column where
  | name
  | source
  | destination
  | type
  | direction
  | progress
  | status
  deriving DecidableEq, Repr

/-- The columns Name, Source, Destination, Type and Direction. -/
def Column.isText : Column → Bool
  | .progress => false
  | .status => false
  | _ => true

/-- What the service says of a module. -/
structure ModuleEntry where
  name : String
  source : String
  destination : String
  type : String
  direction : String
  deriving DecidableEq, Repr

structure Row extends ModuleEntry where
  progress : ℚ
  status : String
  deriving DecidableEq, Repr

/-- `row[tableView.model.columns[column].display]`. -/
def Row.get (row : Row) : Column → JsValue
  | .name => .str row.name
  | .source => .str row.source
  | .destination => .str row.destination
  | .type => .str row.type
  | .direction => .str row.direction
  | .progress => .num row.progress
  | .status => .str row.status

/-- The row `addModule` makes. -/
def ModuleEntry.row (m : ModuleEntry) : Row :=
  { m with status := "active", progress := 0 }

structure SyncTable where
  rows : List Row
  sortedColumnIndex : Column
  sortedAscending : Bool
  deriving DecidableEq, Repr

section Handlers

variable (sorter : ArraySort JsError Row) (lower : String → String)

/-- `value.toLowerCase()`. -/
def JsValue.toLowerCase : JsValue → Except JsError String
  | .str s => return lower s
  | .num _ => throw .typeError

/-! ### Sorting -/

/-- The values a comparator compares; only `valueA` is tested for its type. -/
def comparedValues (valueA valueB : JsValue) : Except JsError (JsValue × JsValue) :=
  match valueA with
  | .str _ => do
      let valueA ← valueA.toLowerCase lower
      let valueB ← valueB.toLowerCase lower
      return (.str valueA, .str valueB)
  | .num _ => return (valueA, valueB)

/-- The comparator of `sortAsc`. -/
def compareAsc (column : Column) (a b : Row) : Except JsError ℤ := do
  let (valueA, valueB) ← comparedValues lower (a.get column) (b.get column)
  return if valueB.lt valueA then 1 else if valueA.lt valueB then -1 else 0

/-- The comparator of `sortDesc`. -/
def compareDesc (column : Column) (a b : Row) : Except JsError ℤ := do
  let (valueA, valueB) ← comparedValues lower (a.get column) (b.get column)
  return if valueA.lt valueB then 1 else if valueB.lt valueA then -1 else 0

namespace SyncTable

def sortAsc (t : SyncTable) (column : Column) : Except JsError SyncTable := do
  let rows ← sorter.sort (compareAsc lower column) t.rows
  return { rows, sortedColumnIndex := column, sortedAscending := true }

def sortDesc (t : SyncTable) (column : Column) : Except JsError SyncTable := do
  let rows ← sorter.sort (compareDesc lower column) t.rows
  return { rows, sortedColumnIndex := column, sortedAscending := false }

/-- A click on a header. -/
def reverseSort (t : SyncTable) (column : Column) : Except JsError SyncTable :=
  -- the first click on a column sorts descending
  if t.sortedColumnIndex ≠ column then t.sortDesc sorter lower column
  else if !t.sortedAscending then t.sortAsc sorter lower column
  else t.sortDesc sorter lower column

/-- `Component.onCompleted`. -/
def onCompleted (t : SyncTable) : Except JsError SyncTable := do
  let compare := if t.sortedAscending then compareAsc lower .name else compareDesc lower .name
  let rows ← sorter.sort compare t.rows
  return { t with rows, sortedColumnIndex := .name }

/-! ### Changes from the service -/

/-- Names are compared ignoring case. -/
def isNamed (name : String) (row : Row) : Bool :=
  lower row.name == lower name

/-- `getRowIndexByName`, with `none` for -1. -/
def getRowIndexByName (rows : List Row) (name : String) : Option ℕ :=
  rows.findIdx? (isNamed lower name)

/-- `setData` at a row; it does nothing at the index -1. -/
def setData (t : SyncTable) (index : Option ℕ) (write : Row → Row) : SyncTable :=
  match index with
  | none => t
  | some ix => { t with rows := t.rows.modify ix write }

def modify_progress (t : SyncTable) (name : String) (val : ℚ) : SyncTable :=
  t.setData (getRowIndexByName lower t.rows name) fun row => { row with progress := val }

def modify_status (t : SyncTable) (name status : String) : SyncTable :=
  t.setData (getRowIndexByName lower t.rows name) fun row => { row with status := status }

theorem length_eraseIdx_lt {rows : List Row} {name : String} {index : ℕ}
    (h : getRowIndexByName lower rows name = some index) :
    (rows.eraseIdx index).length < rows.length := by
  obtain ⟨hlt, -⟩ := List.findIdx?_eq_some_iff_getElem.mp h
  rw [List.length_eraseIdx_of_lt hlt]
  exact Nat.sub_lt (Nat.zero_lt_of_lt hlt) Nat.one_pos

/-- `deleteModule`, which removes a row and emits `moduleDeleted`, whose
handler is `deleteModule` again: the rows left, and how often it was emitted. -/
def deleteModule (name : String) (rows : List Row) : List Row × ℕ :=
  match h : getRowIndexByName lower rows name with
  | none => (rows, 0)
  | some index =>
      -- `moduleDeleted(name)` runs the handler before it returns
      let rest := deleteModule name (rows.eraseIdx index)
      (rest.1, rest.2 + 1)
termination_by rows.length
decreasing_by exact length_eraseIdx_lt lower h

def onModuleDeleted (t : SyncTable) (name : String) : SyncTable :=
  { t with rows := (deleteModule lower name t.rows).1 }

/-- The loop of `addModule`, from row `k` on: it leaves `indexAfter` at the
last row that does not make it break. -/
def indexAfterLoop (breaks : Row → Except JsError Bool) : List Row → ℤ → ℤ → Except JsError ℤ
  | [], _, indexAfter => return indexAfter
  | row :: rows, k, indexAfter => do
      if ← breaks row then return indexAfter
      indexAfterLoop breaks rows (k + 1) k

/-- `newArray.splice(at, 0, module)`. -/
def splice (rows : List Row) (at_ : ℕ) (module : Row) : List Row :=
  rows.take at_ ++ module :: rows.drop at_

/-- Whether a loop of `addModule` breaks at a row.  Unlike the comparators,
it does not look at the type of the cells. -/
def breaks (t : SyncTable) (module row : Row) : Except JsError Bool := do
  let col_value ← (module.get t.sortedColumnIndex).toLowerCase lower
  let row_value ← (row.get t.sortedColumnIndex).toLowerCase lower
  return if t.sortedAscending then utf16 col_value < utf16 row_value
    else utf16 col_value ≥ utf16 row_value

def addModule (t : SyncTable) (m : ModuleEntry) : Except JsError SyncTable := do
  let module := m.row
  let indexAfter ← indexAfterLoop (t.breaks lower module) t.rows 0 (-1)
  return { t with rows := splice t.rows (indexAfter + 1).toNat module }

end SyncTable

/-- What the service can say about the modules. -/
inductive Message where
  | add (m : ModuleEntry)
  | delete (name : String)
  | progress (name : String) (val : ℚ)
  | status (name status : String)
  deriving DecidableEq, Repr

inductive TableEvent where
  | reverseSort (column : Column)
  | receive (msg : Message)
  deriving DecidableEq, Repr

namespace SyncTable

/-- A handler that throws leaves the table as it was. -/
def settle (t : SyncTable) : Except JsError SyncTable → SyncTable
  | .ok t' => t'
  | .error _ => t

/-- The table after a message. -/
def receive (t : SyncTable) : Message → SyncTable
  | .add m => t.settle (t.addModule lower m)
  | .delete name => t.onModuleDeleted lower name
  | .progress name val => t.modify_progress lower name val
  | .status name status => t.modify_status lower name status

/-- The table after an event. -/
def handle (t : SyncTable) : TableEvent → SyncTable
  | .reverseSort column => t.settle (t.reverseSort sorter lower column)
  | .receive msg => t.receive lower msg

/-- The rows the table is declared with. -/
def declaredRows : List Row :=
  [ ⟨⟨"Module7", "/local/path/source7", "/local/path/dest7", "local", "one-way"⟩, 0, "active"⟩,
    ⟨⟨"Module8", "/cloud/storage/source8", "/cloud/storage/dest8", "cloud", "two-way"⟩, 0,
      "active"⟩,
    ⟨⟨"Module9", "/local/path/source9", "/local/path/dest9", "local", "one-way"⟩, 0, "active"⟩,
    ⟨⟨"Module10", "/cloud/storage/source10", "/cloud/storage/dest10", "cloud", "two-way"⟩, 0,
      "active"⟩,
    ⟨⟨"Module11", "/local/path/source11", "/local/path/dest11", "local", "one-way"⟩, 0,
      "active"⟩,
    ⟨⟨"Module12", "/cloud/storage/source12", "/cloud/storage/dest12", "cloud", "two-way"⟩, 0,
      "active"⟩ ]

/-- The table as it is declared. -/
def declared : SyncTable := ⟨declaredRows, .name, true⟩

/-- The table after `Component.onCompleted`. -/
def start : SyncTable := declared.settle (declared.onCompleted sorter lower)

end SyncTable

end Handlers

end SyncServiceUi
