/-
SyncServiceUi/TableCommute.lean

Messages about different modules commute.

On a table sorted by a text column every message is one of three operations
on the rows: put one in at its place, drop those of a name, write a cell of
the first of a name.  Two of them about different names commute
(`RowOp.apply_comm`), unless both put in a row and the rows tie in the sort
column.  So the order in which the service reports on different modules does
not matter (`run_receive_eq`).
-/
import SyncServiceUi.TableRuns
import SyncServiceUi.TraceCommute

namespace SyncServiceUi

open Runs KeyOrder TraceCommute SyncTable

variable (lower : String → String) (column : Column) (ascending : Bool)

/-! ### Operations on the rows -/

inductive RowOp where
  | insert (row : Row)
  | drop (name : String)
  | write (name : String) (f : Row → Row)

namespace RowOp

/-- The name an operation is about. -/
def name : RowOp → String
  | insert row => row.name
  | drop name => name
  | write name _ => name

def apply : RowOp → List Row → List Row
  | insert row, rows =>
      rows.orderedInsert
        (fun a b => Precedes ascending (a.key lower column) (b.key lower column)) row
  | drop name, rows => rows.filter fun row => !isNamed lower name row
  | write name f, rows => modifyFirst (isNamed lower name) f rows

/-- What is written is neither the name nor the sort column. -/
def Regular : RowOp → Prop
  | write _ f => ∀ row, (f row).name = row.name ∧ (f row).key lower column = row.key lower column
  | _ => True

/-- The rows that two operations put in do not tie. -/
def Untied : RowOp → RowOp → Prop
  | insert row, insert row' => row.key lower column ≠ row'.key lower column
  | _, _ => True

variable {lower column ascending}

theorem Untied.symm {a b : RowOp} (h : a.Untied lower column b) : b.Untied lower column a := by
  cases a with
  | insert row =>
      cases b with
      | insert row' =>
          intro hkey
          exact h hkey.symm
      | _ => trivial
  | _ => cases b <;> trivial

theorem isNamed_eq_false_iff {name : String} {row : Row} :
    isNamed lower name row = false ↔ lower row.name ≠ lower name := by
  simp [isNamed]

theorem isNamed_of_ne {name name' : String} (h : lower name ≠ lower name') {row : Row}
    (hrow : isNamed lower name row = true) : isNamed lower name' row = false := by
  have hname : lower row.name = lower name := by simpa [isNamed] using hrow
  rw [isNamed_eq_false_iff, hname]
  exact h

theorem isNamed_write {f : Row → Row} (h : ∀ row, (f row).name = row.name) (name : String)
    (row : Row) : isNamed lower name (f row) = isNamed lower name row := by
  show (lower (f row).name == lower name) = (lower row.name == lower name)
  rw [h]

variable {rows : List Row}

theorem insert_insert {row row' : Row} (h : row.key lower column ≠ row'.key lower column) :
    (insert row').apply lower column ascending ((insert row).apply lower column ascending rows) =
      (insert row).apply lower column ascending
        ((insert row').apply lower column ascending rows) := by
  have hrule := rule_of_key (Row.key lower column) ascending
  rcases precedes_or_precedes h ascending with ⟨hlt, hnot⟩ | ⟨hlt, hnot⟩
  · exact (hrule.orderedInsert_comm hlt hnot rows).symm
  · exact hrule.orderedInsert_comm hlt hnot rows

theorem drop_insert {row : Row} {name : String} (h : lower row.name ≠ lower name)
    (hrows : OrderedBy lower column ascending rows) :
    (drop name).apply lower column ascending ((insert row).apply lower column ascending rows) =
      (insert row).apply lower column ascending
        ((drop name).apply lower column ascending rows) := by
  have hrule := rule_of_key (Row.key lower column) ascending
  have hkept : (!isNamed lower name row) = true := by
    rw [isNamed_eq_false_iff.mpr h, Bool.not_false]
  exact hrule.filter_orderedInsert _ hkept hrows

theorem write_insert {row : Row} {name : String} {f : Row → Row} (h : lower row.name ≠ lower name)
    (hf : (write name f).Regular lower column) :
    (write name f).apply lower column ascending ((insert row).apply lower column ascending rows) =
      (insert row).apply lower column ascending
        ((write name f).apply lower column ascending rows) := by
  have hother : isNamed lower name row = false := isNamed_eq_false_iff.mpr h
  apply modifyFirst_orderedInsert hother
  intro b
  have hkey : (f b).key lower column = b.key lower column := (hf b).2
  rw [hkey]

theorem drop_write {name name' : String} {f : Row → Row} (h : lower name ≠ lower name')
    (hf : (write name f).Regular lower column) :
    (drop name').apply lower column ascending
        ((write name f).apply lower column ascending rows) =
      (write name f).apply lower column ascending
        ((drop name').apply lower column ascending rows) := by
  apply filter_modifyFirst
  intro row hrow
  have hother : isNamed lower name' row = false := isNamed_of_ne h hrow
  have hname : ∀ row, (f row).name = row.name := fun row => (hf row).1
  rw [isNamed_write hname, hother]
  exact ⟨rfl, rfl⟩

theorem drop_drop {name name' : String} :
    (drop name').apply lower column ascending ((drop name).apply lower column ascending rows) =
      (drop name).apply lower column ascending
        ((drop name').apply lower column ascending rows) := by
  simp only [apply, List.filter_filter, Bool.and_comm]

theorem write_write {name name' : String} {f g : Row → Row} (h : lower name ≠ lower name')
    (hf : (write name f).Regular lower column) (hg : (write name' g).Regular lower column) :
    (write name' g).apply lower column ascending
        ((write name f).apply lower column ascending rows) =
      (write name f).apply lower column ascending
        ((write name' g).apply lower column ascending rows) := by
  have hfname : ∀ row, (f row).name = row.name := fun row => (hf row).1
  have hgname : ∀ row, (g row).name = row.name := fun row => (hg row).1
  apply modifyFirst_comm
  · intro row hrow
    exact isNamed_of_ne h.symm hrow
  · exact isNamed_write hfname name'
  · exact isNamed_write hgname name

/-- Operations about different names commute unless they put in rows that tie. -/
theorem apply_comm {a b : RowOp} (hname : lower a.name ≠ lower b.name)
    (ha : a.Regular lower column) (hb : b.Regular lower column)
    (htie : a.Untied lower column b) (hrows : OrderedBy lower column ascending rows) :
    b.apply lower column ascending (a.apply lower column ascending rows) =
      a.apply lower column ascending (b.apply lower column ascending rows) := by
  cases a with
  | insert row =>
      cases b with
      | insert row' => exact insert_insert htie
      | drop name => exact drop_insert hname hrows
      | write name f => exact write_insert hname hb
  | drop name =>
      cases b with
      | insert row => exact (drop_insert hname.symm hrows).symm
      | drop name' => exact drop_drop
      | write name' f => exact (drop_write hname.symm hb).symm
  | write name f =>
      cases b with
      | insert row => exact (write_insert hname.symm ha).symm
      | drop name' => exact drop_write hname ha
      | write name' g => exact write_write hname ha hb

end RowOp

/-! ### Messages -/

namespace Message

/-- The name a message is about. -/
def name : Message → String
  | .add m => m.name
  | .delete name => name
  | .progress name _ => name
  | .status name _ => name

/-- The module a message adds. -/
def added : Message → Option ModuleEntry
  | .add m => some m
  | _ => none

/-- What a message does to the rows of a table sorted by a text column. -/
def rowOp : Message → RowOp
  | .add m => .insert m.row
  | .delete name => .drop name
  | .progress name val => .write name fun row => { row with progress := val }
  | .status name val => .write name fun row => { row with status := val }

theorem name_rowOp (msg : Message) : msg.rowOp.name = msg.name := by
  cases msg <;> rfl

theorem regular_rowOp (htext : column.isText = true) (msg : Message) :
    msg.rowOp.Regular lower column := by
  cases msg with
  | progress name val => exact fun row => ⟨rfl, key_with_progress lower column row val⟩
  | status name val => exact fun row => ⟨rfl, key_with_status lower htext row val⟩
  | _ => trivial

end Message

namespace SyncTable

variable {column ascending}

theorem receive_mk (htext : column.isText = true) (rows : List Row) (msg : Message) :
    receive lower ⟨rows, column, ascending⟩ msg =
      ⟨msg.rowOp.apply lower column ascending rows, column, ascending⟩ := by
  cases msg with
  | add m => exact receive_add lower m (ne_progress htext)
  | delete name => exact receive_delete lower _ name
  | progress name val => exact receive_progress lower _ name val
  | status name val => exact receive_status lower _ name val

variable (column)

/-- Tables in the order of a text column. -/
def InOrderOf (t : SyncTable) : Prop :=
  t.sortedColumnIndex = column ∧ t.Sorted lower

/-- Messages commute on tables in the order of a text column. -/
theorem commutes_receive (htext : column.isText = true) :
    Commutes (receive lower) (InOrderOf lower column) (fun msg => lower msg.name)
      fun a b => a.rowOp.Untied lower column b.rowOp := by
  refine ⟨?_, ?_, ?_⟩
  · intro t msg ht
    obtain ⟨rfl, hsorted⟩ := ht
    exact ⟨(receive_sortedBy lower t msg).1, sorted_receive lower hsorted msg⟩
  · intro a b h
    exact h.symm
  · rintro ⟨rows, _, ascending⟩ a b ⟨rfl, hsorted⟩ hname htie
    rw [← a.name_rowOp, ← b.name_rowOp] at hname
    have hcomm := RowOp.apply_comm hname (a.regular_rowOp lower _ htext)
      (b.regular_rowOp lower _ htext) htie (hsorted htext)
    simp only [receive_mk lower htext, hcomm]

/-- Messages that add modules with different cells in the sort column. -/
theorem pairwise_untied {msgs : List Message}
    (h : ((msgs.filterMap Message.added).map fun m => lower (m.row.text column)).Nodup) :
    msgs.Pairwise fun a b => a.rowOp.Untied lower column b.rowOp := by
  rw [List.Nodup, List.pairwise_map, List.pairwise_filterMap] at h
  apply h.imp
  intro a b hab
  -- only two additions can tie
  cases a with
  | add m =>
      cases b with
      | add m' =>
          intro hkey
          have hcell : lower (m.row.text column) = lower (m'.row.text column) :=
            utf16_injective hkey
          exact hab m rfl m' rfl hcell
      | _ => trivial
  | _ => cases b <;> trivial

/-- On a table sorted by a text column, two sequences of messages that say
the same of each module, in the same order, lead to the same table, if the
modules they add differ in the sort column. -/
theorem run_receive_eq {t : SyncTable} (htext : t.sortedColumnIndex.isText = true)
    (hordered : OrderedBy lower t.sortedColumnIndex t.sortedAscending t.rows)
    {msgs msgs' : List Message}
    (hnames : ∀ name, (msgs.filter fun msg => lower msg.name = name) =
      msgs'.filter fun msg => lower msg.name = name)
    (hadded : ((msgs.filterMap Message.added).map
      fun m => lower (m.row.text t.sortedColumnIndex)).Nodup) :
    run (receive lower) t msgs = run (receive lower) t msgs' := by
  have hcommutes := commutes_receive lower t.sortedColumnIndex htext
  have ht : InOrderOf lower t.sortedColumnIndex t := ⟨rfl, fun _ => hordered⟩
  have huntied := pairwise_untied lower t.sortedColumnIndex hadded
  exact hcommutes.run_eq_of_proj ht huntied hnames

/-- A module is added while another one makes progress. -/
theorem run_receive_eq_two_modules :
    run (receive String.toLower) ⟨[(⟨"a", "/a", "/b", "local", "one-way"⟩ : ModuleEntry).row],
        .name, true⟩
      [.add ⟨"b", "/c", "/d", "cloud", "two-way"⟩, .progress "A" (1 / 2)] =
    run (receive String.toLower) ⟨[(⟨"a", "/a", "/b", "local", "one-way"⟩ : ModuleEntry).row],
        .name, true⟩
      [.progress "A" (1 / 2), .add ⟨"b", "/c", "/d", "cloud", "two-way"⟩] := by
  refine run_receive_eq String.toLower rfl (by simp [OrderedBy]) (fun name => ?_)
    (List.nodup_singleton _)
  have hne : String.toLower "b" ≠ String.toLower "A" := by decide +kernel
  by_cases hb : String.toLower "b" = name
  · subst hb
    simp [Message.name, hne.symm]
  · simp [List.filter_cons, Message.name, hb]

end SyncTable

end SyncServiceUi
