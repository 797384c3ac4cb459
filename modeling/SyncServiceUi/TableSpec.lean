/-
SyncServiceUi/TableSpec.lean

What the functions of the table do to its rows: the comparators compare by a
key, `addModule` is an ordered insertion, `deleteModule` drops rows, and a
modification changes the first row of a name.
-/
import SyncServiceUi.SyncTable

namespace SyncServiceUi

open KeyOrder ArraySort

variable (sorter : ArraySort JsError Row) (lower : String → String)

/-! ### Keys -/

/-- The cell of a column of strings. -/
def Row.text (row : Row) : Column → String
  | .name => row.name
  | .source => row.source
  | .destination => row.destination
  | .type => row.type
  | .direction => row.direction
  | .progress => ""
  | .status => row.status

theorem Row.get_of_ne {column : Column} (h : column ≠ .progress) (row : Row) :
    row.get column = .str (row.text column) := by
  cases column with
  | progress => exact absurd rfl h
  | _ => rfl

/-- What the rows are compared by: the lower-cased cell. -/
def Row.key (column : Column) (row : Row) : CodeUnits :=
  utf16 (lower (row.text column))

/-- A character is read off its code units: surrogates are no characters. -/
theorem utf16Char_append_inj {c d : Char} {s s' : List ℕ}
    (h : utf16Char c ++ s = utf16Char d ++ s') : c = d ∧ s = s' := by
  have hc : c.toNat.isValidChar := c.valid
  have hd : d.toNat.isValidChar := d.valid
  unfold utf16Char at h
  rw [← Char.toNat_inj]
  split at h <;> split at h <;>
    simp only [List.cons_append, List.nil_append, List.cons.injEq] at h <;> grind

theorem utf16Char_ne_nil (c : Char) : utf16Char c ≠ [] := by
  unfold utf16Char
  split <;> simp

/-- Different strings have different code units. -/
theorem utf16_injective : Function.Injective utf16 := by
  have hlists : ∀ l l' : List Char, l.flatMap utf16Char = l'.flatMap utf16Char → l = l' := by
    intro l
    induction l with
    | nil =>
        rintro (- | ⟨d, l'⟩) h
        · rfl
        · simp [utf16Char_ne_nil] at h
    | cons c l ih =>
        rintro (- | ⟨d, l'⟩) h
        · simp [utf16Char_ne_nil] at h
        · obtain ⟨rfl, htail⟩ := utf16Char_append_inj h
          rw [ih l' htail]
  intro s s' h
  exact String.toList_inj.mp (hlists _ _ h)

/-! ### Sorting -/

/-- The comparator of a direction. -/
def compareIn (ascending : Bool) (column : Column) : Row → Row → Except JsError ℤ :=
  if ascending then compareAsc lower column else compareDesc lower column

theorem compareIn_eq (ascending : Bool) {column : Column} (h : column ≠ .progress) :
    compareIn lower ascending column =
      fun a b => .ok (byKey ascending (Row.key lower column) a b) := by
  funext a b
  cases ascending <;>
    simp [compareIn, compareAsc, compareDesc, Row.get_of_ne h, comparedValues,
      JsValue.toLowerCase, JsValue.lt, byKey, Row.key, bind, Except.bind, pure, Except.pure] <;>
    congr

theorem compareIn_progress (ascending : Bool) :
    compareIn lower ascending .progress = fun a b => .ok (byKey ascending Row.progress a b) := by
  funext a b
  cases ascending <;>
    simp [compareIn, compareAsc, compareDesc, Row.get, comparedValues, JsValue.lt, byKey,
      bind, Except.bind, pure, Except.pure]

/-- In every column rows are compared by a key. -/
theorem exists_sortKey (column : Column) :
    ∃ (κ : Type) (_ : LinearOrder κ) (key : Row → κ), ∀ ascending,
      compareIn lower ascending column = fun a b => .ok (byKey ascending key a b) := by
  by_cases h : column = .progress
  · subst h
    exact ⟨ℚ, inferInstance, Row.progress, fun ascending => compareIn_progress lower ascending⟩
  · exact ⟨CodeUnits, inferInstance, Row.key lower column,
      fun ascending => compareIn_eq lower ascending h⟩

/-- No comparator throws. -/
theorem exists_compareIn (ascending : Bool) (column : Column) :
    ∃ f : Row → Row → ℤ, compareIn lower ascending column = fun a b => .ok (f a b) := by
  obtain ⟨κ, _, key, hkey⟩ := exists_sortKey lower column
  exact ⟨byKey ascending key, hkey ascending⟩

/-- Rows in the order of a column. -/
def OrderedBy (column : Column) (ascending : Bool) (rows : List Row) : Prop :=
  rows.Pairwise fun a b => InOrder ascending (a.key lower column) (b.key lower column)

theorem exists_sort (ascending : Bool) (column : Column) (rows : List Row) :
    ∃ sorted, sorter.sort (compareIn lower ascending column) rows = .ok sorted ∧
      sorted.Perm rows ∧ (column ≠ .progress → OrderedBy lower column ascending sorted) := by
  obtain ⟨f, hf⟩ := exists_compareIn lower ascending column
  obtain ⟨sorted, hsort, hperm, hordered⟩ := sorter.spec f rows
  rw [← hf] at hsort
  refine ⟨sorted, hsort, hperm, ?_⟩
  intro h
  have hkey : f = byKey ascending (Row.key lower column) := by
    funext a b
    have hok : compareIn lower ascending column a b =
        .ok (byKey ascending (Row.key lower column) a b) :=
      congrFun₂ (compareIn_eq lower ascending h) a b
    rw [hf] at hok
    exact Except.ok.inj hok
  subst hkey
  have hpairs := hordered (consistent_byKey ascending (Row.key lower column))
  exact hpairs.imp byKey_nonpos_iff.mp

namespace SyncTable

theorem ne_progress {column : Column} (h : column.isText = true) : column ≠ .progress := by
  rintro rfl
  cases h

/-- The direction after a click on the header of a column. -/
def nextDirection (t : SyncTable) (column : Column) : Bool :=
  t.sortedColumnIndex = column && !t.sortedAscending

/-- A click on a header sorts by its column, in the other direction if it was
the sorted one and else descending. -/
theorem reverseSort_eq {t : SyncTable} {column : Column} {rows : List Row}
    (h : sorter.sort (compareIn lower (t.nextDirection column) column) t.rows = .ok rows) :
    t.reverseSort sorter lower column = .ok ⟨rows, column, t.nextDirection column⟩ := by
  have hdesc : t.nextDirection column = false →
      t.sortDesc sorter lower column = .ok ⟨rows, column, t.nextDirection column⟩ := by
    intro hnext
    have hrows : sorter.sort (compareDesc lower column) t.rows = .ok rows := by
      simpa [compareIn, hnext] using h
    simp [sortDesc, hrows, hnext, bind, Except.bind, pure, Except.pure]
  unfold reverseSort
  split
  next hother => exact hdesc (by simp [nextDirection, hother])
  next hsame =>
    split
    next hdescending =>
      have hnext : t.nextDirection column = true := by
        simp [nextDirection, not_not.mp hsame, hdescending]
      have hrows : sorter.sort (compareAsc lower column) t.rows = .ok rows := by
        simpa [compareIn, hnext] using h
      simp [sortAsc, hrows, hnext, bind, Except.bind, pure, Except.pure]
    next hascending => exact hdesc (by simp [nextDirection, hascending])

theorem reverseSort_spec (t : SyncTable) (column : Column) :
    ∃ rows ascending, t.reverseSort sorter lower column = .ok ⟨rows, column, ascending⟩ ∧
      rows.Perm t.rows ∧ (column ≠ .progress → OrderedBy lower column ascending rows) := by
  obtain ⟨rows, hrows, hspec⟩ := exists_sort sorter lower (t.nextDirection column) column t.rows
  exact ⟨rows, t.nextDirection column, reverseSort_eq sorter lower hrows, hspec⟩

theorem onCompleted_spec (t : SyncTable) :
    ∃ rows, t.onCompleted sorter lower = .ok ⟨rows, .name, t.sortedAscending⟩ ∧
      rows.Perm t.rows ∧ OrderedBy lower .name t.sortedAscending rows := by
  obtain ⟨rows, hrows, hperm, hordered⟩ := exists_sort sorter lower t.sortedAscending .name t.rows
  refine ⟨rows, ?_, hperm, hordered (by decide)⟩
  unfold compareIn at hrows
  simp [onCompleted, hrows, bind, Except.bind, pure, Except.pure]

/-! ### Insertion -/

/-- The loop counts the rows up to the one it breaks at. -/
theorem indexAfterLoop_ok (p : Row → Bool) (rows : List Row) {k indexAfter : ℤ}
    (h : indexAfter + 1 = k) :
    indexAfterLoop (fun row => .ok (p row)) rows k indexAfter =
      .ok (indexAfter + (rows.findIdx p : ℕ)) := by
  induction rows generalizing k indexAfter with
  | nil => simp [indexAfterLoop, pure, Except.pure]
  | cons row rows ih =>
      rcases hp : p row with - | -
      · have hloop : indexAfterLoop (fun row => .ok (p row)) rows (k + 1) k =
            .ok (k + (rows.findIdx p : ℕ)) := ih rfl
        simp [indexAfterLoop, hp, hloop, List.findIdx_cons, bind, Except.bind]
        omega
      · simp [indexAfterLoop, hp, List.findIdx_cons, bind, Except.bind, pure, Except.pure]

theorem breaks_eq {t : SyncTable} (h : t.sortedColumnIndex ≠ .progress) (module row : Row) :
    t.breaks lower module row = .ok (decide (Precedes t.sortedAscending
      (module.key lower t.sortedColumnIndex) (row.key lower t.sortedColumnIndex))) := by
  rcases hasc : t.sortedAscending with - | - <;>
    simp [breaks, Row.get_of_ne h, JsValue.toLowerCase, hasc, Precedes, Row.key,
      bind, Except.bind, pure, Except.pure]

/-- In a column of strings, the new row goes in at its place. -/
theorem addModule_eq {t : SyncTable} (m : ModuleEntry) (h : t.sortedColumnIndex ≠ .progress) :
    t.addModule lower m = .ok { t with
      rows := t.rows.orderedInsert
        (fun a b => Precedes t.sortedAscending (a.key lower t.sortedColumnIndex)
          (b.key lower t.sortedColumnIndex)) m.row } := by
  have hbreaks := funext (breaks_eq lower h m.row)
  have hloop := indexAfterLoop_ok (fun row => decide (Precedes t.sortedAscending
    (m.row.key lower t.sortedColumnIndex) (row.key lower t.sortedColumnIndex))) t.rows
    (show (-1 : ℤ) + 1 = 0 from rfl)
  rw [← take_findIdx_append]
  simp [addModule, hbreaks, hloop, splice, bind, Except.bind, pure, Except.pure]

/-- An empty table has nothing to compare with. -/
theorem addModule_nil {t : SyncTable} (m : ModuleEntry) (h : t.rows = []) :
    t.addModule lower m = .ok { t with rows := [m.row] } := by
  simp [addModule, h, indexAfterLoop, splice, bind, Except.bind, pure, Except.pure]

/-- A number has no `toLowerCase`. -/
theorem addModule_progress {t : SyncTable} (m : ModuleEntry)
    (h : t.sortedColumnIndex = .progress) (hrows : t.rows ≠ []) :
    t.addModule lower m = .error .typeError := by
  obtain ⟨row, rows, hrow⟩ := List.exists_cons_of_ne_nil hrows
  simp [addModule, hrow, indexAfterLoop, breaks, h, Row.get, JsValue.toLowerCase,
    bind, Except.bind, throw, throwThe, MonadExceptOf.throw]

/-! ### Deletion and modification -/

theorem deleteModule_none {rows : List Row} {name : String}
    (h : getRowIndexByName lower rows name = none) :
    deleteModule lower name rows = (rows, 0) := by
  rw [deleteModule]
  split
  · rfl
  · next h' => rw [h] at h'; cases h'

theorem deleteModule_some {rows : List Row} {name : String} {index : ℕ}
    (h : getRowIndexByName lower rows name = some index) :
    deleteModule lower name rows =
      ((deleteModule lower name (rows.eraseIdx index)).1,
        (deleteModule lower name (rows.eraseIdx index)).2 + 1) := by
  rw [deleteModule]
  split
  · next h' => rw [h] at h'; cases h'
  · next h' => rw [h] at h'; cases h'; rfl

/-- `deleteModule` leaves the rows of other names, in their order. -/
theorem deleteModule_rows (name : String) (rows : List Row) :
    (deleteModule lower name rows).1 = rows.filter fun row => !isNamed lower name row := by
  induction rows using deleteModule.induct lower name with
  | case1 rows h =>
      have hnone : ∀ row ∈ rows, isNamed lower name row = false := by
        simpa [getRowIndexByName] using h
      have hkept : (rows.filter fun row => !isNamed lower name row) = rows :=
        List.filter_eq_self.mpr (by simpa using hnone)
      rw [deleteModule_none lower h, hkept]
  | case2 rows index h ih =>
      -- the row removed first is one that the filter drops
      obtain ⟨hlt, hnamed, -⟩ := List.findIdx?_eq_some_iff_getElem.mp h
      have hdropped : (!isNamed lower name rows[index]) = false := by simp [hnamed]
      rw [deleteModule_some lower h, ih]
      exact filter_eraseIdx hlt hdropped

/-- It emits `moduleDeleted` once for each row it removes. -/
theorem deleteModule_emitted (name : String) (rows : List Row) :
    (deleteModule lower name rows).2 + (deleteModule lower name rows).1.length = rows.length := by
  induction rows using deleteModule.induct lower name with
  | case1 rows h => rw [deleteModule_none lower h, Nat.zero_add]
  | case2 rows index h ih =>
      have hlength : (rows.eraseIdx index).length + 1 = rows.length := by
        obtain ⟨hlt, -⟩ := List.findIdx?_eq_some_iff_getElem.mp h
        rw [List.length_eraseIdx_of_lt hlt]
        omega
      rw [deleteModule_some lower h]
      dsimp only
      omega

/-- `setData` at the row of a name. -/
theorem setData_getRowIndexByName (t : SyncTable) (name : String) (write : Row → Row) :
    t.setData (getRowIndexByName lower t.rows name) write =
      { t with rows := modifyFirst (isNamed lower name) write t.rows } := by
  rw [modifyFirst_eq_findIdx?]
  unfold setData getRowIndexByName
  -- the row is looked up first in both
  cases t.rows.findIdx? (isNamed lower name) <;> rfl

/-! ### Messages -/

theorem receive_add {t : SyncTable} (m : ModuleEntry) (h : t.sortedColumnIndex ≠ .progress) :
    t.receive lower (.add m) = { t with
      rows := t.rows.orderedInsert
        (fun a b => Precedes t.sortedAscending (a.key lower t.sortedColumnIndex)
          (b.key lower t.sortedColumnIndex)) m.row } := by
  show t.settle (t.addModule lower m) = _
  rw [addModule_eq lower m h]
  rfl

/-- Without regard to its place, an added module is one row more. -/
theorem exists_receive_add {t : SyncTable} (m : ModuleEntry)
    (h : t.sortedColumnIndex ≠ .progress) :
    ∃ rows, t.receive lower (.add m) = { t with rows } ∧ rows.Perm (m.row :: t.rows) :=
  ⟨_, receive_add lower m h, List.perm_orderedInsert _ m.row t.rows⟩

theorem receive_add_nil {t : SyncTable} (m : ModuleEntry) (h : t.rows = []) :
    t.receive lower (.add m) = { t with rows := [m.row] } := by
  show t.settle (t.addModule lower m) = _
  rw [addModule_nil lower m h]
  rfl

/-- Sorted by Progress, a table with rows loses every module that is added. -/
theorem receive_add_progress {t : SyncTable} (m : ModuleEntry)
    (h : t.sortedColumnIndex = .progress) (hrows : t.rows ≠ []) :
    t.receive lower (.add m) = t := by
  show t.settle (t.addModule lower m) = t
  rw [addModule_progress lower m h hrows]
  rfl

theorem receive_delete (t : SyncTable) (name : String) :
    t.receive lower (.delete name) =
      { t with rows := t.rows.filter fun row => !isNamed lower name row } := by
  show ({ t with rows := (deleteModule lower name t.rows).1 } : SyncTable) = _
  rw [deleteModule_rows]

/-- The two messages that change a cell. -/
theorem receive_progress (t : SyncTable) (name : String) (val : ℚ) :
    t.receive lower (.progress name val) = { t with
      rows := modifyFirst (isNamed lower name) (fun row => { row with progress := val }) t.rows } :=
  setData_getRowIndexByName lower t name _

/-- The same progress again changes nothing. -/
theorem receive_progress_receive_progress (t : SyncTable) (name : String) (val : ℚ) :
    (t.receive lower (.progress name val)).receive lower (.progress name val) =
      t.receive lower (.progress name val) := by
  have hnamed : ∀ row : Row, isNamed lower name { row with progress := val } =
      isNamed lower name row := by
    intro row
    rfl
  simp only [receive_progress]
  rw [modifyFirst_modifyFirst hnamed fun _ => rfl]

theorem receive_status (t : SyncTable) (name status : String) :
    t.receive lower (.status name status) = { t with
      rows := modifyFirst (isNamed lower name) (fun row => { row with status := status }) t.rows } :=
  setData_getRowIndexByName lower t name _

/-- Messages leave the column and the direction alone. -/
theorem receive_sortedBy (t : SyncTable) (msg : Message) :
    (t.receive lower msg).sortedColumnIndex = t.sortedColumnIndex ∧
      (t.receive lower msg).sortedAscending = t.sortedAscending := by
  cases msg with
  | add m =>
      by_cases hcol : t.sortedColumnIndex = .progress
      · by_cases hrows : t.rows = []
        · rw [receive_add_nil lower m hrows]
          exact ⟨rfl, rfl⟩
        · rw [receive_add_progress lower m hcol hrows]
          exact ⟨rfl, rfl⟩
      · rw [receive_add lower m hcol]
        exact ⟨rfl, rfl⟩
  | delete name => exact ⟨rfl, rfl⟩
  | progress name val => rw [receive_progress]; exact ⟨rfl, rfl⟩
  | status name status => rw [receive_status]; exact ⟨rfl, rfl⟩

end SyncTable

end SyncServiceUi
