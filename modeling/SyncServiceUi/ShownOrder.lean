/-
SyncServiceUi/ShownOrder.lean

The order the header arrow shows, for every column.

Rows are in the order shown when the comparator of the column and direction
would leave them as they are (`Shown`).  Two clicks on the header of the
sorted column sort one way and back; a stable sort keeps the rows of one key
as they are both times, so the same list comes back
(`reverseSort_reverseSort`).

`modify_progress` and `modify_status` write a cell and sort nothing.  Sorted
by that very column, the table stays in order iff the new value fits where
the row is, and so through a whole run (`shown_run_iff`).
-/
import SyncServiceUi.TableRuns

namespace SyncServiceUi

open Runs KeyOrder ArraySort

variable (sorter : ArraySort JsError Row) (lower : String → String)

/-! ### The order of a column -/

/-- The comparator of the direction does not put `b` in front of `a`. -/
def Row.InFront (ascending : Bool) (column : Column) (a b : Row) : Prop :=
  ∃ n, compareIn lower ascending column a b = .ok n ∧ n ≤ 0

instance (ascending : Bool) (column : Column) (a b : Row) :
    Decidable (Row.InFront lower ascending column a b) :=
  match h : compareIn lower ascending column a b with
  | .ok n => decidable_of_iff (n ≤ 0) (by simp [Row.InFront, h])
  | .error _ => .isFalse (by simp [Row.InFront, h])

theorem inFront_iff {κ : Type} [LinearOrder κ] {key : Row → κ} {ascending : Bool} {column : Column}
    (h : compareIn lower ascending column = fun a b => .ok (byKey ascending key a b)) :
    Row.InFront lower ascending column = fun a b => InOrder ascending (key a) (key b) := by
  funext a b
  simp [Row.InFront, h, ← byKey_nonpos_iff]

theorem inFront_trans {ascending : Bool} {column : Column} (a b c : Row)
    (hab : Row.InFront lower ascending column a b) (hbc : Row.InFront lower ascending column b c) :
    Row.InFront lower ascending column a c := by
  obtain ⟨κ, _, key, hkey⟩ := exists_sortKey lower column
  rw [inFront_iff lower (hkey ascending)] at hab hbc ⊢
  exact (rule_of_key key ascending).trans hab hbc

/-- Only the cells of the column are compared. -/
theorem inFront_congr {ascending : Bool} {column : Column} {a a' b b' : Row}
    (ha : a.get column = a'.get column) (hb : b.get column = b'.get column) :
    Row.InFront lower ascending column a b ↔ Row.InFront lower ascending column a' b' := by
  have hcompare : compareIn lower ascending column a b = compareIn lower ascending column a' b' := by
    cases ascending <;> simp [compareIn, compareAsc, compareDesc, ha, hb]
  rw [Row.InFront, Row.InFront, hcompare]

namespace SyncTable

/-- The rows are in the order shown. -/
def Shown (t : SyncTable) : Prop :=
  t.rows.Pairwise (Row.InFront lower t.sortedAscending t.sortedColumnIndex)

instance (t : SyncTable) : Decidable (t.Shown lower) :=
  inferInstanceAs (Decidable (List.Pairwise _ _))

theorem shown_iff_orderedBy {t : SyncTable} (h : t.sortedColumnIndex ≠ .progress) :
    t.Shown lower ↔ OrderedBy lower t.sortedColumnIndex t.sortedAscending t.rows := by
  rw [Shown, inFront_iff lower (compareIn_eq lower t.sortedAscending h)]
  rfl

/-! ### Clicks -/

/-- A click leaves the rows in the order shown. -/
theorem shown_reverseSort (t : SyncTable) (column : Column) :
    ∃ t', t.reverseSort sorter lower column = .ok t' ∧ t'.Shown lower := by
  obtain ⟨κ, _, key, hkey⟩ := exists_sortKey lower column
  obtain ⟨rows, hsort, -, hordered⟩ := sorter.spec (byKey (t.nextDirection column) key) t.rows
  rw [← hkey] at hsort
  refine ⟨_, reverseSort_eq sorter lower hsort, ?_⟩
  show rows.Pairwise (Row.InFront lower (t.nextDirection column) column)
  rw [inFront_iff lower (hkey _)]
  exact (hordered (consistent_byKey _ key)).imp byKey_nonpos_iff.mp

/-- Two clicks on the header of the sorted column give back the table, the
direction and every row where it was, provided the sort is stable. -/
theorem reverseSort_reverseSort (hstable : sorter.Stable) {t : SyncTable} (h : t.Shown lower) :
    ∃ t', t.reverseSort sorter lower t.sortedColumnIndex = .ok t' ∧
      t'.sortedAscending = !t.sortedAscending ∧
      t'.reverseSort sorter lower t.sortedColumnIndex = .ok t := by
  obtain ⟨κ, _, key, hkey⟩ := exists_sortKey lower t.sortedColumnIndex
  have hnext : t.nextDirection t.sortedColumnIndex = !t.sortedAscending := by
    simp [nextDirection]
  obtain ⟨middle, hsort, -, -⟩ := sorter.spec (byKey (!t.sortedAscending) key) t.rows
  obtain ⟨rows, hsort', -, hordered⟩ := sorter.spec (byKey t.sortedAscending key) middle
  -- both sorts keep the rows of every key as they are
  have hsame : ∀ row, (rows.filter fun row' => key row' = key row) =
      t.rows.filter fun row' => key row' = key row := by
    intro row
    have hone := hstable _ _ _ (consistent_byKey _ key) hsort row
    have htwo := hstable _ _ _ (consistent_byKey _ key) hsort' row
    simp only [byKey_eq_zero_iff] at hone htwo
    exact htwo.trans hone
  have hrows : rows = t.rows := by
    rw [Shown, inFront_iff lower (hkey _)] at h
    exact eq_of_pairwise_of_filter
      ((hordered (consistent_byKey _ key)).imp byKey_nonpos_iff.mp) h hsame
  rw [← hkey] at hsort hsort'
  rw [← hnext] at hsort
  refine ⟨_, reverseSort_eq sorter lower hsort, hnext, ?_⟩
  have hback : nextDirection ⟨middle, t.sortedColumnIndex, t.nextDirection t.sortedColumnIndex⟩
      t.sortedColumnIndex = t.sortedAscending := by
    simp [nextDirection]
  rw [← hback, hrows] at hsort'
  rw [reverseSort_eq sorter lower hsort', hback]

/-- A tie, sorted down and up again. -/
theorem reverseSort_reverseSort_tie :
    ∃ t', reverseSort ArraySort.insertion String.toLower
        ⟨[⟨⟨"b", "/s", "/d", "local", "x"⟩, 0, "active"⟩,
          ⟨⟨"a", "/s", "/d", "Local", "y"⟩, 0, "active"⟩], .type, true⟩ .type = .ok t' ∧
      t'.sortedAscending = false ∧
      t'.reverseSort ArraySort.insertion String.toLower .type =
        .ok ⟨[⟨⟨"b", "/s", "/d", "local", "x"⟩, 0, "active"⟩,
          ⟨⟨"a", "/s", "/d", "Local", "y"⟩, 0, "active"⟩], .type, true⟩ :=
  @reverseSort_reverseSort ArraySort.insertion String.toLower ArraySort.stable_insertion
    ⟨[⟨⟨"b", "/s", "/d", "local", "x"⟩, 0, "active"⟩,
      ⟨⟨"a", "/s", "/d", "Local", "y"⟩, 0, "active"⟩], .type, true⟩
    (List.pairwise_pair.mpr ⟨0, by decide +kernel, Int.le_refl 0⟩)

/-! ### Updates of a cell -/

/-- What an update of a cell must meet to keep the order shown: in the sorted
column, the new cell fits where the row is. -/
def Fits (t : SyncTable) (column : Column) (name : String) (write : Row → Row) : Prop :=
  t.sortedColumnIndex = column →
    FitsFirst (Row.InFront lower t.sortedAscending column) (isNamed lower name) write t.rows

/-- An update of the cells of one column keeps the order shown iff it fits. -/
theorem shown_write_iff {t : SyncTable} {column : Column} {name : String} {write : Row → Row}
    (hwrite : ∀ row column', column' ≠ column → (write row).get column' = row.get column')
    (h : t.Shown lower) :
    Shown lower { t with rows := modifyFirst (isNamed lower name) write t.rows } ↔
      t.Fits lower column name write := by
  have hiff := @pairwise_modifyFirst_iff _ _
    (@inFront_trans lower t.sortedAscending t.sortedColumnIndex) (isNamed lower name) write _ h
  refine Iff.trans hiff ?_
  by_cases hcolumn : t.sortedColumnIndex = column
  · subst hcolumn
    exact ⟨fun hfits _ => hfits, fun hfits => hfits rfl⟩
  · refine iff_of_true (fitsFirst_of_iff ?_ h) (fun hsame => absurd hsame hcolumn)
    -- the comparators do not look at the cell
    intro a b
    exact ⟨inFront_congr lower (hwrite a _ hcolumn) rfl, inFront_congr lower rfl (hwrite b _ hcolumn)⟩

theorem shown_modify_progress_iff {t : SyncTable} (name : String) (val : ℚ) (h : t.Shown lower) :
    (t.modify_progress lower name val).Shown lower ↔
      t.Fits lower .progress name fun row => { row with progress := val } := by
  have heq := receive_progress lower t name val
  rw [receive] at heq
  rw [heq]
  refine shown_write_iff lower ?_ h
  intro row column' hne
  cases column' with
  | progress => exact absurd rfl hne
  | _ => rfl

theorem shown_modify_status_iff {t : SyncTable} (name status : String) (h : t.Shown lower) :
    (t.modify_status lower name status).Shown lower ↔
      t.Fits lower .status name fun row => { row with status := status } := by
  have heq := receive_status lower t name status
  rw [receive] at heq
  rw [heq]
  refine shown_write_iff lower ?_ h
  intro row column' hne
  cases column' with
  | status => exact absurd rfl hne
  | _ => rfl

/-! ### Runs -/

/-- What an event must meet to keep the order shown: clicks, additions and
deletions keep it anyway. -/
def KeepsOrder (t : SyncTable) : TableEvent → Prop
  | .receive (.progress name val) =>
      t.Fits lower .progress name fun row => { row with progress := val }
  | .receive (.status name status) =>
      t.Fits lower .status name fun row => { row with status := status }
  | _ => True

/-- Added to a table in the order shown, a module goes in at its place, or
nowhere. -/
theorem shown_add {t : SyncTable} (m : ModuleEntry) (h : t.Shown lower) :
    (t.receive lower (.add m)).Shown lower := by
  by_cases hcol : t.sortedColumnIndex = .progress
  · by_cases hrows : t.rows = []
    · rw [receive_add_nil lower m hrows]
      exact List.pairwise_singleton _ _
    · rw [receive_add_progress lower m hcol hrows]
      exact h
  · rw [shown_iff_orderedBy lower hcol] at h
    rw [receive_add lower m hcol]
    refine (shown_iff_orderedBy lower ?_).mpr ?_
    · exact hcol
    · exact (rule_of_key (Row.key lower t.sortedColumnIndex)
        t.sortedAscending).pairwise_orderedInsert m.row h

theorem shown_handle_iff {t : SyncTable} (e : TableEvent) (h : t.Shown lower) :
    (t.handle sorter lower e).Shown lower ↔ t.KeepsOrder lower e := by
  cases e with
  | reverseSort column =>
      obtain ⟨t', hok, hshown⟩ := shown_reverseSort sorter lower t column
      refine iff_of_true ?_ trivial
      show (t.settle (t.reverseSort sorter lower column)).Shown lower
      rw [hok]
      exact hshown
  | receive msg =>
      cases msg with
      | add m => exact iff_of_true (shown_add lower m h) trivial
      | delete name =>
          refine iff_of_true ?_ trivial
          show (t.receive lower (.delete name)).Shown lower
          rw [receive_delete]
          exact h.filter _
      | progress name val => exact shown_modify_progress_iff lower name val h
      | status name status => exact shown_modify_status_iff lower name status h

theorem shown_start : (start sorter lower).Shown lower := by
  obtain ⟨rows, hok, -, hordered⟩ := onCompleted_spec sorter lower declared
  show (declared.settle (declared.onCompleted sorter lower)).Shown lower
  rw [hok]
  refine (shown_iff_orderedBy lower ?_).mpr ?_
  · show Column.name ≠ .progress
    decide
  · exact hordered

/-- In a table in the order shown, writing a progress or a status keeps that
order iff the table is not sorted by that column or the new value fits where
the row is.  Throughout a run of clicks and messages the rows are in the
order shown iff every such write fits. -/
theorem shown_run_iff :
    (∀ t : SyncTable, t.Shown lower → ∀ name,
      (∀ val, (t.modify_progress lower name val).Shown lower ↔
        t.Fits lower .progress name fun row => { row with progress := val }) ∧
      ∀ status, (t.modify_status lower name status).Shown lower ↔
        t.Fits lower .status name fun row => { row with status := status }) ∧
    ∀ events, Always (handle sorter lower) (Shown lower) (start sorter lower) events ↔
      Meets (handle sorter lower) (KeepsOrder lower) (start sorter lower) events := by
  refine ⟨?_, ?_⟩
  · intro t h name
    exact ⟨fun val => shown_modify_progress_iff lower name val h,
      fun status => shown_modify_status_iff lower name status h⟩
  · intro events
    exact always_iff_meets (fun t e h => shown_handle_iff sorter lower e h)
      (shown_start sorter lower)

/-- A first progress, on a table just sorted by Progress. -/
theorem not_shown_first_progress :
    ¬ ∀ (sorter : ArraySort JsError Row) (lower : String → String) (events : List TableEvent)
      (name : String) (val : ℚ),
      (run (handle sorter lower) (start sorter lower) events).sortedColumnIndex = .progress →
      (run (handle sorter lower) (start sorter lower) events).Shown lower →
      ((run (handle sorter lower) (start sorter lower) events).modify_progress lower name
        val).Shown lower := by
  intro h
  have hshown := h ArraySort.insertion String.toLower [.reverseSort .progress] "Module9" 1
    (by decide +kernel) (by decide +kernel)
  revert hshown
  decide +kernel

end SyncTable

end SyncServiceUi
