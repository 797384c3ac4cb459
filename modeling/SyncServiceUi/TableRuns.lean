/-
SyncServiceUi/TableRuns.lean

Whole runs of the table: header clicks and messages of the service, in any
order.

Sorted by a text column, the rows stay in order (`sorted_run`).  What the
table holds follows the messages, except that a module added while it is
sorted by Progress is lost: `addModule` calls `toLowerCase` on a number there
(`content_run_iff`).
-/
import Mathlib.Data.Multiset.Filter
import SyncServiceUi.TableSpec

namespace SyncServiceUi

open Runs KeyOrder

variable (sorter : ArraySort JsError Row) (lower : String → String)

namespace SyncTable

/-! ### Order -/

/-- Sorted by a text column, the rows are in the order shown. -/
def Sorted (t : SyncTable) : Prop :=
  t.sortedColumnIndex.isText = true →
    OrderedBy lower t.sortedColumnIndex t.sortedAscending t.rows

theorem orderedBy_iff_map {column : Column} {ascending : Bool} {rows : List Row} :
    OrderedBy lower column ascending rows ↔
      (rows.map (Row.key lower column)).Pairwise (InOrder ascending) :=
  List.pairwise_map.symm

theorem key_with_progress (column : Column) (row : Row) (val : ℚ) :
    Row.key lower column { row with progress := val } = Row.key lower column row := by
  cases column <;> rfl

theorem key_with_status {column : Column} (h : column.isText = true) (row : Row)
    (status : String) :
    Row.key lower column { row with status := status } = Row.key lower column row := by
  cases column with
  | status => cases h
  | _ => rfl

/-- A message keeps the rows in order. -/
theorem sorted_receive {t : SyncTable} (h : t.Sorted lower) (msg : Message) :
    (t.receive lower msg).Sorted lower := by
  intro htext
  rw [(receive_sortedBy lower t msg).1] at htext
  have hrows := h htext
  cases msg with
  | add m =>
      rw [receive_add lower m (ne_progress htext)]
      exact (rule_of_key (Row.key lower t.sortedColumnIndex)
        t.sortedAscending).pairwise_orderedInsert m.row hrows
  | delete name =>
      -- the rows left are a sublist
      rw [receive_delete]
      exact hrows.filter _
  | progress name val =>
      rw [receive_progress, orderedBy_iff_map,
        map_modifyFirst fun row => key_with_progress lower _ row val]
      exact (orderedBy_iff_map lower).mp hrows
  | status name status =>
      rw [receive_status, orderedBy_iff_map,
        map_modifyFirst fun row => key_with_status lower htext row status]
      exact (orderedBy_iff_map lower).mp hrows

/-- So does a click on a header, whatever the order was. -/
theorem sorted_handle {t : SyncTable} (h : t.Sorted lower) (e : TableEvent) :
    (t.handle sorter lower e).Sorted lower := by
  cases e with
  | reverseSort column =>
      obtain ⟨rows, ascending, hok, -, hordered⟩ := reverseSort_spec sorter lower t column
      show (t.settle (t.reverseSort sorter lower column)).Sorted lower
      rw [hok]
      intro htext
      exact hordered (ne_progress htext)
  | receive msg => exact sorted_receive lower h msg

theorem sorted_start : (start sorter lower).Sorted lower := by
  obtain ⟨rows, hok, -, hordered⟩ := onCompleted_spec sorter lower declared
  show (declared.settle (declared.onCompleted sorter lower)).Sorted lower
  rw [hok]
  intro _
  exact hordered

/-- Throughout every run the rows are in the order shown when that is the
order of a text column, and no comparator throws on them. -/
theorem sorted_run (events : List TableEvent) :
    Always (handle sorter lower)
      (fun t => t.Sorted lower ∧ ∀ column, ∀ a ∈ t.rows, ∀ b ∈ t.rows,
        (∃ v, compareAsc lower column a b = .ok v) ∧ ∃ v, compareDesc lower column a b = .ok v)
      (start sorter lower) events := by
  intro pre hpre
  refine ⟨?_, ?_⟩
  · have hstep : ∀ (t : SyncTable) (e : TableEvent), t.Sorted lower →
        (t.handle sorter lower e).Sorted lower := by
      intro t e h
      exact sorted_handle sorter lower h e
    exact always_of_invariant hstep (sorted_start sorter lower) events pre hpre
  · -- the cells of a column have one type, so no `toLowerCase` meets a number
    intro column a _ b _
    obtain ⟨f, hf⟩ := exists_compareIn lower true column
    obtain ⟨g, hg⟩ := exists_compareIn lower false column
    have hasc : compareAsc lower column a b = .ok (f a b) := congrFun₂ hf a b
    have hdesc : compareDesc lower column a b = .ok (g a b) := congrFun₂ hg a b
    exact ⟨⟨f a b, hasc⟩, ⟨g a b, hdesc⟩⟩

/-! ### Additions -/

/-- Any number of modules added, sorted by a column of strings. -/
theorem run_adds {t : SyncTable} (hcol : t.sortedColumnIndex ≠ .progress)
    (entries : List ModuleEntry) :
    ∃ rows, run (receive lower) t (entries.map .add) = { t with rows } ∧
      rows.Perm (t.rows ++ entries.map ModuleEntry.row) := by
  induction entries generalizing t with
  | nil => exact ⟨t.rows, rfl, by simp⟩
  | cons m entries ih =>
      obtain ⟨added, hadd, hadded⟩ := exists_receive_add lower m hcol
      obtain ⟨rows, hrun, hperm⟩ := @ih { t with rows := added } hcol
      refine ⟨rows, ?_, ?_⟩
      · rw [List.map_cons, run_cons, hadd, hrun]
      · exact hperm.trans ((hadded.append_right _).trans List.perm_middle.symm)

/-- Sorted by Progress, a table with rows stays as it is. -/
theorem run_adds_progress {t : SyncTable} (hcol : t.sortedColumnIndex = .progress)
    (hrows : t.rows ≠ []) (entries : List ModuleEntry) :
    run (receive lower) t (entries.map .add) = t := by
  induction entries with
  | nil => rfl
  | cons m entries ih => rw [List.map_cons, run_cons, receive_add_progress lower m hcol hrows, ih]

/-- How many rows there are after any number of modules added. -/
theorem length_run_adds (t : SyncTable) (entries : List ModuleEntry) :
    (run (receive lower) t (entries.map .add)).rows.length = t.rows.length +
      if t.sortedColumnIndex ≠ .progress then entries.length
      else if t.rows = [] then min 1 entries.length else 0 := by
  by_cases hcol : t.sortedColumnIndex = .progress
  · rw [if_neg (not_not.mpr hcol)]
    by_cases hrows : t.rows = []
    · -- the first one still goes in
      rcases entries with - | ⟨m, entries⟩
      · simp
      · have hrest : run (receive lower) { t with rows := [m.row] } (entries.map .add) =
            { t with rows := [m.row] } :=
          @run_adds_progress lower { t with rows := [m.row] } hcol (List.cons_ne_nil _ _) entries
        rw [List.map_cons, run_cons, receive_add_nil lower m hrows, hrest]
        simp [hrows]
    · rw [run_adds_progress lower hcol hrows, if_neg hrows, Nat.add_zero]
  · obtain ⟨rows, hrun, hperm⟩ := run_adds lower hcol entries
    rw [hrun, if_pos hcol, hperm.length_eq, List.length_append, List.length_map]

/-! ### Content -/

/-- The modules the table shows. -/
def content (t : SyncTable) : Multiset ModuleEntry :=
  (t.rows.map Row.toModuleEntry : List ModuleEntry)

/-- What an event does to the modules, as the service means it. -/
def contentStep (modules : Multiset ModuleEntry) : TableEvent → Multiset ModuleEntry
  | .receive (.add m) => m ::ₘ modules
  | .receive (.delete name) => modules.filter fun m => lower m.name ≠ lower name
  | _ => modules

/-- A module can be added: the table is not sorted by Progress, or is empty. -/
def CanAdd (t : SyncTable) : TableEvent → Prop
  | .receive (.add _) => t.sortedColumnIndex ≠ .progress ∨ t.rows = []
  | _ => True

theorem content_modify (t : SyncTable) (p : Row → Bool) {write : Row → Row}
    (h : ∀ row, (write row).toModuleEntry = row.toModuleEntry) :
    content { t with rows := modifyFirst p write t.rows } = content t := by
  have hmap : (modifyFirst p write t.rows).map Row.toModuleEntry = t.rows.map Row.toModuleEntry :=
    map_modifyFirst h t.rows
  exact Multiset.coe_eq_coe.mpr (.of_eq hmap)

theorem content_receive_iff (t : SyncTable) (msg : Message) :
    content (t.receive lower msg) = contentStep lower (content t) (.receive msg) ↔
      CanAdd t (.receive msg) := by
  cases msg with
  | add m =>
      by_cases hcol : t.sortedColumnIndex = .progress
      · by_cases hrows : t.rows = []
        · simp [receive_add_nil lower m hrows, content, contentStep, CanAdd, hrows,
            ModuleEntry.row]
        · -- the module is lost, and one more was due
          rw [receive_add_progress lower m hcol hrows]
          have hcannot : ¬ CanAdd t (.receive (.add m)) := by simp [CanAdd, hcol, hrows]
          refine iff_of_false ?_ hcannot
          intro h
          have hcard := congrArg Multiset.card h
          simp [contentStep] at hcard
      · obtain ⟨rows, hadd, hperm⟩ := exists_receive_add lower m hcol
        refine iff_of_true ?_ (.inl hcol)
        rw [hadd]
        exact Multiset.coe_eq_coe.mpr (hperm.map Row.toModuleEntry)
  | delete name =>
      refine iff_of_true ?_ trivial
      simp [receive_delete, content, contentStep, isNamed, List.filter_map,
        Function.comp_def, beq_eq_decide]
  | progress name val =>
      refine iff_of_true ?_ trivial
      rw [receive_progress]
      exact content_modify t _ fun _ => rfl
  | status name status =>
      refine iff_of_true ?_ trivial
      rw [receive_status]
      exact content_modify t _ fun _ => rfl

theorem content_handle_iff (t : SyncTable) (e : TableEvent) :
    content (t.handle sorter lower e) = contentStep lower (content t) e ↔ CanAdd t e := by
  cases e with
  | reverseSort column =>
      obtain ⟨rows, ascending, hok, hperm, -⟩ := reverseSort_spec sorter lower t column
      refine iff_of_true ?_ trivial
      show content (t.settle (t.reverseSort sorter lower column)) = content t
      rw [hok]
      exact Multiset.coe_eq_coe.mpr (hperm.map _)
  | receive msg => exact content_receive_iff lower t msg

/-- Throughout a run the table shows what the messages so far amount to iff
every module is added when it can be. -/
theorem content_run_iff (t : SyncTable) (events : List TableEvent) :
    (∀ pre, pre <+: events →
        content (run (handle sorter lower) t pre) = run (contentStep lower) (content t) pre) ↔
      Meets (handle sorter lower) CanAdd t events :=
  simulates_iff_meets (content_handle_iff sorter lower)

/-- One row, one click on the header of Progress, one module more: it is
not shown. -/
theorem not_content_sorted_by_progress :
    ¬ ∀ (sorter : ArraySort JsError Row) (lower : String → String) (t : SyncTable)
      (events : List TableEvent),
      content (run (handle sorter lower) t events) =
        run (contentStep lower) (content t) events := by
  intro h
  have hcard := congrArg Multiset.card (h ArraySort.insertion String.toLower
    ⟨[(⟨"a", "/a", "/b", "local", "one-way"⟩ : ModuleEntry).row], .name, true⟩
    [.reverseSort .progress, .receive (.add ⟨"b", "/c", "/d", "cloud", "two-way"⟩)])
  revert hcard
  decide +kernel

end SyncTable

end SyncServiceUi
