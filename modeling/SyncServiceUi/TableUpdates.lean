/-
SyncServiceUi/TableUpdates.lean

One addition to the table and one deletion, from any table at all.

`addModule` has a loop for each direction, with a strict comparison in one
and a non-strict one in the other; on a table in order both find the one
place that keeps it in order, behind the rows of the same key or in front of
them, and the two places mirror each other (`addModule_ordered`).

`deleteModule` removes one row and emits the signal it handles.  What comes
out when the last of the nested handlers has returned is a filter
(`onModuleDeleted_eq`).
-/
import SyncServiceUi.TableSpec

namespace SyncServiceUi

open KeyOrder

variable (lower : String → String)

namespace SyncTable

/-! ### Addition -/

/-- The rows before and after the new one, by their keys. -/
def Around (t : SyncTable) (module : Row) (before after : List Row) : Prop :=
  if t.sortedAscending then
    (∀ row ∈ before, row.key lower t.sortedColumnIndex ≤ module.key lower t.sortedColumnIndex) ∧
      ∀ row ∈ after, module.key lower t.sortedColumnIndex < row.key lower t.sortedColumnIndex
  else
    (∀ row ∈ before, module.key lower t.sortedColumnIndex < row.key lower t.sortedColumnIndex) ∧
      ∀ row ∈ after, row.key lower t.sortedColumnIndex ≤ module.key lower t.sortedColumnIndex

/-- In a text column, `addModule` puts the new row at one place of the rows
there are. -/
theorem addModule_around {t : SyncTable} (htext : t.sortedColumnIndex.isText = true)
    (hordered : OrderedBy lower t.sortedColumnIndex t.sortedAscending t.rows) (m : ModuleEntry) :
    ∃ before after, t.rows = before ++ after ∧ t.Around lower m.row before after ∧
      t.addModule lower m = .ok { t with rows := before ++ m.row :: after } := by
  have hrule := rule_of_key (Row.key lower t.sortedColumnIndex) t.sortedAscending
  obtain ⟨before, after, hrows, hbefore, hafter⟩ := hrule.exists_split m.row hordered
  refine ⟨before, after, hrows, ?_, ?_⟩
  · unfold Around
    rcases hasc : t.sortedAscending with - | -
    · simp only [hasc, Precedes, Bool.false_eq_true, if_false, not_le] at hbefore hafter
      exact ⟨hbefore, hafter⟩
    · simp only [hasc, Precedes, if_true, not_lt] at hbefore hafter
      exact ⟨hbefore, hafter⟩
  · rw [addModule_eq lower m (ne_progress htext), hrows, orderedInsert_append hbefore hafter]

/-- On a table in order, the new row goes behind the rows of its key when the
table is ascending and in front of them when it is descending; the other rows
stay as they are, and the result is in order.  Adding to the reversed table
in the other direction gives the reversed result. -/
theorem addModule_ordered {t : SyncTable} (htext : t.sortedColumnIndex.isText = true)
    (hordered : OrderedBy lower t.sortedColumnIndex t.sortedAscending t.rows) (m : ModuleEntry) :
    (∃ before after, t.rows = before ++ after ∧ t.Around lower m.row before after ∧
      OrderedBy lower t.sortedColumnIndex t.sortedAscending (before ++ m.row :: after) ∧
      t.addModule lower m = .ok { t with rows := before ++ m.row :: after }) ∧
    (t.sortedAscending = true → ∃ rows, t.addModule lower m = .ok { t with rows } ∧
      { t with rows := t.rows.reverse, sortedAscending := false }.addModule lower m =
        .ok { t with rows := rows.reverse, sortedAscending := false }) := by
  have hcol := ne_progress htext
  have hrule := rule_of_key (Row.key lower t.sortedColumnIndex) t.sortedAscending
  refine ⟨?_, ?_⟩
  · obtain ⟨before, after, hrows, haround, hadd⟩ := addModule_around lower htext hordered m
    refine ⟨before, after, hrows, haround, ?_, hadd⟩
    -- what `addModule` returns is an ordered insertion
    have hinsert := Except.ok.inj (hadd.symm.trans (addModule_eq lower m hcol))
    have hresult : before ++ m.row :: after = t.rows.orderedInsert _ m.row :=
      congrArg SyncTable.rows hinsert
    rw [hresult]
    exact hrule.pairwise_orderedInsert m.row hordered
  · intro hasc
    refine ⟨_, addModule_eq lower m hcol, ?_⟩
    rw [addModule_eq lower m (by exact hcol)]
    congr 2
    refine hrule.reverse_orderedInsert m.row ?_ hordered
    intro row
    simp [Precedes, hasc]

/-- One module more in a table with a tie. -/
theorem addModule_ordered_tie :
    ∃ before after, [(⟨"a", "/s", "/d", "Local", "Backup"⟩ : ModuleEntry).row] = before ++ after ∧
      (⟨[(⟨"a", "/s", "/d", "Local", "Backup"⟩ : ModuleEntry).row], .type, true⟩ :
        SyncTable).addModule String.toLower ⟨"b", "/s", "/d", "local", "Backup"⟩ =
        .ok ⟨before ++ (⟨"b", "/s", "/d", "local", "Backup"⟩ : ModuleEntry).row :: after,
          .type, true⟩ := by
  obtain ⟨⟨before, after, hrows, -, -, hadd⟩, -⟩ := @addModule_ordered String.toLower
    ⟨[(⟨"a", "/s", "/d", "Local", "Backup"⟩ : ModuleEntry).row], .type, true⟩ rfl
    (List.pairwise_singleton _ _) ⟨"b", "/s", "/d", "local", "Backup"⟩
  exact ⟨before, after, hrows, hadd⟩

/-! ### Deletion -/

/-- Handling `moduleDeleted` ends with the rows of other names left, as they
were and in their order, and has emitted the signal once for each row
removed. -/
theorem onModuleDeleted_eq (t : SyncTable) (name : String) :
    t.onModuleDeleted lower name =
        { t with rows := t.rows.filter fun row => lower row.name ≠ lower name } ∧
      (deleteModule lower name t.rows).2 + (t.onModuleDeleted lower name).rows.length =
        t.rows.length := by
  refine ⟨?_, deleteModule_emitted lower name t.rows⟩
  have hkept : (fun row : Row => !isNamed lower name row) =
      fun row => decide (lower row.name ≠ lower name) := by
    funext row
    simp [isNamed, beq_eq_decide]
  unfold onModuleDeleted
  rw [deleteModule_rows, hkept]

end SyncTable

end SyncServiceUi
