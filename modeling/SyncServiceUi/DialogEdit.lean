/-
SyncServiceUi/DialogEdit.lean

The main button of the dialog (`src/qml/screens/AddSyncModule.qml`): what it
emits, and for which row.

`isEditMode`, `oldModuleName` and `visible` are set and cleared by different
handlers, so after a while they need not belong together.  `Session` says
what they should amount to: the row being edited, if any.  While the window
is visible, and so the button can be clicked, the three of them say just
that (`tracks_step`), hence an `editModule` always names the row of the last
`openEditWindow` (`editModule_target`).

What else it carries is read off the controls.  A combo box cannot show a
text that is not among its entries, so opening a row and saving it gives the
row back iff its type and its direction are entries
(`editModule_unchanged_iff`).
-/
import Mathlib.Data.List.Induction
import SyncServiceUi.Dialog
import SyncServiceUi.SyncTable

namespace SyncServiceUi

open Runs

/-- The signals of the main button. -/
inductive DialogSignal where
  | done
  | editModule (moduleName new_name moduleType moduleDirection sourcePath destinationPath : String)
  deriving DecidableEq, Repr

/-- `handleEdit` of the table, a row on its way to the dialog. -/
def Row.handleEdit (row : Row) : DialogEvent :=
  .openEdit ⟨row.name, row.source, row.destination, row.type, row.direction⟩

namespace Dialog

/-- What an event emits; only the main button emits anything of these. -/
def emits (d : Dialog) : DialogEvent → List DialogSignal
  | .mainButton =>
      if d.isEditMode = 1 then
        [.editModule d.oldModuleName d.module_name d.typeText d.directionText d.source_input
          d.destination_input]
      else [.done]
  | _ => []

/-- The buttons are in the window, so they can be clicked only while it is
visible. -/
def Clickable (d : Dialog) (e : DialogEvent) : Prop :=
  e = .mainButton ∨ e = .cancel → d.visible = true

instance (d : Dialog) (e : DialogEvent) : Decidable (d.Clickable e) :=
  inferInstanceAs (Decidable (_ → _))

section Events

variable (toNativeSeparators : String → String)

/-! ### The row being edited -/

/-- The name of the row being edited, after one event more: the window was
opened for it, and neither for an addition nor saved since. -/
def session (editing : Option String) : DialogEvent → Option String
  | .openEdit row => some row.name
  | .openAdd => none
  | .mainButton => none
  | _ => editing

/-- While the window is visible and in edit mode, a row is being edited, and
`oldModuleName` is its name. -/
def Tracks (d : Dialog) (editing : Option String) : Prop :=
  d.visible = true → d.isEditMode = 1 → editing = some d.oldModuleName

theorem tracks_step {d : Dialog} {editing : Option String} (e : DialogEvent)
    (h : d.Tracks editing) : (d.handle toNativeSeparators e).Tracks (session editing e) := by
  intro hvisible hmode
  cases e with
  | openEdit row => rfl
  | openAdd => cases hmode
  | cancel => cases hvisible
  | close => cases hvisible
  | mainButton =>
      -- saving hides the window, and anything else leaves it in add mode
      by_cases hedit : d.isEditMode = 1
      · simp [handle, onMainButtonClick, hedit] at hvisible
      · simp [handle, onMainButtonClick, hedit] at hmode
  | typeName text =>
      simp only [handle, setName_eq] at hvisible hmode ⊢
      exact h hvisible hmode
  | _ => exact h hvisible hmode

theorem tracks_run (es : List DialogEvent) :
    (run (handle toNativeSeparators) start es).Tracks (run session none es) := by
  induction es using List.reverseRecOn with
  | nil =>
      intro hvisible
      cases hvisible
  | append_singleton es e ih =>
      rw [run_append, run_append]
      exact tracks_step toNativeSeparators e ih

/-- Events that leave the row being edited alone. -/
def Keeps (e : DialogEvent) : Prop :=
  (∀ row, e ≠ .openEdit row) ∧ e ≠ .openAdd ∧ e ≠ .mainButton

/-- A row being edited is that of the last `openEditWindow`, with neither an
opening for Add nor a click on the main button after it. -/
theorem exists_openEdit {es : List DialogEvent} {name : String}
    (h : run session none es = some name) :
    ∃ before row mid, es = before ++ .openEdit row :: mid ∧ row.name = name ∧
      ∀ e ∈ mid, Keeps e := by
  induction es using List.reverseRecOn with
  | nil => cases h
  | append_singleton es e ih =>
      rw [run_append] at h
      have hkeep : Keeps e → run session none es = some name →
          ∃ before row mid, es ++ [e] = before ++ .openEdit row :: mid ∧ row.name = name ∧
            ∀ e ∈ mid, Keeps e := by
        intro he hes
        obtain ⟨before, row, mid, rfl, hname, hmid⟩ := ih hes
        refine ⟨before, row, mid ++ [e], by simp, hname, ?_⟩
        intro x hx
        rcases List.mem_append.mp hx with hx | hx
        · exact hmid x hx
        · exact List.mem_singleton.mp hx ▸ he
      cases e with
      | openEdit row => exact ⟨es, row, [], rfl, Option.some.inj h, by simp⟩
      | openAdd => cases h
      | mainButton => cases h
      | _ => exact hkeep ⟨by simp, by simp, by simp⟩ h

theorem entry_getD_eq_iff {entries : List String} {text : String} (i : Fin entries.length) :
    (entry entries text).getD (entries.get i) = text ↔ text ∈ entries := by
  unfold entry
  rcases h : entries.finIdxOf? text with - | j
  · have hnot : text ∉ entries := List.finIdxOf?_eq_none_iff.mp h
    refine iff_of_false ?_ hnot
    rintro rfl
    exact hnot (List.get_mem entries i)
  · obtain ⟨hj, -⟩ := List.finIdxOf?_eq_some_iff.mp h
    refine iff_of_true hj ?_
    exact hj ▸ List.get_mem entries j

/-- In edit mode the button emits the form on display. -/
theorem emits_openEdit (d : Dialog) (row : Form) :
    (d.handle toNativeSeparators (.openEdit row)).emits .mainButton =
      [.editModule row.name row.name ((entry sync_types row.type).getD d.typeText)
        ((entry sync_directions row.direction).getD d.directionText) row.source
        row.destination] := by
  have hshown := shown_handle toNativeSeparators d (.openEdit row)
  have htype := congrArg Form.type hshown
  have hdirection := congrArg Form.direction hshown
  have hname := congrArg Form.name hshown
  simp only [shown] at htype hdirection hname
  simp only [emits]
  rw [htype, hdirection, hname]
  rfl

/-- Whatever the dialog was used for before, opening a row for Edit and
clicking Save emits the row's own values iff its type and its direction are
entries of the combo boxes. -/
theorem editModule_unchanged_iff (d : Dialog) (row : Row) :
    (d.handle toNativeSeparators row.handleEdit).emits .mainButton =
        [.editModule row.name row.name row.type row.direction row.source row.destination] ↔
      row.type ∈ sync_types ∧ row.direction ∈ sync_directions := by
  have hemits := emits_openEdit toNativeSeparators d
    ⟨row.name, row.source, row.destination, row.type, row.direction⟩
  have htype : (entry sync_types row.type).getD d.typeText = row.type ↔ row.type ∈ sync_types :=
    entry_getD_eq_iff d.selected_type
  have hdirection : (entry sync_directions row.direction).getD d.directionText = row.direction ↔
      row.direction ∈ sync_directions := entry_getD_eq_iff d.selected_direction
  rw [Row.handleEdit, hemits, ← htype, ← hdirection]
  simp

/-- The first row the table is declared with: its type is `local`, and the
entry is `Local`. -/
theorem not_editModule_unchanged_declared :
    ¬ ∀ (toNativeSeparators : String → String) (d : Dialog) (row : Row),
      (d.handle toNativeSeparators row.handleEdit).emits .mainButton =
        [.editModule row.name row.name row.type row.direction row.source row.destination] := by
  intro h
  have hrow := h id start (SyncTable.declaredRows.get ⟨0, by decide⟩)
  exact absurd hrow (by decide)

end Events

end Dialog

end SyncServiceUi
