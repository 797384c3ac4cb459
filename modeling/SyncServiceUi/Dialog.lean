/-
SyncServiceUi/Dialog.lean

The add/edit dialog (`src/qml/screens/AddSyncModule.qml`) with the members its
C++ object keeps (`src/QObjects/AddSyncModule.h`).

In add mode the main button makes `onDone` read the C++ members, not the
controls.  A control and its member are two copies of one value, kept equal
by the slots `onNameModified` .. `onDirectionSelected`; but
`onOpenEditWindow` writes four of the controls without a signal, and the
defaults of the combo boxes are announced in `Component.onCompleted`, before
the C++ object exists.  `sendsWhatItShows_iff` gives the runs in which the
two copies agree whenever they are read.
-/
import Mathlib.Data.List.Basic
import SyncServiceUi.AddSyncModule
import SyncServiceUi.Mirror

namespace SyncServiceUi

open Runs Mirror

/-! ### The dialog -/

def sync_types : List String := ["Local", "Cloud"]

def sync_directions : List String := ["One-way", "Two-way", "Backup"]

/-- The members `AddSyncModule::AddSyncModule` starts with. -/
def Form.created : Form := ⟨"", "", "", "local", "one-way"⟩

/-- The window: the texts of its three text areas, the entries its two combo
boxes are at, its properties, and `self`, the members of the C++ object. -/
structure Dialog where
  module_name : String
  source_input : String
  destination_input : String
  selected_type : Fin sync_types.length
  selected_direction : Fin sync_directions.length
  isEditMode : ℕ
  oldModuleName : String
  visible : Bool
  self : Form
  deriving DecidableEq, Repr

namespace Dialog

/-- The window when the C++ object has just been connected to it. -/
def start : Dialog where
  module_name := ""
  source_input := ""
  destination_input := ""
  selected_type := ⟨0, by decide⟩
  selected_direction := ⟨0, by decide⟩
  isEditMode := 0
  oldModuleName := ""
  visible := false
  self := Form.created

/-- `currentText` of the type combo box. -/
def typeText (d : Dialog) : String := sync_types.get d.selected_type

/-- `currentText` of the direction combo box. -/
def directionText (d : Dialog) : String := sync_directions.get d.selected_direction

/-- The five values on display. -/
def shown (d : Dialog) : Form :=
  ⟨d.module_name, d.source_input, d.destination_input, d.typeText, d.directionText⟩

/-- Write `module_name.text`; `onTextChanged` runs `onNameModified` only when
the text is a new one. -/
def setName (d : Dialog) (text : String) : Dialog :=
  if text = d.module_name then d
  else { d with module_name := text, self.name := text }

end Dialog

/-- What the user can do with the dialog. -/
inductive DialogEvent where
  | typeName (text : String)
  | acceptSource (url : String)
  | acceptDestination (url : String)
  | activateType (i : Fin sync_types.length)
  | activateDirection (i : Fin sync_directions.length)
  | openAdd
  | openEdit (row : Form)
  | cancel
  | close
  | mainButton
  deriving DecidableEq, Repr

section Events

-- `QDir::toNativeSeparators`, which the program takes from Qt.
variable (toNativeSeparators : String → String)

/-- The path of a folder's URL: `file:///` is cut off by its length. -/
def nativePath (url : String) : String :=
  toNativeSeparators (String.ofList (url.toList.drop 8))

namespace Dialog

def onSourceFolderAccepted (d : Dialog) (selectedFolder : String) : Dialog :=
  let nativeSourcePath := nativePath toNativeSeparators selectedFolder
  { d with source_input := nativeSourcePath, self.source := nativeSourcePath }

def onDestinationFolderAccepted (d : Dialog) (selectedFolder : String) : Dialog :=
  let nativeDestinationPath := nativePath toNativeSeparators selectedFolder
  { d with destination_input := nativeDestinationPath, self.destination := nativeDestinationPath }

def onTypeSelected (d : Dialog) : Dialog :=
  { d with self.type := d.typeText }

def onDirectionSelected (d : Dialog) : Dialog :=
  { d with self.direction := d.directionText }

/-- `onOpenEditWindow`: a type or direction that is not in its list leaves
the combo box where it is. -/
def onOpenEditWindow (d : Dialog) (row : Form) : Dialog :=
  { d.setName row.name with
    source_input := row.source
    destination_input := row.destination
    selected_direction := (sync_directions.finIdxOf? row.direction).getD d.selected_direction
    selected_type := (sync_types.finIdxOf? row.type).getD d.selected_type
    isEditMode := 1
    visible := true
    oldModuleName := row.name }

/-- `openSignal`, in the C++ object and in the window. -/
def onOpenSignal (d : Dialog) : Dialog :=
  { d with visible := true, isEditMode := 0 }

def onCancel (d : Dialog) : Dialog :=
  { d with visible := false }

/-- `onMainButtonClick`; the requests it sends are `Dialog.sends`. -/
def onMainButtonClick (d : Dialog) : Dialog :=
  if d.isEditMode = 1 then { d with oldModuleName := "", visible := false } else d

/-- The requests a click on the main button sends. -/
def sends (fs : Filesystem) (amb : Ambient) (d : Dialog) : List Request :=
  if d.isEditMode = 1 then
    sent (onEditModule fs amb d.oldModuleName d.module_name d.typeText d.directionText
      d.source_input d.destination_input)
  else sent (onDone fs amb d.self)

/-- One event of the dialog. -/
def handle (d : Dialog) : DialogEvent → Dialog
  | .typeName text => d.setName text
  | .acceptSource url => d.onSourceFolderAccepted toNativeSeparators url
  | .acceptDestination url => d.onDestinationFolderAccepted toNativeSeparators url
  | .activateType i => { d with selected_type := i }.onTypeSelected
  | .activateDirection i => { d with selected_direction := i }.onDirectionSelected
  | .openAdd => d.onOpenSignal
  | .openEdit row => d.onOpenEditWindow row
  | .cancel => d.onCancel
  -- no handler: the window is hidden and that is all
  | .close => { d with visible := false }
  | .mainButton => d.onMainButtonClick

/-! ### What one event does to the two copies -/

theorem setName_eq (d : Dialog) (text : String) :
    d.setName text = { d with
      module_name := text
      self.name := if text = d.module_name then d.self.name else text } := by
  unfold setName
  split
  · next h => simp [h]
  · rfl

/-- The entry of a combo box with this text, if there is one. -/
def entry (entries : List String) (text : String) : Option String :=
  (entries.finIdxOf? text).map entries.get

theorem get_finIdxOf?_getD (entries : List String) (text : String) (i : Fin entries.length) :
    entries.get ((entries.finIdxOf? text).getD i) = (entry entries text).getD (entries.get i) := by
  unfold entry
  cases entries.finIdxOf? text <;> rfl

/-- The form on display after an event. -/
theorem shown_handle (d : Dialog) (e : DialogEvent) :
    (d.handle toNativeSeparators e).shown = match e with
      | .typeName text => { d.shown with name := text }
      | .acceptSource url => { d.shown with source := nativePath toNativeSeparators url }
      | .acceptDestination url =>
          { d.shown with destination := nativePath toNativeSeparators url }
      | .activateType i => { d.shown with type := sync_types.get i }
      | .activateDirection i => { d.shown with direction := sync_directions.get i }
      | .openEdit row =>
          { row with
            type := (entry sync_types row.type).getD d.shown.type
            direction := (entry sync_directions row.direction).getD d.shown.direction }
      | _ => d.shown := by
  cases e with
  | typeName text => simp only [handle, setName_eq, shown, typeText, directionText]
  | openEdit row =>
      simp only [handle, onOpenEditWindow, setName_eq, shown, typeText, directionText, get_finIdxOf?_getD]
  | mainButton =>
      show d.onMainButtonClick.shown = d.shown
      unfold onMainButtonClick
      split <;> rfl
  | _ => rfl

/-- The members of the C++ object after an event. -/
theorem self_handle (d : Dialog) (e : DialogEvent) :
    (d.handle toNativeSeparators e).self = match e with
      | .typeName text =>
          { d.self with name := if text = d.shown.name then d.self.name else text }
      | .acceptSource url => { d.self with source := nativePath toNativeSeparators url }
      | .acceptDestination url =>
          { d.self with destination := nativePath toNativeSeparators url }
      | .activateType i => { d.self with type := sync_types.get i }
      | .activateDirection i => { d.self with direction := sync_directions.get i }
      | .openEdit row =>
          { d.self with name := if row.name = d.shown.name then d.self.name else row.name }
      | _ => d.self := by
  cases e with
  | typeName text =>
      rw [handle, setName_eq]
      rfl
  | openEdit row =>
      rw [handle, onOpenEditWindow, setName_eq]
      rfl
  | mainButton =>
      show d.onMainButtonClick.self = d.self
      unfold onMainButtonClick
      split <;> rfl
  | _ => rfl

/-! ### The controls and their mirrors -/

/-- The name is announced whenever it changes. -/
theorem self_name_run (es : List DialogEvent) :
    (run (handle toNativeSeparators) start es).self.name =
      (run (handle toNativeSeparators) start es).shown.name := by
  have hstep : ∀ (d : Dialog) (e : DialogEvent), d.self.name = d.shown.name →
      (d.handle toNativeSeparators e).self.name = (d.handle toNativeSeparators e).shown.name := by
    intro d e h
    rw [self_handle, shown_handle]
    cases e with
    -- a text that is not new runs no slot, and the member has it already
    | typeName text => by_cases htext : text = d.shown.name <;> simp [htext, h]
    | openEdit row => by_cases hname : row.name = d.shown.name <;> simp [hname, h]
    | _ => exact h
  exact (always_of_invariant hstep rfl es).last

def sourceControl : Control DialogEvent String where
  announced
    | .acceptSource url => some (nativePath toNativeSeparators url)
    | _ => none
  silent
    | .openEdit row => some row.source
    | _ => none

def destinationControl : Control DialogEvent String where
  announced
    | .acceptDestination url => some (nativePath toNativeSeparators url)
    | _ => none
  silent
    | .openEdit row => some row.destination
    | _ => none

def typeControl : Control DialogEvent String where
  announced
    | .activateType i => some (sync_types.get i)
    | _ => none
  silent
    | .openEdit row => entry sync_types row.type
    | _ => none

def directionControl : Control DialogEvent String where
  announced
    | .activateDirection i => some (sync_directions.get i)
    | _ => none
  silent
    | .openEdit row => entry sync_directions row.direction
    | _ => none

/-- The fields of the form that have a control of their own beside the name. -/
inductive FormField where
  | source
  | destination
  | type
  | direction

def FormField.get : FormField → Form → String
  | source => Form.source
  | destination => Form.destination
  | type => Form.type
  | direction => Form.direction

def FormField.control : FormField → Control DialogEvent String
  | source => sourceControl toNativeSeparators
  | destination => destinationControl toNativeSeparators
  | type => typeControl
  | direction => directionControl

/-- The member of the C++ object follows the control of its field. -/
theorem follows (field : FormField) :
    Follows (handle toNativeSeparators) (fun d => field.get d.shown) (fun d => field.get d.self)
      (field.control toNativeSeparators) := by
  cases field <;> constructor <;> intro d e <;> cases e <;>
    simp +contextual [FormField.get, FormField.control, sourceControl, destinationControl,
      typeControl, directionControl, shown_handle, self_handle]

/-! ### The add form sends what it shows -/

/-- Whenever the main button is clicked in add mode, the members `onDone`
reads are the values on display. -/
def SendsWhatItShows (es : List DialogEvent) : Prop :=
  ∀ pre, pre ++ [.mainButton] <+: es →
    (run (handle toNativeSeparators) start pre).isEditMode ≠ 1 →
    (run (handle toNativeSeparators) start pre).self =
      (run (handle toNativeSeparators) start pre).shown

/-- The events so far have announced what the four controls show. -/
structure Announced (pre : List DialogEvent) : Prop where
  source : ((sourceControl toNativeSeparators).trail pre).InStep "" ""
  destination : ((destinationControl toNativeSeparators).trail pre).InStep "" ""
  type : (typeControl.trail pre).InStep "Local" "local"
  direction : (directionControl.trail pre).InStep "One-way" "one-way"

theorem self_eq_shown_iff (pre : List DialogEvent) :
    (run (handle toNativeSeparators) start pre).self =
        (run (handle toNativeSeparators) start pre).shown ↔
      Announced toNativeSeparators pre := by
  have hname := self_name_run toNativeSeparators pre
  have hsource := (follows toNativeSeparators .source).mirror_eq_shown_iff start pre
  have hdestination := (follows toNativeSeparators .destination).mirror_eq_shown_iff start pre
  have htype := (follows toNativeSeparators .type).mirror_eq_shown_iff start pre
  have hdirection := (follows toNativeSeparators .direction).mirror_eq_shown_iff start pre
  refine ⟨?_, ?_⟩
  · intro h
    refine ⟨?_, ?_, ?_, ?_⟩
    · exact hsource.mp (congrArg Form.source h)
    · exact hdestination.mp (congrArg Form.destination h)
    · exact htype.mp (congrArg Form.type h)
    · exact hdirection.mp (congrArg Form.direction h)
  · intro h'
    obtain ⟨h₁, h₂, h₃, h₄⟩ := h'
    -- the name is in step by itself
    apply Form.ext
    · exact hname
    · exact hsource.mpr h₁
    · exact hdestination.mpr h₂
    · exact htype.mpr h₃
    · exact hdirection.mpr h₄

/-- The form sends what it shows throughout a run iff every click in add
mode comes when the four controls have been announced. -/
theorem sendsWhatItShows_iff (es : List DialogEvent) :
    SendsWhatItShows toNativeSeparators es ↔
      ∀ pre, pre ++ [.mainButton] <+: es →
        (run (handle toNativeSeparators) start pre).isEditMode ≠ 1 →
        Announced toNativeSeparators pre := by
  simp only [SendsWhatItShows, self_eq_shown_iff]

end Dialog

end Events

/-- Opening the dialog and clicking: it shows `Local`, the member is `local`. -/
theorem not_sendsWhatItShows_untouched :
    ¬ ∀ (toNativeSeparators : String → String) (es : List DialogEvent),
      Dialog.SendsWhatItShows toNativeSeparators es := by
  intro h
  have htype := h id [.openAdd, .mainButton] [.openAdd] (List.prefix_refl _) (by decide)
  exact absurd htype (by decide)

end SyncServiceUi
