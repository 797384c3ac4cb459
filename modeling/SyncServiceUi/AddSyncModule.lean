/-
SyncServiceUi/AddSyncModule.lean

The slots of the dialog's C++ object that send a request
(`AddSyncModule::onDone` and `onEditModule` in `src/QObjects/AddSyncModule.h`).

Both build a `SyncModule` from five strings and send whatever that gives.
The constructor looks at the filesystem, and on a path that does not exist it
leaves the module blank without telling its caller, so the request describes
the form exactly when the constructor did not reject it (`sends_form_iff`).
-/
import SyncServiceUi.Wire

namespace SyncServiceUi

open Completion

/-- The five values of the form. -/
@[ext]
structure Form where
  name : String
  source : String
  destination : String
  type : String
  direction : String
  deriving DecidableEq, Repr

/-- `AddSyncModule::onDone`, on the members of the C++ object. -/
def onDone (fs : Filesystem) (amb : Ambient) (self : Form) : Except Exn Request := do
  let module ← SyncModule.ofFields fs amb self.name self.source self.destination self.type
    self.direction
  return .add module

/-- `AddSyncModule::onEditModule`. -/
def onEditModule (fs : Filesystem) (amb : Ambient)
    (old_name new_name type direction source destination : String) : Except Exn Request := do
  let module ← SyncModule.ofFields fs amb new_name source destination type direction
  return .edit old_name module

/-- The requests that reach the client: an exception sends none. -/
def sent : Except Exn Request → List Request
  | .ok r => [r]
  | .error _ => []

/-! ### What a request says about the form -/

/-- The JSON object `j` carries the five values of the form. -/
def Carries (j : Json) (form : Form) : Prop :=
  j.member "name" = some (.string form.name) ∧
    j.member "source" = some (.string form.source) ∧
    j.member "destination" = some (.string form.destination) ∧
    j.member "type" = some (.string form.type) ∧
    j.member "direction" = some (.string form.direction)

/-- An add frame for the form. -/
def DescribesAdd (frame : Json) (form : Form) : Prop :=
  frame.member "command" = some (.string "add") ∧
    ∃ data, frame.member "data" = some data ∧ Carries data form

/-- An edit frame that replaces `old_name` by the form. -/
def DescribesEdit (frame : Json) (old_name : String) (form : Form) : Prop :=
  frame.member "command" = some (.string "edit") ∧
    ∃ data module, frame.member "data" = some data ∧
      data.member "name" = some (.string old_name) ∧
      data.member "module" = some module ∧ Carries module form

/-- The constructor finds the source missing, or the source there and the
destination missing. -/
def Rejects (fs : Filesystem) (source destination : Path) : Prop :=
  fs source = .absent ∨ fs source = .present ∧ fs destination = .absent

/-- The form with nothing in it. -/
def Form.empty : Form := ⟨"", "", "", "", ""⟩

/-- The five values a module holds. -/
def SyncModule.form (m : SyncModule) : Form :=
  ⟨m.name, m.source, m.destination, m.type, m.direction⟩

theorem carries_to_json (m : SyncModule) (form : Form) :
    Carries m.to_json form ↔ m.form = form := by
  obtain ⟨name, source, destination, type, direction⟩ := form
  simp [Carries, SyncModule.to_json, SyncModule.form]

theorem describesAdd_json (m : SyncModule) (form : Form) :
    DescribesAdd (Request.add m).json form ↔ m.form = form := by
  simp [DescribesAdd, Request.json, carries_to_json]

theorem describesEdit_json (old_name : String) (m : SyncModule) (form : Form) :
    DescribesEdit (Request.edit old_name m).json old_name form ↔ m.form = form := by
  simp [DescribesEdit, Request.json, carries_to_json]

/-- What comes out of the constructor has the five values it was given iff
they were not rejected, or there was nothing in them to lose. -/
theorem form_ofFields_iff (fs : Filesystem) (amb : Ambient) (form : Form) :
    (∀ m, SyncModule.ofFields fs amb form.name form.source form.destination form.type
        form.direction = .ok m → m.form = form) ↔
      form = Form.empty ∨ ¬ Rejects fs form.source form.destination := by
  simp only [SyncModule.ofFields, SyncModule.ofFieldsInfo_eq, Rejects]
  -- a query that fails sends nothing, a missing path sends the blank module
  rcases hs : fs form.source with - | - | - <;>
    rcases hd : fs form.destination with - | - | - <;>
    simp [SyncModule.form, SyncModule.blank, Form.empty, eq_comm]

theorem mem_sent_bind {x : Except Exn SyncModule} {f : SyncModule → Request} {P : Request → Prop} :
    (∀ r ∈ sent (x >>= fun m => .ok (f m)), P r) ↔ ∀ m, x = .ok m → P (f m) := by
  rcases x with e | m <;> simp [sent, bind, Except.bind]

theorem onDone_describes_iff (fs : Filesystem) (amb : Ambient) (form : Form) :
    (∀ r ∈ sent (onDone fs amb form), DescribesAdd r.json form) ↔
      form = Form.empty ∨ ¬ Rejects fs form.source form.destination := by
  rw [← form_ofFields_iff fs amb form]
  apply mem_sent_bind.trans
  simp only [describesAdd_json]

theorem onEditModule_describes_iff (fs : Filesystem) (amb : Ambient) (old_name : String)
    (form : Form) :
    (∀ r ∈ sent (onEditModule fs amb old_name form.name form.type form.direction form.source
        form.destination), DescribesEdit r.json old_name form) ↔
      form = Form.empty ∨ ¬ Rejects fs form.source form.destination := by
  rw [← form_ofFields_iff fs amb form]
  apply mem_sent_bind.trans
  simp only [describesEdit_json]

/-- Either slot sends nothing, or a request that describes the form, iff the
constructor does not reject the form's paths (or the whole form is empty). -/
theorem sends_form_iff (fs : Filesystem) (amb : Ambient) (form : Form) (old_name : String) :
    ((∀ r ∈ sent (onDone fs amb form), DescribesAdd r.json form) ↔
      form = Form.empty ∨ ¬ Rejects fs form.source form.destination) ∧
    ((∀ r ∈ sent (onEditModule fs amb old_name form.name form.type form.direction form.source
        form.destination), DescribesEdit r.json old_name form) ↔
      form = Form.empty ∨ ¬ Rejects fs form.source form.destination) := by
  refine ⟨?_, ?_⟩
  · exact onDone_describes_iff fs amb form
  · exact onEditModule_describes_iff fs amb old_name form

/-- Saving an edit of a module whose source is not on this machine sends an
edit with empty fields. -/
theorem not_describesEdit_absent :
    ¬ ∀ r ∈ sent (onEditModule (fun _ => .absent) ⟨0, 0, 0⟩ "photos" "photos" "Cloud" "Backup"
        "D:\\photos" "E:\\backup"),
      DescribesEdit r.json "photos" ⟨"photos", "D:\\photos", "E:\\backup", "Cloud", "Backup"⟩ := by
  intro h
  have hsent : sent (onEditModule (fun _ => .absent) ⟨0, 0, 0⟩ "photos" "photos" "Cloud" "Backup"
      "D:\\photos" "E:\\backup") = [.edit "photos" (SyncModule.blank ⟨0, 0, 0⟩)] := rfl
  have hform := (describesEdit_json _ _ _).mp (h _ (hsent ▸ List.mem_singleton_self _))
  revert hform
  decide

end SyncServiceUi
