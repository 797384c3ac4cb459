/-
SyncServiceUi/ApplicationRuns.lean

What holds of the client in every run, however the threads and the user take
turns.

The measure is the catalog: the modules the table is declared with and what
the signals delivered so far make of them, nothing lost.  The table never
shows anything that is not in the catalog (`content_le_catalog`), so a
`remove` or a `sync` is for a module of the catalog, and an `edit` for one
that was in it when its window was opened (`requests_catalog`).  The table
shows all of the catalog iff no module comes while it is sorted by Progress
(`content_eq_catalog_iff`).  Together with the law of the reading thread this
says what the table shows in terms of the bytes received, whatever the user
does meanwhile (`content_of_chunks`).
-/
import SyncServiceUi.Application
import SyncServiceUi.Loopback

namespace SyncServiceUi

open Framing Runs

/-! ### The catalog -/

section Catalog

variable (lower : String → String)

/-- What a signal says about the modules there are. -/
def catalogStep (modules : Multiset ModuleEntry) : Signal → Multiset ModuleEntry
  | .modulesFetched fetched => (fetched.map SyncModule.fetchedEntry : List ModuleEntry) + modules
  | .moduleAdded name source destination type direction =>
      ⟨name, source, destination, type, direction⟩ ::ₘ modules
  | .moduleDeleted name => modules.filter fun m => lower m.name ≠ lower name
  | .modifyCompletion _ _ => modules
  | .errorThrown _ => modules

/-- What a signal makes the QML table receive. -/
def Signal.messages : Signal → List Message
  | .modulesFetched fetched =>
      fetched.map (fun module => .add module.fetchedEntry) ++ [.progress "Module8" fetchedProgress]
  | .moduleAdded name source destination type direction =>
      [.add ⟨name, source, destination, type, direction⟩]
  | .moduleDeleted name => [.delete name]
  | .modifyCompletion name value => [.progress name value]
  | .errorThrown _ => []

theorem receive_qObj (o : TableObject) (signal : Signal) :
    (o.receive lower signal).qObj = run (SyncTable.receive lower) o.qObj signal.messages := by
  cases signal with
  | modulesFetched fetched =>
      show (o.onModulesFetched lower fetched).qObj = _
      rw [TableObject.onModulesFetched_eq, Signal.messages, run_append]
      rfl
  | _ => rfl

namespace SyncTable

/-- What a message says about the modules there are. -/
def messageStep (modules : Multiset ModuleEntry) (msg : Message) : Multiset ModuleEntry :=
  contentStep lower modules (.receive msg)

theorem monotone_messageStep (msg : Message) :
    Monotone fun modules => messageStep lower modules msg := by
  intro modules modules' h
  cases msg with
  | add m => exact (Multiset.cons_le_cons_iff m).mpr h
  | delete name => exact Multiset.filter_le_filter _ h
  | _ => exact h

theorem content_receive_le (t : SyncTable) (msg : Message) :
    content (t.receive lower msg) ≤ messageStep lower (content t) msg := by
  by_cases hcan : CanAdd t (.receive msg)
  · exact ((content_receive_iff lower t msg).mpr hcan).le
  · -- the module is lost
    cases msg with
    | add m =>
        obtain ⟨hcol, hrows⟩ := not_or.mp hcan
        rw [receive_add_progress lower m (not_not.mp hcol) hrows]
        exact Multiset.le_cons_self _ _
    | _ => exact absurd trivial hcan

theorem content_run_adds_iff (t : SyncTable) (entries : List ModuleEntry) :
    content (run (receive lower) t (entries.map .add)) = entries + content t ↔
      t.sortedColumnIndex ≠ .progress ∨ entries = [] ∨ t.rows = [] ∧ entries.length = 1 := by
  by_cases hcol : t.sortedColumnIndex = .progress
  · refine ⟨?_, ?_⟩
    · intro h
      right
      have hcard := congrArg Multiset.card h
      have hlength := length_run_adds lower t entries
      rw [if_neg (not_not.mpr hcol)] at hlength
      simp only [content, Multiset.coe_card, List.length_map, Multiset.card_add] at hcard
      rw [hlength] at hcard
      by_cases hrows : t.rows = []
      · rw [if_pos hrows] at hcard
        rcases Nat.eq_zero_or_pos entries.length with hzero | hpos
        · exact .inl (List.length_eq_zero_iff.mp hzero)
        · exact .inr ⟨hrows, by omega⟩
      · rw [if_neg hrows] at hcard
        exact .inl (List.length_eq_zero_iff.mp (by omega))
    · rintro (h | rfl | ⟨hrows, hone⟩)
      · exact absurd hcol h
      · exact (zero_add _).symm
      · obtain ⟨m, rfl⟩ := List.length_eq_one_iff.mp hone
        rw [List.map_singleton, run_cons, run_nil, receive_add_nil lower m hrows]
        simp [content, hrows, ModuleEntry.row]
  · obtain ⟨rows, hrun, hperm⟩ := run_adds lower hcol entries
    refine iff_of_true ?_ (.inl hcol)
    rw [hrun, add_comm]
    have hentries : (entries.map ModuleEntry.row).map Row.toModuleEntry = entries := by
      rw [List.map_map]
      exact List.map_id' _
    refine Multiset.coe_eq_coe.mpr ((hperm.map Row.toModuleEntry).trans ?_)
    rw [List.map_append, hentries]

end SyncTable

open SyncTable

theorem catalogStep_eq (modules : Multiset ModuleEntry) (signal : Signal) :
    catalogStep lower modules signal = run (messageStep lower) modules signal.messages := by
  cases signal with
  | modulesFetched fetched =>
      rw [Signal.messages, run_append]
      show _ = run (messageStep lower) modules (fetched.map _)
      induction fetched generalizing modules with
      | nil => exact zero_add _
      | cons module fetched ih =>
          rw [List.map_cons, run_cons, ← ih]
          show _ = _ + (module.fetchedEntry ::ₘ modules)
          rw [catalogStep, List.map_cons, ← Multiset.cons_coe, Multiset.cons_add,
            Multiset.add_cons]
  | _ => rfl

theorem monotone_catalogStep (signal : Signal) :
    Monotone fun modules => catalogStep lower modules signal := by
  intro modules modules' h
  cases signal with
  | modulesFetched fetched => exact add_le_add_right h _
  | moduleAdded name source destination type direction => exact (Multiset.cons_le_cons_iff _).mpr h
  | moduleDeleted name => exact Multiset.filter_le_filter _ h
  | _ => exact h

theorem content_receive_signal_le (o : TableObject) (signal : Signal) :
    content (o.receive lower signal).qObj ≤ catalogStep lower (content o.qObj) signal := by
  rw [receive_qObj, catalogStep_eq]
  exact run_le (content_receive_le lower) (monotone_messageStep lower) o.qObj signal.messages

/-- Every module a signal brings can be added: sorted by Progress, the table
takes one when it is empty. -/
def CanShow (t : SyncTable) : Signal → Prop
  | .modulesFetched fetched =>
      t.sortedColumnIndex ≠ .progress ∨ fetched = [] ∨ t.rows = [] ∧ fetched.length = 1
  | .moduleAdded _ _ _ _ _ => t.sortedColumnIndex ≠ .progress ∨ t.rows = []
  | _ => True

theorem canShow_of_ne_progress {t : SyncTable} (h : t.sortedColumnIndex ≠ .progress)
    (signal : Signal) : CanShow t signal := by
  cases signal with
  | modulesFetched fetched => exact .inl h
  | moduleAdded name source destination type direction => exact .inl h
  | _ => trivial

theorem content_receive_signal_iff (o : TableObject) (signal : Signal) :
    content (o.receive lower signal).qObj = catalogStep lower (content o.qObj) signal ↔
      CanShow o.qObj signal := by
  cases signal with
  | modulesFetched fetched =>
      have hadds := content_run_adds_iff lower o.qObj (fetched.map SyncModule.fetchedEntry)
      have hprogress : ∀ t : SyncTable,
          content (t.receive lower (.progress "Module8" fetchedProgress)) = content t := by
        intro t
        exact (content_receive_iff lower t _).mpr trivial
      rw [List.map_eq_nil_iff, List.length_map, List.map_map] at hadds
      rw [receive_qObj, Signal.messages, run_append, run_cons, run_nil, hprogress]
      exact hadds
  | moduleAdded name source destination type direction =>
      exact content_receive_iff lower o.qObj (.add ⟨name, source, destination, type, direction⟩)
  | moduleDeleted name => exact content_receive_iff lower o.qObj (.delete name)
  | modifyCompletion name value => exact content_receive_iff lower o.qObj (.progress name value)
  | errorThrown msg => exact iff_of_true rfl trivial

end Catalog

namespace Application

open SyncTable

section Runs

variable (p : Platform)

/-! ### The table and the catalog -/

/-- The modules there are after the signals delivered so far. -/
def catalog (a : Application) : Multiset ModuleEntry :=
  run (catalogStep p.lower) (content SyncTable.declared) a.history

theorem step_deliver {a : Application} {signal : Signal} {queue : List Signal}
    (h : a.queue = signal :: queue) :
    a.step p .deliver = { a with
      queue
      history := a.history ++ [signal]
      table := a.table.receive p.lower signal
      modal := a.modal.receive signal } := by
  rw [step, onDeliver, h]

theorem step_deliver_nil {a : Application} (h : a.queue = []) : a.step p .deliver = a := by
  rw [step, onDeliver, h]

/-- A delivery is all that changes what the table shows. -/
theorem content_step (a : Application) {e : AppEvent} (he : e ≠ .deliver) :
    content (a.step p e).table.qObj = content a.table.qObj ∧ (a.step p e).history = a.history := by
  cases e with
  | deliver => exact absurd rfl he
  | reverseSort column =>
      exact ⟨(content_handle_iff p.sorter p.lower a.table.qObj (.reverseSort column)).mpr trivial, rfl⟩
  | _ => exact ⟨rfl, rfl⟩

theorem content_start : content (start p).table.qObj = (start p).catalog p := by
  have hmessages : content (start p).table.qObj = content (SyncTable.start p.sorter p.lower) := by
    have hquiet : ∀ (msgs : List Message), (∀ m, .add m ∉ msgs) → (∀ name, .delete name ∉ msgs) →
        ∀ t : SyncTable, content (run (SyncTable.receive p.lower) t msgs) = content t := by
      intro msgs hadd hdelete
      induction msgs with
      | nil => exact fun _ => rfl
      | cons msg msgs ih =>
          intro t
          have hmsg : content (t.receive p.lower msg) = content t := by
            cases msg with
            | add m => exact absurd List.mem_cons_self (hadd m)
            | delete name => exact absurd List.mem_cons_self (hdelete name)
            | _ => exact (content_receive_iff p.lower t _).mpr trivial
          rw [run_cons, ih (fun m h => hadd m (List.mem_cons_of_mem _ h))
            (fun name h => hdelete name (List.mem_cons_of_mem _ h)), hmsg]
    exact hquiet constructorMessages (by simp [constructorMessages])
      (by simp [constructorMessages]) _
  obtain ⟨rows, hok, hperm, -⟩ := onCompleted_spec p.sorter p.lower SyncTable.declared
  have hsorted : content (SyncTable.start p.sorter p.lower) = content SyncTable.declared := by
    rw [SyncTable.start, hok]
    exact Multiset.coe_eq_coe.mpr (hperm.map _)
  exact hmessages.trans hsorted

/-- The table never shows more than there is. -/
theorem content_le_catalog (events : List AppEvent) :
    Always (step p) (fun a => content a.table.qObj ≤ a.catalog p) (start p) events := by
  have hstep : ∀ (a : Application) (e : AppEvent), content a.table.qObj ≤ a.catalog p →
      content (a.step p e).table.qObj ≤ (a.step p e).catalog p := by
    intro a e h
    by_cases he : e = .deliver
    · subst he
      cases hqueue : a.queue with
      | nil =>
          rw [step_deliver_nil p hqueue]
          exact h
      | cons signal queue =>
          rw [step_deliver p hqueue, catalog, run_append]
          exact (content_receive_signal_le p.lower a.table signal).trans
            (monotone_catalogStep p.lower signal h)
    · obtain ⟨hcontent, hhistory⟩ := content_step p a he
      rw [hcontent, catalog, hhistory]
      exact h
  exact always_of_invariant hstep (content_start p).le events

/-- What is delivered now can be shown. -/
def Shows (a : Application) (e : AppEvent) : Prop :=
  e = .deliver → ∀ signal ∈ a.queue.head?, CanShow a.table.qObj signal

theorem content_eq_step_iff (a : Application) (e : AppEvent)
    (h : content a.table.qObj = a.catalog p) :
    content (a.step p e).table.qObj = (a.step p e).catalog p ↔ Shows a e := by
  by_cases he : e = .deliver
  · subst he
    cases hqueue : a.queue with
    | nil =>
        rw [step_deliver_nil p hqueue]
        exact iff_of_true h (by simp [Shows, hqueue])
    | cons signal queue =>
        have hsignal := content_receive_signal_iff p.lower a.table signal
        rw [h] at hsignal
        rw [step_deliver p hqueue, catalog, run_append]
        refine hsignal.trans ?_
        simp [Shows, hqueue]
  · obtain ⟨hcontent, hhistory⟩ := content_step p a he
    refine iff_of_true ?_ fun hdeliver => absurd hdeliver he
    rw [hcontent, catalog, hhistory]
    exact h

/-- Throughout a run the table shows everything there is iff no module is
delivered while the table is sorted by Progress and has rows. -/
theorem content_eq_catalog_iff (events : List AppEvent) :
    Always (step p) (fun a => content a.table.qObj = a.catalog p) (start p) events ↔
      Meets (step p) Shows (start p) events :=
  always_iff_meets (content_eq_step_iff p) (content_start p)

/-! ### What is requested -/

/-- A module that can be asked about is in the catalog. -/
theorem mem_catalog {a : Application} (h : content a.table.qObj ≤ a.catalog p) {row : ℕ} {module : Row}
    (hrow : a.getModuleByRowIndex row = some module) : module.toModuleEntry ∈ a.catalog p := by
  refine Multiset.mem_of_le h ?_
  have hmem : module ∈ a.table.qObj.rows := List.mem_of_getElem? hrow
  exact Multiset.mem_coe.mpr (List.mem_map.mpr ⟨module, hmem, rfl⟩)

theorem sender_step (a : Application) (e : AppEvent) :
    (a.step p e).sender = run (send p.lib) a.sender (a.calls e) := by
  cases e with
  | deliver =>
      cases hqueue : a.queue with
      | nil =>
          rw [step_deliver_nil p hqueue]
          rfl
      | cons signal queue =>
          rw [step_deliver p hqueue]
          rfl
  | _ => rfl

/-- The dialog goes through a run of its own. -/
theorem dialog_run (a : Application) (events : List AppEvent) :
    (run (step p) a events).dialog =
      run (Dialog.handle p.toNativeSeparators) a.dialog (trace (step p) dialogEvents a events) := by
  refine run_trace ?_ a events
  intro a e
  cases e with
  | deliver =>
      cases hqueue : a.queue with
      | nil =>
          rw [step_deliver_nil p hqueue]
          rfl
      | cons signal queue =>
          rw [step_deliver p hqueue]
          rfl
  | _ => rfl

/-- Only the menu of a row asks for a removal or a synchronisation. -/
theorem exists_menu_of_mem {a : Application} {e : AppEvent} {name : String}
    (h : .remove name ∈ a.requests e ∨ .sync name ∈ a.requests e) :
    ∃ row module, a.getModuleByRowIndex row = some module ∧ module.name = name := by
  cases e with
  | menu item row accepted =>
      cases hrow : a.getModuleByRowIndex row with
      | none => cases item <;> simp [requests, hrow] at h
      | some module => cases item <;> simp [requests, hrow] at h <;> exact ⟨row, module, hrow, h.symm⟩
  | dialog e fs amb accepted =>
      have hsent : ∀ r ∈ a.dialog.sends fs amb, r ≠ .remove name ∧ r ≠ .sync name := by
        unfold Dialog.sends
        split <;> exact mem_sent_bind.mpr fun m _ => ⟨by simp, by simp⟩
      cases e with
      | mainButton =>
          rcases h with h | h
          · exact absurd rfl (hsent _ h).1
          · exact absurd rfl (hsent _ h).2
      | _ => simp [requests] at h
  | _ => simp [requests] at h

/-- Only the main button of the dialog, in edit mode, asks for an edit. -/
theorem eq_mainButton_of_mem {a : Application} {e : AppEvent} {old : String} {module : SyncModule}
    (h : .edit old module ∈ a.requests e) :
    (∃ fs amb accepted, e = .dialog .mainButton fs amb accepted) ∧ a.dialog.isEditMode = 1 ∧
      a.dialog.oldModuleName = old := by
  cases e with
  | menu item row accepted =>
      cases hrow : a.getModuleByRowIndex row <;> cases item <;> simp [requests, hrow] at h
  | dialog e fs amb accepted =>
      cases e with
      | mainButton =>
          have hsent : ∀ r ∈ a.dialog.sends fs amb, r = .edit old module →
              a.dialog.isEditMode = 1 ∧ a.dialog.oldModuleName = old := by
            unfold Dialog.sends
            split
            next hmode =>
              refine mem_sent_bind.mpr fun m _ => ?_
              intro hedit
              exact ⟨hmode, (Request.edit.inj hedit).1⟩
            next hmode =>
              refine mem_sent_bind.mpr fun m _ => ?_
              intro hedit
              cases hedit
          exact ⟨⟨fs, amb, accepted, rfl⟩, hsent _ h rfl⟩
      | _ => simp [requests] at h
  | _ => simp [requests] at h

/-- Steps that leave the row being edited alone. -/
def Keeps (e : AppEvent) : Prop :=
  (∀ row accepted, e ≠ .menu .edit row accepted) ∧
    ∀ fs amb accepted, e ≠ .dialog .openAdd fs amb accepted ∧
      e ≠ .dialog .mainButton fs amb accepted

theorem exists_module {a : Application} {row : ℕ} (h : row < a.table.qObj.rows.length) :
    ∃ module, a.getModuleByRowIndex row = some module :=
  ⟨_, List.getElem?_eq_getElem h⟩

/-- In an allowed run the dialog is opened for a row by its menu only. -/
theorem exists_menu_of_openEdit {before : List AppEvent} {row : Form} {xs ys : List DialogEvent}
    (hrun : Meets (step p) Enabled (start p) before)
    (htrace : trace (step p) dialogEvents (start p) before = xs ++ .openEdit row :: ys)
    (hkeeps : ∀ e ∈ ys, Dialog.Keeps e) :
    ∃ earlier ix accepted module later, before = earlier ++ .menu .edit ix accepted :: later ∧
      (run (step p) (start p) earlier).getModuleByRowIndex ix = some module ∧
      module.name = row.name ∧ ∀ e ∈ later, Keeps e := by
  obtain ⟨earlier, e, later, u, v, rfl, hout, rfl⟩ := exists_of_trace_eq htrace
  obtain ⟨-, henabled, hlater⟩ := meets_append.mp hrun
  -- what comes later does not open the dialog again, and does not save
  have hkeepsLater : ∀ x ∈ later, Keeps x := by
    intro x hx
    obtain ⟨pre, post, rfl⟩ := List.append_of_mem hx
    obtain ⟨-, hx, -⟩ := meets_append.mp hlater
    have hevents : ∀ y ∈ (run (step p) _ pre).dialogEvents x, Dialog.Keeps y := fun y hy =>
      hkeeps y <| List.mem_append_right _ <|
        mem_trace.mpr ⟨pre, x, by simp [List.prefix_append_right_inj], hy⟩
    refine ⟨?_, fun fs amb accepted => ⟨?_, ?_⟩⟩
    · rintro row accepted rfl
      obtain ⟨module, hmodule⟩ := exists_module hx.2
      refine (hevents module.handleEdit ?_).1 _ rfl
      simp [dialogEvents, hmodule]
    · rintro rfl
      exact (hevents .openAdd (List.mem_singleton_self _)).2.1 rfl
    · rintro rfl
      exact (hevents .mainButton (List.mem_singleton_self _)).2.2 rfl
  have hmem : .openEdit row ∈ (run (step p) (start p) earlier).dialogEvents e := by
    rw [hout]
    simp
  cases e with
  | menu item ix accepted =>
      cases item with
      | edit =>
          obtain ⟨module, hmodule, hrow⟩ := List.mem_map.mp hmem
          obtain rfl := DialogEvent.openEdit.inj hrow
          exact ⟨earlier, ix, accepted, module, later, rfl, Option.mem_toList.mp hmodule, rfl,
            hkeepsLater⟩
      | _ => cases hmem
  | dialog e fs amb accepted =>
      exact absurd (List.mem_singleton.mp hmem).symm (henabled.2.2 row)
  | _ => cases hmem

/-- A `remove` and a `sync` are for a module of the catalog.  An `edit` is for
a module that was in it when the dialog was opened, by the entry of a row's
menu; it need not be there any more.  Since then the dialog has not been opened
again, nor saved. -/
theorem requests_catalog (events : List AppEvent) (hrun : Meets (step p) Enabled (start p) events)
    {before : List AppEvent} {e : AppEvent} (hbefore : before ++ [e] <+: events) :
    (∀ name, .remove name ∈ (run (step p) (start p) before).requests e ∨
        .sync name ∈ (run (step p) (start p) before).requests e →
      ∃ m ∈ (run (step p) (start p) before).catalog p, m.name = name) ∧
    (∀ old module, .edit old module ∈ (run (step p) (start p) before).requests e →
      ∃ earlier row accepted module later, before = earlier ++ .menu .edit row accepted :: later ∧
        (run (step p) (start p) earlier).getModuleByRowIndex row = some module ∧
        module.name = old ∧
        module.toModuleEntry ∈ (run (step p) (start p) earlier).catalog p ∧
        ∀ x ∈ later, Keeps x) := by
  obtain ⟨rest, rfl⟩ := hbefore
  have hruns := meets_append.mp (meets_append.mp hrun).1
  have hshown : ∀ earlier, (content (run (step p) (start p) earlier).table.qObj) ≤
      (run (step p) (start p) earlier).catalog p := by
    intro earlier
    exact (content_le_catalog p earlier).last
  refine ⟨?_, ?_⟩
  · intro name h
    obtain ⟨row, module, hmodule, hname⟩ := exists_menu_of_mem h
    exact ⟨module.toModuleEntry, mem_catalog p (hshown before) hmodule, hname⟩
  · intro old module h
    obtain ⟨⟨fs, amb, accepted, rfl⟩, hmode, rfl⟩ := eq_mainButton_of_mem h
    obtain ⟨hbeforeRun, henabled, -⟩ := hruns
    -- the window is visible, so the row it was opened for is being edited
    have hvisible := henabled.2.1 (.inl rfl)
    have hdialog : (run (step p) (start p) before).dialog = run (Dialog.handle p.toNativeSeparators)
        Dialog.start (trace (step p) dialogEvents (start p) before) := dialog_run p (start p) before
    have htracks := Dialog.tracks_run p.toNativeSeparators
      (trace (step p) dialogEvents (start p) before)
    rw [← hdialog] at htracks
    obtain ⟨dialogBefore, row, mid, htrace, hname, hmid⟩ := Dialog.exists_openEdit
      (htracks hvisible hmode)
    obtain ⟨earlier, ix, accepted', module', later, hearlier, hmodule', hname', hlater⟩ :=
      exists_menu_of_openEdit p hbeforeRun htrace hmid
    exact ⟨earlier, ix, accepted', module', later, hearlier, hmodule', hname'.trans hname,
      mem_catalog p (hshown earlier) hmodule', hlater⟩

/-- Insertion sort, ASCII letters only, and the parser and serializer of the
library. -/
def plain : Platform :=
  ⟨.insertion, fun s => String.ofList (s.toList.map Char.toLower), id, nlohmann fun _ => ""⟩

/-- The first row is opened, renamed and saved, and the second one removed. -/
def editThenDelete : List AppEvent :=
  [.menu .edit 0 0, .dialog (.typeName "renamed") (fun _ => .present) ⟨0, 0, 0⟩ 0,
    .dialog .mainButton (fun _ => .present) ⟨0, 0, 0⟩ 300, .menu .delete 1 100]

theorem requests_catalog_editThenDelete :
    (∃ earlier row accepted module later,
      editThenDelete.take 2 = earlier ++ .menu .edit row accepted :: later ∧
        (run (step plain) (start plain) earlier).getModuleByRowIndex row = some module ∧
        module.name = "Module10" ∧
        module.toModuleEntry ∈ (run (step plain) (start plain) earlier).catalog plain ∧
        ∀ x ∈ later, Keeps x) ∧
      ∃ m ∈ (run (step plain) (start plain) (editThenDelete.take 3)).catalog plain,
        m.name = "Module11" := by
  have hrun : Meets (step plain) Enabled (start plain) editThenDelete := by
    refine ⟨⟨fun _ _ h => (nomatch h), by decide +kernel⟩,
      ⟨fun _ _ h => (nomatch h), by decide +kernel, by simp⟩,
      ⟨fun _ _ h => (nomatch h), by decide +kernel, by simp⟩,
      ⟨fun _ _ h => (nomatch h), by decide +kernel⟩, trivial⟩
  have hsave : editThenDelete.take 2 ++
      [.dialog .mainButton (fun _ => .present) ⟨0, 0, 0⟩ 300] <+: editThenDelete :=
    ⟨[.menu .delete 1 100], rfl⟩
  have hdelete : editThenDelete.take 3 ++ [.menu .delete 1 100] <+: editThenDelete := ⟨[], rfl⟩
  obtain ⟨module, hedit⟩ : ∃ module, .edit "Module10" module ∈
      (run (step plain) (start plain) (editThenDelete.take 2)).requests
        (.dialog .mainButton (fun _ => .present) ⟨0, 0, 0⟩ 300) :=
    ⟨⟨"renamed", "/cloud/storage/source10", "/cloud/storage/dest10", "Local", "One-way",
      ⟨"renamed", 0, "", 1⟩⟩, by decide +kernel⟩
  have hremove : .remove "Module11" ∈
      (run (step plain) (start plain) (editThenDelete.take 3)).requests (.menu .delete 1 100) := by
    decide +kernel
  exact ⟨(requests_catalog plain editThenDelete hrun hsave).2 _ module hedit,
    (requests_catalog plain editThenDelete hrun hdelete).1 _ (.inl hremove)⟩

/-! ### From the clicks to the wire -/

/-- The first write of every request takes all of it. -/
def TakesAll (a : Application) (e : AppEvent) : Prop :=
  ∀ r ∈ a.requests e, (r.message p.lib).length ≤ min default_max_transfer_size e.accepted

/-- The bytes on the wire are the requests of the run, one after the other, as
long as none is written in part; so the lines the service reads are their
texts, in the order the user asked for them, and nothing is left over. -/
theorem wire_requests (events : List AppEvent)
    (htakes : Meets (step p) (TakesAll p) (start p) events) :
    split delimitter (run (step p) (start p) events).sender.wire =
      ((trace (step p) requests (start p) events).map (Request.text p.lib), []) := by
  have hwire : ∀ (events : List AppEvent) (a : Application), a.sender.Settled →
      Meets (step p) (TakesAll p) a events →
      (run (step p) a events).sender.wire =
        a.sender.wire ++ (trace (step p) requests a events).flatMap (Request.message p.lib) := by
    intro events
    induction events with
    | nil => exact fun a _ _ => (List.append_nil _).symm
    | cons e events ih =>
        intro a hsettled h
        obtain ⟨htakes, hrest⟩ := h
        have hcalls : (a.calls e).map Call.request = a.requests e := by
          rw [calls, List.map_map]
          exact List.map_id' _
        have hsend := run_send_of_taken p.lib (a.calls e) hsettled (by
          intro c hc
          obtain ⟨r, hr, rfl⟩ := List.mem_map.mp hc
          exact htakes r hr)
        rw [← sender_step, hcalls] at hsend
        obtain ⟨hsettled', hstep⟩ := hsend
        rw [run_cons, ih _ hsettled' hrest, hstep, trace, List.flatMap_append, List.append_assoc]
  rw [hwire events _ ⟨rfl, rfl⟩ htakes]
  exact split_messages p.lib _

instance (a : Application) (e : AppEvent) : Decidable (TakesAll p a e) :=
  inferInstanceAs (Decidable (∀ r ∈ _, _))

/-- A removal and a synchronisation, one behind the other. -/
theorem wire_requests_deleteThenSync :
    split delimitter (run (step plain) (start plain)
        [.menu .delete 0 60, .reverseSort .name, .menu .sync 5 60]).sender.wire =
      ([(Request.remove "Module10").text plain.lib, (Request.sync "Module10").text plain.lib],
        []) := by
  have hrequests : trace (step plain) requests (start plain)
      [.menu .delete 0 60, .reverseSort .name, .menu .sync 5 60] =
        [.remove "Module10", .sync "Module10"] := by decide +kernel
  have hwire := wire_requests plain [.menu .delete 0 60, .reverseSort .name, .menu .sync 5 60]
    ⟨by decide +kernel, by decide +kernel, by decide +kernel, trivial⟩
  rw [hrequests] at hwire
  exact hwire

/-! ### From the bytes to the table -/

theorem run_next (lib : Nlohmann) (r : Reader) (xs : List ReadResult) :
    run (Status.next lib) (.reading r) xs = start_reading lib r xs := by
  have hstays : ∀ (xs : List ReadResult) (status : Status), (∀ r, status ≠ .reading r) →
      run (Status.next lib) status xs = status := by
    intro xs status hstatus
    induction xs with
    | nil => rfl
    | cons x xs ih =>
        cases status with
        | reading r => exact absurd rfl (hstatus r)
        | returned r => exact ih
        | escaped r e => exact ih
  induction xs generalizing r with
  | nil => rfl
  | cons x xs ih =>
      rw [run_cons, start_reading]
      show run (Status.next lib) (iteration lib r x) xs = _
      cases iteration lib r x with
      | reading r' => exact ih r'
      | returned r' => exact hstays xs _ (by simp)
      | escaped r' e => exact hstays xs _ (by simp)

theorem reader_run (events : List AppEvent) :
    (run (step p) (start p) events).reader =
      start_reading p.lib .start (events.flatMap AppEvent.reads) := by
  have hstep : ∀ (a : Application) (e : AppEvent),
      (a.step p e).reader = run (Status.next p.lib) a.reader e.reads := by
    intro a e
    cases e with
    | deliver =>
        cases hqueue : a.queue with
        | nil =>
            rw [step_deliver_nil p hqueue]
            rfl
        | cons signal queue =>
            rw [step_deliver p hqueue]
            rfl
    | _ => rfl
  rw [run_trace hstep, trace_const]
  exact run_next p.lib .start _

/-- The reading thread never takes back what it has emitted. -/
theorem emitted_next (lib : Nlohmann) (status : Status) (x : ReadResult) :
    status.reader.emitted <+: (status.next lib x).reader.emitted := by
  cases status with
  | reading r =>
      show r.emitted <+: (iteration lib r x).reader.emitted
      cases x with
      | data buf =>
          unfold iteration
          dsimp only
          cases cut delimitter (r.msg ++ buf.1) with
          | none => exact List.prefix_refl _
          | some found =>
              obtain ⟨f, msg⟩ := found
              dsimp only
              by_cases hwf : WellFormed lib f
              · rw [handle_frame_of_wellFormed hwf]
                exact List.prefix_append _ _
              · obtain ⟨e, he⟩ := @handle_frame_of_not_wellFormed lib { r with msg } f hwf
                rw [he]
                exact List.prefix_refl _
      | _ => exact List.prefix_refl _
  | _ => exact List.prefix_refl _

/-- Nothing is lost in the queue, and nothing overtakes. -/
theorem history_append_queue (events : List AppEvent) :
    Always (step p) (fun a => a.history ++ a.queue = a.reader.reader.emitted) (start p) events := by
  have hstep : ∀ (a : Application) (e : AppEvent),
      a.history ++ a.queue = a.reader.reader.emitted →
      (a.step p e).history ++ (a.step p e).queue = (a.step p e).reader.reader.emitted := by
    intro a e h
    cases e with
    | read x =>
        obtain ⟨posted, hposted⟩ := emitted_next p.lib a.reader x
        show a.history ++ (a.queue ++ (a.reader.next p.lib x).reader.emitted.drop _) = _
        rw [← hposted, List.drop_left, ← List.append_assoc, h]
        exact hposted
    | deliver =>
        cases hqueue : a.queue with
        | nil =>
            rw [step_deliver_nil p hqueue]
            exact h
        | cons signal queue =>
            rw [hqueue] at h
            rw [step_deliver p hqueue]
            exact (List.append_assoc ..).trans h
    | _ => exact h
  exact always_of_invariant hstep rfl events

/-- As long as the frames dispatched are well-formed commands, the client
lives, and the signals delivered are the first of those the frames ask for,
in order; and unless a module is lost as in `content_eq_catalog_iff`, the
table shows what they amount to.  What else the user does with headers, menus
and dialog makes no difference. -/
theorem content_of_chunks (events : List AppEvent) (chunks : List Chunk)
    (hreads : events.flatMap AppEvent.reads = chunks.map .data)
    (hwf : ∀ f ∈ dispatched chunks, WellFormed p.lib f) :
    (run (step p) (start p) events).Alive ∧
      (run (step p) (start p) events).history ++ (run (step p) (start p) events).queue =
        (dispatched chunks).flatMap (frameSignals p.lib) ∧
      (Meets (step p) Shows (start p) events →
        content (run (step p) (start p) events).table.qObj =
          run (catalogStep p.lower) (content SyncTable.declared)
            (run (step p) (start p) events).history) := by
  obtain ⟨r, hr⟩ := (start_reading_data_iff p.lib chunks).mpr hwf
  have hreader := reader_run p events
  rw [hreads, hr] at hreader
  have hinv := readerInv_of_reading hr
  refine ⟨?_, ?_, ?_⟩
  · intro r' e h
    rw [hreader] at h
    cases h
  · rw [(history_append_queue p events).last, hreader, ← hinv.handled]
    exact hinv.emitted
  · intro hshows
    exact ((always_iff_meets (content_eq_step_iff p) (content_start p)).mpr hshows).last

/-- The service adds a module and removes another, in three reads. -/
def threeReads : List Chunk :=
  [⟨utf8 "\x7b\"command\":\"add\",\"data\":\x7b\"name\":\"a\",\"source\":\"/a\",\"desti",
      by decide +kernel⟩,
    ⟨utf8 "nation\":\"/b\",\"type\":\"Local\",\"direction\":\"Backup\"\x7d\x7d\r\n\x7b\"command",
      by decide +kernel⟩,
    ⟨utf8 "\":\"remove\",\"data\":\"Module9\"\x7d\r\n", by decide +kernel⟩]

/-- Meanwhile the user sorts and opens the dialog. -/
def threeReadsEvents : List AppEvent :=
  match threeReads with
  | [first, second, third] =>
      [.read (.data first), .read (.data second), .reverseSort .type, .deliver,
        .dialog .openAdd (fun _ => .absent) ⟨0, 0, 0⟩ 0, .read (.data third), .deliver]
  | _ => []

theorem content_of_chunks_threeReads :
    content (run (step plain) (start plain) threeReadsEvents).table.qObj =
      run (catalogStep plain.lower) (content SyncTable.declared)
        [.moduleAdded "a" "/a" "/b" "Local" "Backup", .moduleDeleted "Module9"] := by
  have hreads : (start_reading plain.lib .start (threeReads.map .data)).isReading = true := by
    decide +kernel
  have hhistory : (run (step plain) (start plain) threeReadsEvents).history =
      [.moduleAdded "a" "/a" "/b" "Local" "Backup", .moduleDeleted "Module9"] := by decide +kernel
  obtain ⟨hadded, hremoved⟩ :
      (run (step plain) (start plain)
          (threeReadsEvents.take 3)).table.qObj.sortedColumnIndex ≠ .progress ∧
        (run (step plain) (start plain)
          (threeReadsEvents.take 6)).table.qObj.sortedColumnIndex ≠ .progress := by decide +kernel
  obtain ⟨-, -, hcontent⟩ := content_of_chunks plain threeReadsEvents threeReads rfl
    ((start_reading_data_iff plain.lib threeReads).mp (Status.exists_reading hreads))
  rw [← hhistory]
  exact hcontent ⟨by simp [Shows], by simp [Shows], by simp [Shows],
    fun _ signal _ => canShow_of_ne_progress hadded signal, by simp [Shows], by simp [Shows],
    fun _ signal _ => canShow_of_ne_progress hremoved signal, trivial⟩

end Runs

end Application

end SyncServiceUi
