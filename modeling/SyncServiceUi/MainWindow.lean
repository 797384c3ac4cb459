/-
SyncServiceUi/MainWindow.lean

Connecting to the service (`src/QObjects/MainWindow.h`,
`qml/screens/MainWindow.qml`).

Every call of `onConnectToService` starts a thread that tries to connect.  A
thread that succeeds queues `serviceConnected` to the UI thread, and only the
delivery of that event hides the Connect button and starts a thread running
`start_reading`.  Threads report and events are delivered in any order, so
the state counts them.

The button is the one thing that keeps a second loop from being started, and
it disappears late: what happens between a click and the delivery is not
guarded (`oneReader_iff`).
-/
import SyncServiceUi.Runs

namespace SyncServiceUi

open Runs

/-! ### The steps -/

/-- The window's part in connecting: whether `serviceStatus`, the panel of
the Connect button, is visible; the threads inside `start_connection`; the
`serviceConnected` events in the queue; the threads inside `start_reading`. -/
structure MainWindow where
  serviceStatus : Bool
  connecting : ℕ
  serviceConnected : ℕ
  reading : ℕ
  deriving DecidableEq, Repr

inductive ConnectionEvent where
  /-- A click on the Connect button. -/
  | connectToService
  /-- `start_connection` returns 1. -/
  | connection_started
  /-- `start_connection` returns 0. -/
  | connection_failed
  /-- The UI thread takes a `serviceConnected` event off its queue. -/
  | serviceConnected
  /-- `start_reading` ends. -/
  | reading_ended
  deriving DecidableEq, Repr

namespace MainWindow

def onConnectToService (w : MainWindow) : MainWindow :=
  { w with connecting := w.connecting + 1 }

/-- The two handlers of `serviceConnected`: the window's, which hides the
panel, and `onServiceConnected`. -/
def onServiceConnected (w : MainWindow) : MainWindow :=
  { w with serviceStatus := false, reading := w.reading + 1 }

/-- The window as `startup_routine` leaves it. -/
def start : MainWindow :=
  onConnectToService ⟨true, 0, 0, 0⟩

def step (w : MainWindow) : ConnectionEvent → MainWindow
  | .connectToService => w.onConnectToService
  | .connection_started =>
      { w with connecting := w.connecting - 1, serviceConnected := w.serviceConnected + 1 }
  | .connection_failed => { w with connecting := w.connecting - 1 }
  | .serviceConnected =>
      { w with serviceConnected := w.serviceConnected - 1 }.onServiceConnected
  | .reading_ended => { w with reading := w.reading - 1 }

/-- What can happen: the button can be clicked while its panel is visible,
and a thread or an event must be there to be heard of. -/
def Enabled (w : MainWindow) : ConnectionEvent → Prop
  | .connectToService => w.serviceStatus = true
  | .connection_started => 0 < w.connecting
  | .connection_failed => 0 < w.connecting
  | .serviceConnected => 0 < w.serviceConnected
  | .reading_ended => 0 < w.reading

instance (w : MainWindow) (e : ConnectionEvent) : Decidable (w.Enabled e) := by
  cases e <;> unfold Enabled <;> infer_instance

/-! ### One loop at a time -/

def OneReader (w : MainWindow) : Prop :=
  w.reading ≤ 1

/-- No loop is running when an event that starts one is delivered. -/
def DeliversWhenFree (w : MainWindow) (e : ConnectionEvent) : Prop :=
  e = .serviceConnected → w.reading = 0

/-- No attempt to connect is under way when the button is clicked: no thread
is trying and no success waits to be delivered. -/
def ClicksWhenIdle (w : MainWindow) (e : ConnectionEvent) : Prop :=
  e = .connectToService → w.connecting = 0 ∧ w.serviceConnected = 0

theorem oneReader_step (w : MainWindow) (e : ConnectionEvent) (h : w.OneReader) :
    (w.step e).OneReader ↔ w.DeliversWhenFree e := by
  unfold OneReader at h
  cases e with
  | serviceConnected => simp [OneReader, DeliversWhenFree, step, onServiceConnected]
  | reading_ended =>
      refine iff_of_true ?_ (by simp [DeliversWhenFree])
      show w.reading - 1 ≤ 1
      omega
  | _ => exact iff_of_true h (by simp [DeliversWhenFree])

/-- There is one attempt at most, and once it has led to a delivery there is
none. -/
structure OneAttempt (w : MainWindow) : Prop where
  visible : w.serviceStatus = true → w.connecting + w.serviceConnected ≤ 1 ∧ w.reading = 0
  hidden : w.serviceStatus = false → w.connecting + w.serviceConnected = 0 ∧ w.reading ≤ 1

theorem oneAttempt_step (w : MainWindow) (e : ConnectionEvent) (h : w.OneAttempt)
    (he : w.Enabled e ∧ w.ClicksWhenIdle e) : (w.step e).OneAttempt := by
  obtain ⟨hvisible, hhidden⟩ := h
  obtain ⟨henabled, hidle⟩ := he
  cases e with
  | connectToService =>
      have hshown : w.serviceStatus = true := henabled
      obtain ⟨hconnecting, hqueued⟩ := hidle rfl
      refine ⟨?_, ?_⟩
      · intro _
        show w.connecting + 1 + w.serviceConnected ≤ 1 ∧ w.reading = 0
        exact ⟨by omega, (hvisible hshown).2⟩
      · intro hgone
        exact absurd (hshown.symm.trans hgone) (by decide)
  | serviceConnected =>
      have hqueued : 0 < w.serviceConnected := henabled
      refine ⟨?_, ?_⟩
      · intro hshown
        cases hshown
      · intro _
        show w.connecting + (w.serviceConnected - 1) = 0 ∧ w.reading + 1 ≤ 1
        -- with an event in the queue, the panel is still there
        rcases hshown : w.serviceStatus with - | -
        · have := (hhidden hshown).1
          omega
        · have := hvisible hshown
          omega
  | connection_started =>
      have hconnecting : 0 < w.connecting := henabled
      refine ⟨?_, ?_⟩
      · intro hshown
        have := hvisible hshown
        show w.connecting - 1 + (w.serviceConnected + 1) ≤ 1 ∧ w.reading = 0
        omega
      · intro hgone
        have := (hhidden hgone).1
        omega
  | connection_failed =>
      refine ⟨?_, ?_⟩
      · intro hshown
        have := hvisible hshown
        show w.connecting - 1 + w.serviceConnected ≤ 1 ∧ w.reading = 0
        omega
      · intro hgone
        have := hhidden hgone
        show w.connecting - 1 + w.serviceConnected = 0 ∧ w.reading ≤ 1
        omega
  | reading_ended =>
      refine ⟨?_, ?_⟩
      · intro hshown
        have := hvisible hshown
        show w.connecting + w.serviceConnected ≤ 1 ∧ w.reading - 1 = 0
        omega
      · intro hgone
        have := hhidden hgone
        show w.connecting + w.serviceConnected = 0 ∧ w.reading - 1 ≤ 1
        omega

/-- A click made while an attempt is under way can lead to two loops, without
another click. -/
theorem exists_two_readers {w : MainWindow} (hbusy : ¬ w.ClicksWhenIdle .connectToService) :
    ∃ rest, (∀ e ∈ rest, e ≠ .connectToService) ∧
      Meets step Enabled (w.step .connectToService) rest ∧
      2 ≤ (run step (w.step .connectToService) rest).reading := by
  have hunder : 0 < w.connecting + w.serviceConnected := by
    rw [Nat.pos_iff_ne_zero]
    intro h
    apply hbusy
    intro _
    omega
  rcases hqueued : w.serviceConnected with - | n
  · -- both threads succeed
    refine ⟨[.connection_started, .connection_started, .serviceConnected, .serviceConnected],
      by simp, ?_, ?_⟩
    · simp [Meets, Enabled, step, onConnectToService, onServiceConnected]
      omega
    · simp [step, onConnectToService, onServiceConnected]
  · -- one success is queued already
    refine ⟨[.connection_started, .serviceConnected, .serviceConnected], by simp, ?_, ?_⟩
    · simp [Meets, Enabled, step, onConnectToService, onServiceConnected]
      omega
    · simp [step, onConnectToService, onServiceConnected]

/-- At most one loop runs at a time throughout a run iff every event is
delivered when none is running.  Clicking only when no attempt is under way
is enough for it, in whatever order the threads report; a run in which the
button is clicked otherwise could have gone on to two loops. -/
theorem oneReader_iff (events : List ConnectionEvent)
    (hrun : Meets step Enabled start events) :
    (Always step OneReader start events ↔ Meets step DeliversWhenFree start events) ∧
    (Meets step ClicksWhenIdle start events → Always step OneReader start events) ∧
    (¬ Meets step ClicksWhenIdle start events →
      ∃ pre rest, pre <+: events ∧ (∀ e ∈ rest, e ≠ .connectToService) ∧
        Meets step Enabled start (pre ++ rest) ∧
        2 ≤ (run step start (pre ++ rest)).reading) := by
  refine ⟨?_, ?_, ?_⟩
  · exact always_iff_meets oneReader_step (Nat.zero_le 1)
  · intro hidle
    have hstart : start.OneAttempt := ⟨fun _ => ⟨Nat.le_refl 1, rfl⟩, fun h => by cases h⟩
    have hinv := always_of_meets oneAttempt_step hstart (meets_and.mpr ⟨hrun, hidle⟩)
    intro pre hpre
    obtain ⟨hvisible, hhidden⟩ := hinv pre hpre
    rcases hshown : (run step start pre).serviceStatus with - | -
    · exact (hhidden hshown).2
    · have hnone := (hvisible hshown).2
      show (run step start pre).reading ≤ 1
      omega
  · intro hbusy
    obtain ⟨pre, e, hpre, -, hnot⟩ := exists_of_not_meets hbusy
    obtain rfl : e = .connectToService := by
      by_contra hne
      exact hnot fun h => absurd h hne
    obtain ⟨tail, rfl⟩ := hpre
    obtain ⟨hbefore, henabled, -⟩ := meets_append.mp (meets_append.mp hrun).1
    obtain ⟨rest, hrest, hmeets, htwo⟩ := exists_two_readers hnot
    refine ⟨pre ++ [.connectToService], rest, List.prefix_append _ _, hrest, ?_, ?_⟩
    · rw [List.append_assoc]
      exact meets_append.mpr ⟨hbefore, henabled, hmeets⟩
    · rw [List.append_assoc, run_append]
      exact htwo

/-- Connecting at startup and losing the connection again. -/
theorem oneReader_once :
    Always step OneReader start [.connection_started, .serviceConnected, .reading_ended] := by
  obtain ⟨-, henough, -⟩ :=
    oneReader_iff [.connection_started, .serviceConnected, .reading_ended]
      (by simp [Meets, Enabled, step, start, onConnectToService, onServiceConnected])
  exact henough (by simp [Meets, ClicksWhenIdle])

/-- The user clicks while the attempt of the startup is under way, and both
attempts succeed: two loops. -/
theorem not_oneReader_click_at_startup :
    ¬ ∀ events, Meets step Enabled start events → Always step OneReader start events := by
  intro h
  have hone := h [.connectToService, .connection_started, .connection_started, .serviceConnected,
    .serviceConnected]
    (by simp [Meets, Enabled, step, start, onConnectToService, onServiceConnected])
  exact absurd hone.last (by unfold OneReader; decide)

end MainWindow

end SyncServiceUi
