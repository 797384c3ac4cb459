/-
SyncServiceUi/Reader.lean

`TcpClient::start_reading` (`src/tcp_client.cpp`): the loop that collects
bytes from the service and hands frames to `command_handler`.

One iteration takes one result of `read_some`.  It appends the bytes to
`msg` and, if `msg` now holds a CRLF, dispatches the frame before the first
one.  One iteration never dispatches two frames, so the loop is a server of
one frame per read, and the number it has dispatched after the reads
`chunks` is `dispatchedCount chunks`, the closed form of `OnePerTick`.

`start_reading_data` is the law of the loop: as long as every dispatched
frame is a well-formed command, the frames dispatched are the first
`dispatchedCount chunks` of the stream and `msg` is what follows them;
`start_reading_data_iff` adds that this is the only way to get through the
reads.
-/
import SyncServiceUi.CommandHandler
import SyncServiceUi.Framing
import SyncServiceUi.OnePerTick

namespace SyncServiceUi

open Completion Emission Framing

/-! ### The loop -/

/-- Bytes one `read_some` delivers into the 128-byte buffer. -/
abbrev Chunk := { buf : Bytes // 0 < buf.length ∧ buf.length ≤ 128 }

/-- Result of one `read_some`. -/
inductive ReadResult where
  | data (buf : Chunk)
  | eof
  | error (code : ℕ)
  deriving DecidableEq

/-- The buffer the loop carries over, with the record of what it did: the
frames passed to the parser and the signals emitted. -/
structure Reader where
  msg : Bytes
  handled : List Bytes
  emitted : List Signal
  deriving DecidableEq

def Reader.start : Reader := ⟨[], [], []⟩

/-- Where the loop stands: at `read_some`, returned, or left by an exception,
which nothing on the thread catches. -/
inductive Status where
  | reading (r : Reader)
  | returned (r : Reader)
  | escaped (r : Reader) (e : Exn)
  deriving DecidableEq

def delimitter : Bytes := [13, 10]

/-- Parse one frame and handle it. -/
def handle_frame (lib : Nlohmann) (r : Reader) (obj_sent : Bytes) : Status :=
  let r := { r with handled := r.handled ++ [obj_sent] }
  match lib.parse obj_sent with
  | none => .escaped r .parse_error
  | some j =>
      match (command_handler lib j).run r.emitted with
      | (.ok _, emitted) => .reading { r with emitted }
      | (.error e, emitted) => .escaped { r with emitted } e

/-- One round of the loop.  The cut is `find`, `substr` and `erase`. -/
def iteration (lib : Nlohmann) (r : Reader) : ReadResult → Status
  | .eof => .returned r
  | .error code => .escaped r (.system_error code)
  | .data buf =>
      let msg := r.msg ++ buf.1
      -- an `if`, not a loop: a second complete frame stays in `msg`
      match cut delimitter msg with
      | none => .reading { r with msg }
      | some (obj_sent, msg) => handle_frame lib { r with msg } obj_sent

/-- The loop over the results of successive reads. -/
def start_reading (lib : Nlohmann) : Reader → List ReadResult → Status
  | r, [] => .reading r
  | r, x :: xs =>
      match iteration lib r x with
      | .reading r' => start_reading lib r' xs
      | .returned r' => .returned r'
      | .escaped r' e => .escaped r' e

/-! ### What the stream holds -/

/-- The bytes of the reads, in order. -/
def stream (chunks : List Chunk) : Bytes :=
  (chunks.map Subtype.val).flatten

/-- Complete frames among the reads. -/
def frameCount (chunks : List Chunk) : ℕ :=
  (frames delimitter (stream chunks)).length

/-- Complete frames among the first `k` reads. -/
def arrivals (chunks : List Chunk) (k : ℕ) : ℕ :=
  frameCount (chunks.take k)

/-- Frames dispatched after all the reads: the least of
`arrivals chunks j + (n - j)` over `j ≤ n`, for `n` reads. -/
def dispatchedCount (chunks : List Chunk) : ℕ :=
  OnePerTick.servedBound (arrivals chunks) chunks.length

/-- The frames dispatched after all the reads. -/
def dispatched (chunks : List Chunk) : List Bytes :=
  (frames delimitter (stream chunks)).take (dispatchedCount chunks)

/-- A frame the parser and the handler both take. -/
def WellFormed (lib : Nlohmann) (f : Bytes) : Prop :=
  ∃ j, lib.parse f = some j ∧ Accepts j

/-- The signals a frame emits. -/
def frameSignals (lib : Nlohmann) (f : Bytes) : List Signal :=
  match lib.parse f with
  | none => []
  | some j => ((command_handler lib j).run []).2

theorem delimitter_ne_nil : delimitter ≠ [] := by simp [delimitter]

theorem stream_append (chunks : List Chunk) (c : Chunk) :
    stream (chunks ++ [c]) = stream chunks ++ c.1 := by
  simp [stream]

theorem frameCount_append_le (chunks : List Chunk) (c : Chunk) :
    frameCount chunks ≤ frameCount (chunks ++ [c]) := by
  show (frames delimitter (stream chunks)).length ≤
    (frames delimitter (stream (chunks ++ [c]))).length
  rw [stream_append]
  apply List.IsPrefix.length_le
  exact frames_prefix_append delimitter_ne_nil _ _

theorem arrivals_zero (chunks : List Chunk) : arrivals chunks 0 = 0 := rfl

theorem dispatchedCount_eq_served (chunks : List Chunk) :
    dispatchedCount chunks = OnePerTick.served (arrivals chunks) chunks.length :=
  (OnePerTick.served_eq_servedBound (arrivals_zero chunks) _).symm

theorem dispatchedCount_le (chunks : List Chunk) : dispatchedCount chunks ≤ frameCount chunks := by
  rw [dispatchedCount_eq_served]
  apply (OnePerTick.served_le _).trans
  show frameCount (chunks.take chunks.length) ≤ frameCount chunks
  rw [List.take_length]

/-- One more read lets one more frame through, if one is there. -/
theorem dispatchedCount_append (chunks : List Chunk) (c : Chunk) :
    dispatchedCount (chunks ++ [c]) =
      min (dispatchedCount chunks + 1) (frameCount (chunks ++ [c])) := by
  have hcongr : OnePerTick.served (arrivals (chunks ++ [c])) chunks.length =
      OnePerTick.served (arrivals chunks) chunks.length := by
    apply OnePerTick.served_congr
    intro k hk
    show frameCount ((chunks ++ [c]).take k) = frameCount (chunks.take k)
    rw [List.take_append_of_le_length hk]
  rw [dispatchedCount_eq_served, dispatchedCount_eq_served, List.length_append,
    List.length_singleton, OnePerTick.served, hcongr, arrivals,
    List.take_of_length_le (by simp)]

/-- The dispatched frames, found in the stream one read later. -/
theorem dispatched_eq_take (chunks : List Chunk) (c : Chunk) :
    dispatched chunks =
      (frames delimitter (stream (chunks ++ [c]))).take (dispatchedCount chunks) := by
  obtain ⟨fs, hfs⟩ := frames_prefix_append delimitter_ne_nil (stream chunks) c.1
  rw [stream_append, ← hfs, List.take_append_of_le_length (dispatchedCount_le chunks), dispatched]

/-- One more read dispatches the next frame, if one is there. -/
theorem dispatched_append (chunks : List Chunk) (c : Chunk) :
    dispatched (chunks ++ [c]) = dispatched chunks ++
      (frames delimitter (stream (chunks ++ [c])))[dispatchedCount chunks]?.toList := by
  rw [dispatched_eq_take chunks c, ← List.take_add_one, dispatched, dispatchedCount_append,
    frameCount, ← List.take_eq_take_min]

/-! ### One frame -/

/-- Handling a well-formed frame goes back to reading. -/
theorem handle_frame_of_wellFormed {lib : Nlohmann} {r : Reader} {f : Bytes}
    (h : WellFormed lib f) :
    handle_frame lib r f = .reading
      { r with handled := r.handled ++ [f], emitted := r.emitted ++ frameSignals lib f } := by
  obtain ⟨j, hj, hacc⟩ := h
  obtain ⟨a, l, hl⟩ : Finishes (command_handler lib j) := finishes_command_handler.mpr hacc
  simp only [handle_frame, frameSignals, hj, hl r.emitted, hl []]
  rfl

/-- Any other frame leaves the loop by an exception, with no signal emitted. -/
theorem handle_frame_of_not_wellFormed {lib : Nlohmann} {r : Reader} {f : Bytes}
    (h : ¬ WellFormed lib f) :
    ∃ e, handle_frame lib r f = .escaped { r with handled := r.handled ++ [f] } e := by
  rcases hj : lib.parse f with - | j
  · exact ⟨.parse_error, by simp [handle_frame, hj]⟩
  · have hreject : ¬ Accepts j := fun haccepts => h ⟨j, hj, haccepts⟩
    obtain ⟨e, he⟩ := @emits_of_not_accepts lib j hreject
    refine ⟨e, ?_⟩
    simp only [handle_frame, hj, he r.emitted, List.append_nil]

theorem frameSignals_of_not_wellFormed {lib : Nlohmann} {f : Bytes} (h : ¬ WellFormed lib f) :
    frameSignals lib f = [] := by
  rcases hj : lib.parse f with - | j
  · simp [frameSignals, hj]
  · have hreject : ¬ Accepts j := fun haccepts => h ⟨j, hj, haccepts⟩
    obtain ⟨e, he⟩ := @emits_of_not_accepts lib j hreject
    simp [frameSignals, hj, he []]

/-! ### The invariant of the loop -/

/-- What holds of the loop at `read_some`, after the reads `chunks`. -/
structure ReaderInv (lib : Nlohmann) (chunks : List Chunk) (r : Reader) : Prop where
  msg : r.msg = afterDelims delimitter (dispatchedCount chunks) (stream chunks)
  handled : r.handled = dispatched chunks
  emitted : r.emitted = r.handled.flatMap (frameSignals lib)
  wellFormed : ∀ f ∈ r.handled, WellFormed lib f

theorem readerInv_start (lib : Nlohmann) : ReaderInv lib [] Reader.start :=
  ⟨rfl, rfl, rfl, by simp [Reader.start]⟩

/-- What the cut of one iteration finds: the next frame not yet dispatched. -/
theorem cut_of_readerInv {lib : Nlohmann} {chunks : List Chunk} {r : Reader}
    (h : ReaderInv lib chunks r) (c : Chunk) :
    cut delimitter (r.msg ++ c.1) =
      (frames delimitter (stream (chunks ++ [c])))[dispatchedCount chunks]?.map fun f =>
        (f, afterDelims delimitter (dispatchedCount chunks + 1) (stream (chunks ++ [c]))) := by
  have hmsg : r.msg ++ c.1 =
      afterDelims delimitter (dispatchedCount chunks) (stream (chunks ++ [c])) := by
    rw [h.msg, stream_append]
    exact (afterDelims_append delimitter_ne_nil c.1 (dispatchedCount_le chunks)).symm
  rw [hmsg]
  exact cut_afterDelims delimitter_ne_nil _ _

/-- A read that completes no new frame: every complete one has been handled
already, and the bytes wait in the buffer. -/
theorem readerInv_append_waiting {lib : Nlohmann} {chunks : List Chunk} {r : Reader}
    (h : ReaderInv lib chunks r) (c : Chunk)
    (hnone : (frames delimitter (stream (chunks ++ [c])))[dispatchedCount chunks]? = none) :
    ReaderInv lib (chunks ++ [c]) { r with msg := r.msg ++ c.1 } := by
  have hdisp := dispatched_append chunks c
  rw [hnone] at hdisp
  have hD : dispatchedCount (chunks ++ [c]) = dispatchedCount chunks := by
    have h1 : frameCount (chunks ++ [c]) ≤ dispatchedCount chunks :=
      List.getElem?_eq_none_iff.mp hnone
    have h2 := dispatchedCount_append chunks c
    have h3 := dispatchedCount_le chunks
    have h4 := frameCount_append_le chunks c
    omega
  refine ⟨?_, ?_, h.emitted, h.wellFormed⟩
  · show r.msg ++ c.1 = _
    rw [h.msg, hD, stream_append, afterDelims_append delimitter_ne_nil _ (dispatchedCount_le _)]
  · simpa [hdisp] using h.handled

/-- A read after which a well-formed frame is dispatched. -/
theorem readerInv_append_frame {lib : Nlohmann} {chunks : List Chunk} {r : Reader} {f : Bytes}
    (h : ReaderInv lib chunks r) (c : Chunk)
    (hf : (frames delimitter (stream (chunks ++ [c])))[dispatchedCount chunks]? = some f)
    (hwf : WellFormed lib f) :
    ReaderInv lib (chunks ++ [c])
      { r with
        msg := afterDelims delimitter (dispatchedCount chunks + 1) (stream (chunks ++ [c]))
        handled := r.handled ++ [f]
        emitted := r.emitted ++ frameSignals lib f } := by
  have hdisp := dispatched_append chunks c
  rw [hf] at hdisp
  have hD : dispatchedCount (chunks ++ [c]) = dispatchedCount chunks + 1 := by
    have hlt : dispatchedCount chunks < frameCount (chunks ++ [c]) :=
      (List.getElem?_eq_some_iff.mp hf).1
    have hcount := dispatchedCount_append chunks c
    omega
  refine ⟨?_, ?_, ?_, ?_⟩
  · rw [hD]
  · show r.handled ++ [f] = _
    rw [hdisp, h.handled, Option.toList_some]
  · simp [h.emitted]
  · intro g hg
    rcases List.mem_append.mp hg with hg | hg
    · exact h.wellFormed g hg
    · exact List.mem_singleton.mp hg ▸ hwf

/-- One read keeps the invariant, or dispatches a frame that is no
well-formed command and leaves the loop. -/
theorem iteration_data {lib : Nlohmann} {chunks : List Chunk} {r : Reader}
    (h : ReaderInv lib chunks r) (c : Chunk) :
    (∃ r', iteration lib r (.data c) = .reading r' ∧ ReaderInv lib (chunks ++ [c]) r') ∨
      ∃ r' e, iteration lib r (.data c) = .escaped r' e ∧
        ∃ f ∈ dispatched (chunks ++ [c]), ¬ WellFormed lib f := by
  have hcut := cut_of_readerInv h c
  rcases hf : (frames delimitter (stream (chunks ++ [c])))[dispatchedCount chunks]? with - | f
  · rw [hf] at hcut
    left
    exact ⟨_, by simp [iteration, hcut], readerInv_append_waiting h c hf⟩
  · rw [hf] at hcut
    have hit : iteration lib r (.data c) = handle_frame lib
        { r with
          msg := afterDelims delimitter (dispatchedCount chunks + 1) (stream (chunks ++ [c])) }
        f := by
      simp only [iteration, hcut, Option.map_some]
    by_cases hwf : WellFormed lib f
    · left
      exact ⟨_, hit.trans (handle_frame_of_wellFormed hwf), readerInv_append_frame h c hf hwf⟩
    · right
      obtain ⟨e, he⟩ := handle_frame_of_not_wellFormed hwf
      have hdisp := dispatched_append chunks c
      rw [hf] at hdisp
      exact ⟨_, e, hit.trans he, f, by simp [hdisp], hwf⟩

/-! ### Runs -/

theorem start_reading_append (lib : Nlohmann) (r : Reader) (xs ys : List ReadResult) :
    start_reading lib r (xs ++ ys) =
      match start_reading lib r xs with
      | .reading r' => start_reading lib r' ys
      | .returned r' => .returned r'
      | .escaped r' e => .escaped r' e := by
  induction xs generalizing r with
  | nil => rfl
  | cons x xs ih =>
      rw [List.cons_append, start_reading, start_reading]
      rcases iteration lib r x with r' | r' | ⟨r', e⟩
      · exact ih r'
      · rfl
      · rfl

theorem dispatched_isPrefix_append (chunks rest : List Chunk) :
    dispatched chunks <+: dispatched (chunks ++ rest) := by
  induction rest using List.reverseRecOn with
  | nil => simp
  | append_singleton rest c ih =>
      rw [← List.append_assoc, dispatched_append]
      exact ih.trans (List.prefix_append _ _)

/-- Any number of reads keep the invariant, or one of them dispatches a frame
that is no well-formed command. -/
theorem start_reading_data {lib : Nlohmann} {chunks : List Chunk} {r : Reader}
    (h : ReaderInv lib chunks r) (rest : List Chunk) :
    (∃ r', start_reading lib r (rest.map .data) = .reading r' ∧
        ReaderInv lib (chunks ++ rest) r') ∨
      ∃ r' e, start_reading lib r (rest.map .data) = .escaped r' e ∧
        ∃ f ∈ dispatched (chunks ++ rest), ¬ WellFormed lib f := by
  induction rest generalizing chunks r with
  | nil => exact .inl ⟨r, rfl, by simpa using h⟩
  | cons c rest ih =>
      rw [List.map_cons, start_reading, List.append_cons]
      rcases iteration_data h c with ⟨r', hr', hinv⟩ | ⟨r', e, hr', f, hf, hwf⟩
      · rw [hr']
        exact ih hinv
      · rw [hr']
        exact .inr ⟨r', e, rfl, f, (dispatched_isPrefix_append _ rest).subset hf, hwf⟩

/-- The invariant holds whenever the loop is back at `read_some`. -/
theorem readerInv_of_reading {lib : Nlohmann} {chunks : List Chunk} {r : Reader}
    (hr : start_reading lib .start (chunks.map .data) = .reading r) :
    ReaderInv lib chunks r := by
  rcases start_reading_data (readerInv_start lib) chunks with
    ⟨r', hr', hinv⟩ | ⟨r', e, hr', -⟩
  · obtain rfl : r = r' := Status.reading.inj (hr.symm.trans hr')
    exact hinv
  · rw [hr] at hr'
    cases hr'

/-- The loop gets through the reads iff it dispatches well-formed commands
only. -/
theorem start_reading_data_iff (lib : Nlohmann) (chunks : List Chunk) :
    (∃ r, start_reading lib .start (chunks.map .data) = .reading r) ↔
      ∀ f ∈ dispatched chunks, WellFormed lib f := by
  refine ⟨?_, ?_⟩
  · rintro ⟨r, hr⟩ f hf
    have hinv := readerInv_of_reading hr
    exact hinv.wellFormed f (hinv.handled ▸ hf)
  · intro hwf
    rcases start_reading_data (readerInv_start lib) chunks with
      ⟨r', hr', -⟩ | ⟨r', e, -, f, hf, hbad⟩
    · exact ⟨r', hr'⟩
    · exact absurd (hwf f hf) hbad

end SyncServiceUi
