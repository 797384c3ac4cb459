/-
SyncServiceUi/Reassembly.lean

What the reader makes of a stream, for every way the stream is cut into reads.

Three laws, each over all chunkings:

* `start_reading_reassembly` — the frames handled are the first
  `dispatchedCount chunks` frames of the stream, and eof loses the others;
* `noFrameWaits_iff` — no complete frame is ever left in the buffer iff no
  read completes two;
* `isolated_iff` — the loop ends by returning iff the input ends with eof
  and every frame it dispatched is a well-formed command.

The last two are conditions on the input: the loop has an `if` where it would
need a `while`, and no handler around the parser, the command handler or the
`throw` on a failed read.
-/
import SyncServiceUi.Reader

namespace SyncServiceUi

open Framing

/-! ### Sample input -/

/-- A well-formed frame with a command the handler does not know. -/
def unknownFrame : Bytes :=
  utf8 "\x7b\"command\":\"x\"\x7d"

/-- The parser on that one frame; everything else it rejects. -/
def unknownOnly : Nlohmann where
  parse b := if b = unknownFrame then some (.object [("command", .string "x")]) else none
  dump_float _ := ""

theorem wellFormed_unknownFrame : WellFormed unknownOnly unknownFrame :=
  ⟨.object [("command", .string "x")], by simp [unknownOnly], "x", rfl, by simp [AcceptsData]⟩

/-- Two frames in three reads, cut inside a delimiter and inside a frame. -/
def spreadFrames : List Chunk :=
  [⟨unknownFrame ++ [13], by decide +kernel⟩, ⟨10 :: unknownFrame.take 5, by decide +kernel⟩,
    ⟨unknownFrame.drop 5 ++ delimitter, by decide +kernel⟩]

/-- Two complete frames in one read. -/
def twoFrames : Chunk :=
  ⟨unknownFrame ++ delimitter ++ unknownFrame ++ delimitter, by decide +kernel⟩

/-- A complete frame that is not JSON. -/
def notJson : Chunk :=
  ⟨utf8 "x\r\n", by decide +kernel⟩

/-! ### The reassembly law -/

/-- As long as no handled frame throws, the frames handled after the reads
`chunks` are the first `dispatchedCount chunks` of the stream, what they ask
for has been emitted, and `msg` is what follows that many delimiters; at eof
the frames lost are the last `frameCount chunks - dispatchedCount chunks`. -/
theorem start_reading_reassembly (lib : Nlohmann) (chunks : List Chunk)
    (hok : ∀ f ∈ (frames delimitter (stream chunks)).take (dispatchedCount chunks),
      WellFormed lib f) :
    ∃ r, start_reading lib .start (chunks.map .data) = .reading r ∧
      r.handled = (frames delimitter (stream chunks)).take (dispatchedCount chunks) ∧
      r.emitted = r.handled.flatMap (frameSignals lib) ∧
      r.msg = afterDelims delimitter (dispatchedCount chunks) (stream chunks) ∧
      start_reading lib .start (chunks.map .data ++ [.eof]) = .returned r ∧
      ∃ lost, frames delimitter (stream chunks) = r.handled ++ lost ∧
        lost.length = frameCount chunks - dispatchedCount chunks := by
  obtain ⟨r, hr⟩ := (start_reading_data_iff lib chunks).mpr hok
  have hinv := readerInv_of_reading hr
  have hhandled : r.handled =
      (frames delimitter (stream chunks)).take (dispatchedCount chunks) := hinv.handled
  refine ⟨r, hr, hhandled, hinv.emitted, hinv.msg, ?_, ?_⟩
  · rw [start_reading_append, hr]
    rfl
  · refine ⟨(frames delimitter (stream chunks)).drop (dispatchedCount chunks), ?_, ?_⟩
    · rw [hhandled, List.take_append_drop]
    · rw [List.length_drop, frameCount]

theorem start_reading_reassembly_twoFrames :
    ∃ r, start_reading unknownOnly .start ([twoFrames].map .data) = .reading r ∧
      r.handled = [unknownFrame] ∧ r.emitted = frameSignals unknownOnly unknownFrame := by
  have hdisp : (frames delimitter (stream [twoFrames])).take (dispatchedCount [twoFrames]) =
      [unknownFrame] := by decide +kernel
  obtain ⟨r, hr, hhandled, hemitted, -⟩ := start_reading_reassembly unknownOnly [twoFrames] (by
    rw [hdisp]
    simpa using wellFormed_unknownFrame)
  rw [hdisp] at hhandled
  rw [hhandled, List.flatMap_singleton] at hemitted
  exact ⟨r, hr, hhandled, hemitted⟩

/-! ### Frames left waiting -/

/-- Each time the loop is back at `read_some`, `msg` holds no complete frame
and the frames handled are those of the bytes received; at eof all of them
have been handled. -/
def NoFrameWaits (lib : Nlohmann) (chunks : List Chunk) : Prop :=
  (∀ k ≤ chunks.length, ∃ r,
    start_reading lib .start ((chunks.take k).map .data) = .reading r ∧
      cut delimitter r.msg = none ∧
      r.handled = frames delimitter (stream (chunks.take k))) ∧
  ∃ r, start_reading lib .start (chunks.map .data ++ [.eof]) = .returned r ∧
    r.handled = frames delimitter (stream chunks)

theorem dispatchedCount_take {chunks : List Chunk} {k : ℕ} (hk : k ≤ chunks.length) :
    dispatchedCount (chunks.take k) = OnePerTick.served (arrivals chunks) k := by
  rw [dispatchedCount_eq_served, List.length_take, min_eq_left hk]
  apply OnePerTick.served_congr
  intro i hi
  show frameCount ((chunks.take k).take i) = frameCount (chunks.take i)
  rw [List.take_take, min_eq_left hi]

/-- In a state the loop reaches, no frame waits iff all have been dispatched. -/
theorem cut_msg_eq_none_iff {lib : Nlohmann} {chunks : List Chunk} {r : Reader}
    (h : ReaderInv lib chunks r) :
    cut delimitter r.msg = none ↔ dispatchedCount chunks = frameCount chunks := by
  rw [h.msg, cut_afterDelims delimitter_ne_nil, Option.map_eq_none_iff,
    List.getElem?_eq_none_iff]
  refine ⟨?_, ?_⟩
  · intro hle
    exact le_antisymm (dispatchedCount_le chunks) hle
  · intro he
    exact he.ge

theorem dispatched_eq_frames {chunks : List Chunk}
    (h : dispatchedCount chunks = frameCount chunks) :
    dispatched chunks = frames delimitter (stream chunks) := by
  show (frames delimitter (stream chunks)).take (dispatchedCount chunks) = _
  rw [h]
  exact List.take_length

/-- On a stream of well-formed commands no complete frame is left waiting iff
each read completes at most one frame. -/
theorem noFrameWaits_iff (lib : Nlohmann) (chunks : List Chunk)
    (hwf : ∀ f ∈ frames delimitter (stream chunks), WellFormed lib f) :
    NoFrameWaits lib chunks ↔
      ∀ k < chunks.length, arrivals chunks (k + 1) ≤ arrivals chunks k + 1 := by
  have hreach : ∀ k, ∃ r, start_reading lib .start ((chunks.take k).map .data) = .reading r := by
    intro k
    apply (start_reading_data_iff lib _).mpr
    intro f hf
    apply hwf f
    have hinitial := dispatched_isPrefix_append (chunks.take k) (chunks.drop k)
    rw [List.take_append_drop] at hinitial
    exact List.mem_of_mem_take (hinitial.subset hf)
  have hcount : ∀ k ≤ chunks.length, (dispatchedCount (chunks.take k) = frameCount (chunks.take k)
      ↔ OnePerTick.served (arrivals chunks) k = arrivals chunks k) := by
    intro k hk
    rw [dispatchedCount_take hk, arrivals]
  rw [← OnePerTick.served_eq_iff (arrivals_zero chunks)]
  refine ⟨?_, ?_⟩
  · rintro ⟨hwait, -⟩ k hk
    obtain ⟨r, hr, hcut, -⟩ := hwait k hk
    exact (hcount k hk).mp ((cut_msg_eq_none_iff (readerInv_of_reading hr)).mp hcut)
  · intro hserved
    have hall : ∀ k ≤ chunks.length, ∃ r,
        start_reading lib .start ((chunks.take k).map .data) = .reading r ∧
          cut delimitter r.msg = none ∧
          r.handled = frames delimitter (stream (chunks.take k)) := by
      intro k hk
      obtain ⟨r, hr⟩ := hreach k
      have hinv := readerInv_of_reading hr
      have he := (hcount k hk).mpr (hserved k hk)
      exact ⟨r, hr, (cut_msg_eq_none_iff hinv).mpr he,
        hinv.handled.trans (dispatched_eq_frames he)⟩
    refine ⟨hall, ?_⟩
    obtain ⟨r, hr, -, hhandled⟩ := hall chunks.length le_rfl
    rw [List.take_length] at hr hhandled
    refine ⟨r, ?_, hhandled⟩
    rw [start_reading_append, hr]
    rfl

theorem noFrameWaits_spreadFrames :
    NoFrameWaits unknownOnly spreadFrames := by
  have hframes : frames delimitter (stream spreadFrames) = [unknownFrame, unknownFrame] := by
    decide +kernel
  refine (noFrameWaits_iff unknownOnly spreadFrames ?_).mpr (by decide +kernel)
  rw [hframes]
  simpa using wellFormed_unknownFrame

/-- Two well-formed commands in one read: the second one is left waiting, and
lost at eof. -/
theorem not_noFrameWaits_twoFrames :
    (∀ f ∈ frames delimitter (stream [twoFrames]), WellFormed unknownOnly f) ∧
      ¬ NoFrameWaits unknownOnly [twoFrames] := by
  have hframes : frames delimitter (stream [twoFrames]) = [unknownFrame, unknownFrame] := by
    decide +kernel
  refine ⟨by rw [hframes]; simpa using wellFormed_unknownFrame, ?_⟩
  intro h'
  obtain ⟨hwait, -⟩ := h'
  obtain ⟨r, hr, -, hhandled⟩ := hwait 1 le_rfl
  have hdisp : dispatched [twoFrames] = [unknownFrame] := by decide +kernel
  have h := (readerInv_of_reading hr).handled.symm.trans hhandled
  have h' : [unknownFrame] = [unknownFrame, unknownFrame] := hdisp.symm.trans (h.trans hframes)
  simp at h'

/-! ### Bad input -/

/-- The loop ends by returning, and what it emitted is what the frames it
dispatched ask for, a frame that is no well-formed command asking for nothing
(`frameSignals_of_not_wellFormed`). -/
def Isolated (lib : Nlohmann) (chunks : List Chunk) (last : ReadResult) : Prop :=
  ∃ r, start_reading lib .start (chunks.map .data ++ [last]) = .returned r ∧
    r.emitted = (dispatched chunks).flatMap (frameSignals lib)

/-- Bad input is contained iff there is none to contain: no read fails and
every frame dispatched is a well-formed command. -/
theorem isolated_iff (lib : Nlohmann) (chunks : List Chunk) (last : ReadResult) :
    Isolated lib chunks last ↔ last = .eof ∧ ∀ f ∈ dispatched chunks, WellFormed lib f := by
  rw [Isolated, ← start_reading_data_iff]
  refine ⟨?_, ?_⟩
  · intro h
    obtain ⟨r, hr, -⟩ := h
    rw [start_reading_append] at hr
    rcases start_reading_data (readerInv_start lib) chunks with
      ⟨r', hr', hinv⟩ | ⟨r', e, hr', -⟩
    · rw [hr'] at hr
      refine ⟨?_, r', hr'⟩
      cases last with
      | eof => rfl
      | error code => cases hr
      | data buf =>
          -- more bytes never end the loop by returning
          rcases iteration_data hinv buf with ⟨r₁, h₁, -⟩ | ⟨r₁, e, h₁, -⟩
          · simp [start_reading, h₁] at hr
          · simp [start_reading, h₁] at hr
    · rw [hr'] at hr
      cases hr
  · intro h
    obtain ⟨rfl, r, hr⟩ := h
    have hinv := readerInv_of_reading hr
    refine ⟨r, ?_, hinv.handled ▸ hinv.emitted⟩
    rw [start_reading_append, hr]
    rfl

/-- A frame that is not JSON ends the reader thread by an exception. -/
theorem not_isolated_notJson : ¬ Isolated unknownOnly [notJson] .eof := by
  intro h
  obtain ⟨r, hr, -⟩ := h
  have hesc : start_reading unknownOnly .start ([notJson].map .data ++ [.eof]) =
      .escaped ⟨[], [utf8 "x"], []⟩ .parse_error := by decide +kernel
  rw [hesc] at hr
  cases hr

end SyncServiceUi
