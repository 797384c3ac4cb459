/-
SyncServiceUi/Loopback.lean

What the program writes, read by the program.

With its own parser put in for the parameter (`nlohmann`), the library reads
back every request, whatever the strings in it.  So the two ends of the
client fit together: the bytes of any requests, cut into reads anywhere, go
through the reading loop without an exception, an `add` or a `remove` comes
out as the signal with the values it was sent with, and the two requests that
ask for something come out as nothing (`loopback`).
-/
import SyncServiceUi.JsonRoundTrip
import SyncServiceUi.ModuleJson
import SyncServiceUi.RequestFraming
import SyncServiceUi.TableObject

namespace SyncServiceUi

open Binary64 Completion Emission Framing

/-! ### What the program encodes is well formed -/

theorem wellFormed_int (n : Int32) : (Json.number_integer n.toInt).WellFormed := by
  have hlow := n.le_toInt
  have hhigh := n.toInt_lt
  exact ⟨by omega, by omega⟩

theorem SyncInfo.wellFormed_to_json (i : SyncInfo) : i.to_json.WellFormed := by
  unfold SyncInfo.to_json
  exact Json.wellFormed_put (wellFormed_int _) <| Json.wellFormed_put trivial <|
    Json.wellFormed_put (wellFormed_int _) <| Json.wellFormed_put trivial Json.wellFormed_empty

theorem SyncModule.wellFormed_to_json (m : SyncModule) : m.to_json.WellFormed := by
  unfold SyncModule.to_json
  exact Json.wellFormed_put m.info.wellFormed_to_json <| Json.wellFormed_put trivial <|
    Json.wellFormed_put trivial <| Json.wellFormed_put trivial <| Json.wellFormed_put trivial <|
    Json.wellFormed_put trivial Json.wellFormed_empty

theorem Request.wellFormed_json (r : Request) : r.json.WellFormed := by
  have hcommand : ∀ command : String,
      (Json.object (Json.put "command" (.string command) [])).WellFormed := by
    intro command
    exact Json.wellFormed_put trivial Json.wellFormed_empty
  unfold Request.json
  cases r with
  | add module => exact Json.wellFormed_put module.wellFormed_to_json (hcommand "add")
  | remove name => exact Json.wellFormed_put trivial (hcommand "remove")
  | edit name module =>
      refine Json.wellFormed_put ?_ (hcommand "edit")
      exact Json.wellFormed_put module.wellFormed_to_json
        (Json.wellFormed_put trivial Json.wellFormed_empty)
  | sync name => exact Json.wellFormed_put trivial (hcommand "sync")

/-- Every request is read back from its text. -/
theorem Request.parse_text (dump_float : Double → String) (r : Request) :
    (nlohmann dump_float).parse (r.text (nlohmann dump_float)) = some r.json :=
  nlohmann_parse_eq_some_iff.mpr (Json.parse_dump _ r.floatFree_json r.wellFormed_json)

/-! ### What a request says to the program itself -/

/-- The signal a request would be to the program that sent it. -/
def Request.echo : Request → List Signal
  | .add m => [.moduleAdded m.name m.source m.destination m.type m.direction]
  | .remove name => [.moduleDeleted name]
  | .edit _ _ => []
  | .sync _ => []

theorem Request.accepts_json (r : Request) : Accepts r.json := by
  cases r with
  | add m =>
      refine ⟨"add", by simp [Request.json], ?_⟩
      have hfields : SyncModule.Fields m.to_json :=
        (SyncModule.completes_ofJson.mp ⟨m, m.ofJson_to_json⟩).1
      simpa [AcceptsData, Request.json] using hfields
  | remove name => exact ⟨"remove", by simp [Request.json], by simp [AcceptsData, Request.json]⟩
  | edit name m => exact ⟨"edit", by simp [Request.json], by simp [AcceptsData]⟩
  | sync name => exact ⟨"sync", by simp [Request.json], by simp [AcceptsData]⟩

theorem Request.signals_json (lib : Nlohmann) (r : Request) : signals lib r.json = r.echo := by
  cases r with
  | add m =>
      refine @signals_add lib _ m.to_json ⟨m.name, m.source, m.destination, m.type, m.direction⟩
        ⟨by simp [Request.json], by simp [Request.json]⟩ ?_ ?_ ?_ ?_ ?_ <;>
        simp [SyncModule.to_json]
  | remove name =>
      have hread : (Request.json (.remove name)).readString "data" =
          .ok (Request.json (.remove name), name) :=
        Json.readString_eq_ok_iff.mpr ⟨name, by simp [Request.json], rfl⟩
      refine @emits_command_handler lib _ "remove" (.ok 1) _ (by simp [Request.json]) ?_
      show Emits (removeBranch _) (.ok 1) _
      exact emits_liftM_bind hread (emits_emit_bind (emits_pure 1))
  -- the handler knows neither of the two commands
  | edit name m =>
      exact @emits_command_handler lib _ "edit" (.ok 1) _ (by simp [Request.json]) (emits_pure 1)
  | sync name =>
      exact @emits_command_handler lib _ "sync" (.ok 1) _ (by simp [Request.json]) (emits_pure 1)

theorem Request.wellFormed_text (dump_float : Double → String) (r : Request) :
    WellFormed (nlohmann dump_float) (r.text (nlohmann dump_float)) :=
  ⟨r.json, r.parse_text dump_float, r.accepts_json⟩

theorem Request.frameSignals_text (dump_float : Double → String) (r : Request) :
    frameSignals (nlohmann dump_float) (r.text (nlohmann dump_float)) = r.echo := by
  rw [frameSignals, r.parse_text dump_float]
  exact r.signals_json _

/-! ### The loop -/

/-- The bytes of any requests come back in reads of any sizes, all or the
first of them: the loop goes on reading, and what it has emitted are the
echoes of the requests whose frames it has dispatched, in order. -/
theorem loopback (dump_float : Double → String) (requests : List Request) (chunks : List Chunk)
    (hstream : stream chunks <+: requests.flatMap (Request.message (nlohmann dump_float))) :
    ∃ r, start_reading (nlohmann dump_float) .start (chunks.map .data) = .reading r ∧
      r.handled =
        (requests.take (dispatchedCount chunks)).map (Request.text (nlohmann dump_float)) ∧
      r.emitted = (requests.take (dispatchedCount chunks)).flatMap Request.echo := by
  have hframes : frames delimitter (stream chunks) <+:
      requests.map (Request.text (nlohmann dump_float)) := by
    obtain ⟨more, hmore⟩ := hstream
    have hprefix := frames_prefix_append delimitter_ne_nil (stream chunks) more
    rwa [hmore, frames, frames, split_messages] at hprefix
  -- as many frames as are dispatched are there, so the requests of them are too
  have hdispatched : dispatched chunks =
      (requests.take (dispatchedCount chunks)).map (Request.text (nlohmann dump_float)) := by
    obtain ⟨more, hmore⟩ := hframes
    rw [List.map_take, ← hmore, List.take_append_of_le_length (dispatchedCount_le chunks)]
    rfl
  obtain ⟨r, hr⟩ : ∃ r, start_reading (nlohmann dump_float) .start (chunks.map .data) =
      .reading r := by
    rw [start_reading_data_iff, hdispatched]
    intro f hf
    obtain ⟨request, -, rfl⟩ := List.mem_map.mp hf
    exact request.wellFormed_text dump_float
  have hinv := readerInv_of_reading hr
  refine ⟨r, hr, hinv.handled.trans hdispatched, ?_⟩
  rw [hinv.emitted, hinv.handled, hdispatched, List.flatMap_map]
  apply List.flatMap_congr
  intro request _
  exact request.frameSignals_text dump_float

/-- Two requests in one read, a delimiter in the name of the first. -/
def twoRequests : Chunk :=
  ⟨[Request.remove "a\r\nb", .sync "x"].flatMap (Request.message (nlohmann fun _ => "")),
    by decide +kernel⟩

theorem loopback_twoRequests :
    ∃ r, start_reading (nlohmann fun _ => "") .start [.data twoRequests] = .reading r ∧
      r.emitted = [.moduleDeleted "a\r\nb"] := by
  obtain ⟨r, hr, -, hemitted⟩ := loopback (fun _ => "") [.remove "a\r\nb", .sync "x"]
    [twoRequests] (by simp [stream, twoRequests])
  have hone : dispatchedCount [twoRequests] = 1 := by decide +kernel
  rw [hone] at hemitted
  exact ⟨r, hr, hemitted⟩

end SyncServiceUi
