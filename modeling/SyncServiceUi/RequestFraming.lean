/-
SyncServiceUi/RequestFraming.lean

The requests of the client, seen from the other end.

Requests are framed in band: the text of each is followed by CRLF, and any
field may hold a CR, an LF or the text of another frame.  But `dump` escapes
control characters, so the delimiter cannot even start inside a request, and
cutting the bytes of any sequence of requests at the delimiter gives back
their texts, one for one.  What each says is then up to the parser
(`requests_decode`).
-/
import SyncServiceUi.AddSyncModule
import SyncServiceUi.JsonText
import SyncServiceUi.Reader

namespace SyncServiceUi

open Framing

/-! ### The texts -/

theorem SyncInfo.floatFree_to_json (i : SyncInfo) : i.to_json.floatFree = true := by
  unfold SyncInfo.to_json
  exact Json.floatFree_put rfl <| Json.floatFree_put rfl <| Json.floatFree_put rfl <|
    Json.floatFree_put rfl rfl

theorem SyncModule.floatFree_to_json (m : SyncModule) : m.to_json.floatFree = true := by
  unfold SyncModule.to_json
  exact Json.floatFree_put m.info.floatFree_to_json <| Json.floatFree_put rfl <|
    Json.floatFree_put rfl <| Json.floatFree_put rfl <| Json.floatFree_put rfl <|
    Json.floatFree_put rfl rfl

theorem Request.floatFree_json (r : Request) : r.json.floatFree = true := by
  unfold Request.json
  cases r with
  | add module => exact Json.floatFree_put module.floatFree_to_json (Json.floatFree_put rfl rfl)
  | remove name => exact Json.floatFree_put rfl (Json.floatFree_put rfl rfl)
  | edit name module =>
      refine Json.floatFree_put ?_ (Json.floatFree_put rfl rfl)
      exact Json.floatFree_put module.floatFree_to_json (Json.floatFree_put rfl rfl)
  | sync name => exact Json.floatFree_put rfl (Json.floatFree_put rfl rfl)

/-- The bytes of a request without its delimiter. -/
def Request.text (lib : Nlohmann) (r : Request) : Bytes :=
  utf8 (r.json.dump lib)

theorem Request.message_eq (lib : Nlohmann) (r : Request) :
    r.message lib = r.text lib ++ delimitter := by
  show utf8 (r.json.dump lib ++ "\r\n") = _
  rw [utf8_append]
  rfl

/-- No request holds a carriage return, the byte the delimiter starts with. -/
theorem Request.carriageReturn_notMem_text (lib : Nlohmann) (r : Request) :
    (13 : UInt8) ∉ r.text lib := by
  intro hmem
  have hprintable : PrintableText (r.json.dump lib) :=
    Json.printable_dump lib r.json r.floatFree_json
  have hle : 0x20 ≤ (13 : UInt8).toNat := hprintable.le_of_mem_utf8 hmem
  exact absurd hle (by decide)

/-- The bytes of any requests are cut into their texts. -/
theorem split_messages (lib : Nlohmann) (requests : List Request) :
    split delimitter (requests.flatMap (Request.message lib)) =
      (requests.map (Request.text lib), []) := by
  have hbytes : requests.flatMap (Request.message lib) =
      (requests.map (Request.text lib)).flatMap fun f => f ++ delimitter := by
    rw [List.flatMap_map]
    apply List.flatMap_congr
    intro r _
    exact r.message_eq lib
  rw [hbytes]
  apply split_flatMap
  intro f hf
  obtain ⟨r, -, rfl⟩ := List.mem_map.mp hf
  exact r.carriageReturn_notMem_text lib

/-! ### What they say -/

/-- The JSON object `j` carries everything a module holds. -/
def CarriesModule (j : Json) (m : SyncModule) : Prop :=
  Carries j m.form ∧
    ∃ info, j.member "info" = some info ∧
      info.member "name" = some (.string m.info.name) ∧
      info.member "last_sync_date_unix" =
        some (.number_integer m.info.last_sync_date_unix.toInt) ∧
      info.member "frequency" = some (.string m.info.frequency) ∧
      info.member "dirty" = some (.number_integer m.info.dirty.toInt)

/-- The frame `j` says what the request does: its command and all its data. -/
def Request.SaidBy (j : Json) : Request → Prop
  | .add module =>
      j.member "command" = some (.string "add") ∧
        ∃ data, j.member "data" = some data ∧ CarriesModule data module
  | .remove name =>
      j.member "command" = some (.string "remove") ∧ j.member "data" = some (.string name)
  | .edit name module =>
      j.member "command" = some (.string "edit") ∧
        ∃ data, j.member "data" = some data ∧ data.member "name" = some (.string name) ∧
          ∃ new, data.member "module" = some new ∧ CarriesModule new module
  | .sync name =>
      j.member "command" = some (.string "sync") ∧ j.member "data" = some (.string name)

theorem carriesModule_to_json (m : SyncModule) : CarriesModule m.to_json m := by
  refine ⟨(carries_to_json m m.form).mpr rfl, m.info.to_json, ?_⟩
  simp [SyncModule.to_json, SyncInfo.to_json]

theorem saidBy_json (r : Request) : r.SaidBy r.json := by
  cases r with
  | add module =>
      refine ⟨by simp [Request.json], module.to_json, by simp [Request.json], ?_⟩
      exact carriesModule_to_json module
  | remove name => simp [Request.SaidBy, Request.json]
  | edit name module =>
      refine ⟨by simp [Request.json], _, by simp [Request.json]; rfl, by simp, module.to_json,
        by simp, ?_⟩
      exact carriesModule_to_json module
  | sync name => simp [Request.SaidBy, Request.json]

/-- Cutting the bytes of any requests at the delimiter gives one frame for
each request, in order, with nothing left over, and parsing a frame gives
back what the request says, provided the parser undoes `dump` on it. -/
theorem requests_decode (lib : Nlohmann) (requests : List Request)
    (hparse : ∀ r ∈ requests, lib.parse (utf8 (r.json.dump lib)) = some r.json) :
    List.Forall₂ (fun r frame => ∃ j, lib.parse frame = some j ∧ Request.SaidBy j r) requests
        (frames delimitter (requests.flatMap (Request.message lib))) ∧
      rest delimitter (requests.flatMap (Request.message lib)) = [] := by
  rw [frames, rest, split_messages]
  refine ⟨?_, rfl⟩
  rw [List.forall₂_map_right_iff, List.forall₂_same]
  intro r hr
  exact ⟨r.json, hparse r hr, saidBy_json r⟩

/-- The parser on two frames; everything else it rejects. -/
def knowsTwo : Nlohmann where
  parse b :=
    if b = utf8 "\x7b\"command\":\"remove\",\"data\":\"a\\r\\nb\"\x7d" then
      some (Request.remove "a\r\nb").json
    else if b = utf8 "\x7b\"command\":\"sync\",\"data\":\"a\"\x7d" then
      some (Request.sync "a").json
    else none
  dump_float _ := ""

/-- A name with a delimiter in it, and a second request. -/
theorem requests_decode_twoRequests :
    List.Forall₂ (fun r frame => ∃ j, knowsTwo.parse frame = some j ∧ Request.SaidBy j r)
      [.remove "a\r\nb", .sync "a"]
      (frames delimitter
        ([Request.remove "a\r\nb", .sync "a"].flatMap (Request.message knowsTwo))) := by
  have hremove : utf8 ((Request.remove "a\r\nb").json.dump knowsTwo) =
      utf8 "\x7b\"command\":\"remove\",\"data\":\"a\\r\\nb\"\x7d" := by decide +kernel
  have hsync : utf8 ((Request.sync "a").json.dump knowsTwo) =
      utf8 "\x7b\"command\":\"sync\",\"data\":\"a\"\x7d" := by decide +kernel
  have hne : utf8 "\x7b\"command\":\"sync\",\"data\":\"a\"\x7d" ≠
      utf8 "\x7b\"command\":\"remove\",\"data\":\"a\\r\\nb\"\x7d" := by decide +kernel
  refine (requests_decode knowsTwo [.remove "a\r\nb", .sync "a"] ?_).1
  intro r hr
  rcases List.mem_cons.mp hr with rfl | hr
  · rw [hremove]
    simp [knowsTwo]
  · obtain rfl := List.mem_singleton.mp hr
    rw [hsync]
    simp [knowsTwo, hne]

end SyncServiceUi
