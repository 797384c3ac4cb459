/-
SyncServiceUi/JsonSerializer.lean

The text `serializer::dump` of nlohmann json 3.11.3 stands for, in its two
layouts (`src/dependencies/json/json.hpp`).  Without `pretty_print` it is
`Json.dump`.

This is the text alone, with the blanks of the indentation as many as are
asked for.  What the serializer does with its buffers, and where its blanks
run out, is in `SerializerBuffers`.
-/
import SyncServiceUi.SyncModule

namespace SyncServiceUi

namespace Serializer

/-! ### Two layouts -/

def lineBreak (pretty_print : Bool) : String :=
  if pretty_print then "\n" else ""

/-- The blanks before a nested value. -/
def indentation (pretty_print : Bool) (indent : ℕ) : String :=
  if pretty_print then String.ofList (List.replicate indent ' ') else ""

def colon (pretty_print : Bool) : String :=
  if pretty_print then ": " else ":"

mutual

def dump (lib : Nlohmann) (pretty_print : Bool) (indent_step : ℕ) : Json → ℕ → String
  | .null, _ => "null"
  | .boolean true, _ => "true"
  | .boolean false, _ => "false"
  | .number_integer n, _ => Json.dump_integer n
  | .number_float d, _ => lib.dump_float d
  | .string s, _ => Json.dump_string s
  | .array items, current_indent =>
      if items.isEmpty then "[]"
      else "[" ++ lineBreak pretty_print ++
        dumpItems lib pretty_print indent_step items (current_indent + indent_step) ++
        lineBreak pretty_print ++ indentation pretty_print current_indent ++ "]"
  | .object members, current_indent =>
      if members.isEmpty then "\x7b\x7d"
      else "\x7b" ++ lineBreak pretty_print ++
        dumpMembers lib pretty_print indent_step members (current_indent + indent_step) ++
        lineBreak pretty_print ++ indentation pretty_print current_indent ++ "\x7d"

def dumpItems (lib : Nlohmann) (pretty_print : Bool) (indent_step : ℕ) : List Json → ℕ → String
  | [], _ => ""
  -- last element
  | [j], new_indent => indentation pretty_print new_indent ++ dump lib pretty_print indent_step j new_indent
  | j :: js, new_indent =>
      indentation pretty_print new_indent ++ dump lib pretty_print indent_step j new_indent ++ "," ++
        lineBreak pretty_print ++ dumpItems lib pretty_print indent_step js new_indent

def dumpMembers (lib : Nlohmann) (pretty_print : Bool) (indent_step : ℕ) :
    List (String × Json) → ℕ → String
  | [], _ => ""
  -- last element
  | [(k, j)], new_indent =>
      indentation pretty_print new_indent ++ Json.dump_string k ++ colon pretty_print ++
        dump lib pretty_print indent_step j new_indent
  | (k, j) :: ms, new_indent =>
      indentation pretty_print new_indent ++ Json.dump_string k ++ colon pretty_print ++
        dump lib pretty_print indent_step j new_indent ++ "," ++ lineBreak pretty_print ++
        dumpMembers lib pretty_print indent_step ms new_indent

end

/-! ### Without line breaks -/

mutual

/-- Without `pretty_print` the indentation makes no difference. -/
theorem dump_compact (lib : Nlohmann) (indent_step : ℕ) :
    ∀ (j : Json) (current_indent : ℕ), dump lib false indent_step j current_indent = j.dump lib
  | .null, _ => rfl
  | .boolean true, _ => rfl
  | .boolean false, _ => rfl
  | .number_integer _, _ => rfl
  | .number_float _, _ => rfl
  | .string _, _ => rfl
  | .array [], _ => by
      rw [dump, Json.dump, Json.dumpItems]
      rfl
  | .array (j :: js), current_indent => by
      rw [dump, Json.dump, if_neg (by simp), dumpItems_compact lib indent_step (j :: js)]
      simp [lineBreak, indentation]
  | .object [], _ => by
      rw [dump, Json.dump, Json.dumpMembers]
      rfl
  | .object (m :: ms), current_indent => by
      rw [dump, Json.dump, if_neg (by simp), dumpMembers_compact lib indent_step (m :: ms)]
      simp [lineBreak, indentation]

theorem dumpItems_compact (lib : Nlohmann) (indent_step : ℕ) :
    ∀ (js : List Json) (new_indent : ℕ),
      dumpItems lib false indent_step js new_indent = Json.dumpItems lib js
  | [], _ => rfl
  | [j], new_indent => by
      rw [dumpItems, Json.dumpItems, dump_compact lib indent_step j]
      simp [indentation]
  | j :: j' :: js, new_indent => by
      rw [dumpItems, Json.dumpItems, dump_compact lib indent_step j,
        dumpItems_compact lib indent_step (j' :: js)]
      · simp [indentation, lineBreak]
      · simp
      · simp

theorem dumpMembers_compact (lib : Nlohmann) (indent_step : ℕ) :
    ∀ (ms : List (String × Json)) (new_indent : ℕ),
      dumpMembers lib false indent_step ms new_indent = Json.dumpMembers lib ms
  | [], _ => rfl
  | [(k, j)], new_indent => by
      rw [dumpMembers, Json.dumpMembers, dump_compact lib indent_step j]
      simp [indentation, colon]
  | (k, j) :: m :: ms, new_indent => by
      rw [dumpMembers, Json.dumpMembers, dump_compact lib indent_step j,
        dumpMembers_compact lib indent_step (m :: ms)]
      · simp [indentation, lineBreak, colon]
      · simp
      · simp

end

end Serializer

end SyncServiceUi
