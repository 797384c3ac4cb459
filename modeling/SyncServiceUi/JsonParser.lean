/-
SyncServiceUi/JsonParser.lean

The parser of nlohmann json 3.11.3: `parser::sax_parse_internal` over the
tokens of the lexer, and `json_sax_dom_parser`, which builds the value
(`src/dependencies/json/json.hpp`).

The values under construction are kept apart, each in its own place on the
stack, and put into the value around it when they are complete; in the source
they are filled in where they are.  `object_element` is kept with the object
it points into and is good for one value, where the source only asserts that
it is not null.
-/
import SyncServiceUi.JsonLexer

namespace SyncServiceUi

namespace Parser

open Lexer

/-- What leaves the parser: its two exceptions, or a failed assertion. -/
inductive Error where
  | parse_error
  | out_of_range
  | json_assert
  deriving DecidableEq, Repr

/-- The text of a token buffer. -/
def text (token_buffer : Bytes) : String :=
  String.ofList (Utf8.decode token_buffer)

/-! ### Building the value -/

/-- An element of `ref_stack`. -/
inductive Open where
  | array (items : List Json)
  | object (members : List (String × Json)) (object_element : Option String)

/-- `json_sax_dom_parser`. -/
structure Dom where
  root : Json
  ref_stack : List Open

namespace Dom

def start : Dom := ⟨.null, []⟩

def handle_value (sax : Dom) (v : Json) : Except Error Dom :=
  match sax.ref_stack with
  | [] => .ok { sax with root := v }
  | .array items :: stack => .ok { sax with ref_stack := .array (items ++ [v]) :: stack }
  | .object members (some key) :: stack =>
      .ok { sax with ref_stack := .object (Json.overwrite key v members) none :: stack }
  | .object _ none :: _ => .error .json_assert

/-- `start_object` and `start_array`. -/
def push (sax : Dom) (o : Open) : Except Error Dom :=
  match sax.ref_stack with
  | .object _ none :: _ => .error .json_assert
  | stack => .ok { sax with ref_stack := o :: stack }

def start_object (sax : Dom) : Except Error Dom := sax.push (.object [] none)

def start_array (sax : Dom) : Except Error Dom := sax.push (.array [])

/-- Add null at given key. -/
def key (sax : Dom) (val : String) : Except Error Dom :=
  match sax.ref_stack with
  | .object members _ :: stack =>
      .ok { sax with ref_stack := .object (Json.emplace val members) (some val) :: stack }
  | _ => .error .json_assert

def end_object (sax : Dom) : Except Error Dom :=
  match sax.ref_stack with
  | .object members _ :: stack => handle_value { sax with ref_stack := stack } (.object members)
  | _ => .error .json_assert

def end_array (sax : Dom) : Except Error Dom :=
  match sax.ref_stack with
  | .array items :: stack => handle_value { sax with ref_stack := stack } (.array items)
  | _ => .error .json_assert

end Dom

/-! ### The loop -/

/-- The value a token is by itself. -/
def scalar : Token → Option Json
  | .literal_true => some (.boolean true)
  | .literal_false => some (.boolean false)
  | .literal_null => some .null
  | .value_string token_buffer => some (.string (text token_buffer))
  | .value_unsigned n => some (.number_integer n)
  | .value_integer n => some (.number_integer n)
  | .value_float (some x) => some (.number_float x)
  | _ => none

/-- `sax_parse_internal`, from the head of its loop on: the flag
`skip_to_state_evaluation`, the stack `states`, the value so far and what
`get_token` gives, `last_token` first.  When the flag is set the next token
is not read yet.  A list that ends early is a lexer that has aborted. -/
def sax_parse_internal : Bool → List Bool → Dom → List Token → Except Error (Dom × List Token)
  -- empty stack: we reached the end of the hierarchy
  | true, [], sax, tokens => .ok (sax, tokens)
  | true, _ :: _, _, [] => .error .json_assert
  -- array
  | true, true :: outer, sax, .value_separator :: rest =>
      sax_parse_internal false (true :: outer) sax rest
  | true, true :: outer, sax, .end_array :: rest => do
      sax_parse_internal true outer (← sax.end_array) rest
  | true, true :: _, _, _ :: _ => .error .parse_error
  -- object
  | true, false :: outer, sax, .value_separator :: rest =>
      match rest with
      | .value_string val :: rest => do
          let sax ← sax.key (text val)
          match rest with
          | .name_separator :: rest => sax_parse_internal false (false :: outer) sax rest
          | [] => .error .json_assert
          | _ :: _ => .error .parse_error
      | [] => .error .json_assert
      | _ :: _ => .error .parse_error
  | true, false :: outer, sax, .end_object :: rest => do
      sax_parse_internal true outer (← sax.end_object) rest
  | true, false :: _, _, _ :: _ => .error .parse_error
  | false, _, _, [] => .error .json_assert
  | false, states, sax, .begin_object :: rest => do
      let sax ← sax.start_object
      match rest with
      | .end_object :: rest => sax_parse_internal true states (← sax.end_object) rest
      | .value_string val :: rest => do
          let sax ← sax.key (text val)
          match rest with
          | .name_separator :: rest => sax_parse_internal false (false :: states) sax rest
          | [] => .error .json_assert
          | _ :: _ => .error .parse_error
      | [] => .error .json_assert
      | _ :: _ => .error .parse_error
  | false, states, sax, .begin_array :: rest => do
      let sax ← sax.start_array
      match rest with
      | .end_array :: rest => sax_parse_internal true states (← sax.end_array) rest
      | rest => sax_parse_internal false (true :: states) sax rest
  | false, _, _, .value_float none :: _ => .error .out_of_range
  | false, states, sax, token :: rest =>
      match scalar token with
      | some v => do sax_parse_internal true states (← sax.handle_value v) rest
      | none => .error .parse_error

/-- `parse`: in strict mode, input must be completely read. -/
def parse (input : Bytes) : Except Error Json := do
  let (sax, rest) ← sax_parse_internal false [] Dom.start (tokens input)
  match rest with
  | .end_of_input :: _ => return sax.root
  | [] => .error .json_assert
  | _ :: _ => .error .parse_error

end Parser

end SyncServiceUi
