/-
SyncServiceUi/Json.lean

The part of nlohmann json 3.11.3 the program uses, as it stands in
`src/dependencies/json/json.hpp`: values, the two `operator[]`, the string
and int conversions, and `dump` without indentation.

What the parser returns and the text of a floating-point number are the
fields of `Nlohmann`, and nothing is assumed of them here.  Both are modelled
further on (`Parser.parse`, `float_text`) and put in where something depends
on them.

`std::string` is a sequence of bytes on the wire (`Bytes`) and a `String`
everywhere else: every string the program holds comes from the parser, which
rejects ill-formed UTF-8, or from a `QString`.
-/
import SyncServiceUi.Binary64
import SyncServiceUi.Completion

namespace SyncServiceUi

open Binary64

/-- Contents of a byte buffer. -/
abbrev Bytes := List UInt8

/-- UTF-8 bytes of a text. -/
def utf8 (s : String) : Bytes :=
  s.toList.flatMap String.utf8EncodeChar

/-! ### Exceptions -/

/-- What can leave a function of the client other than by returning.  A
failed `JSON_ASSERT` does not unwind at all, it aborts the process. -/
inductive Exn where
  | parse_error
  | type_error (what : String)
  | json_assert
  | system_error (code : ℕ)
  | filesystem_error
  deriving DecidableEq, Repr

/-- Types of errors a failed assertion is one of. -/
class HasAssert (ε : Type) where
  json_assert : ε

/-- `JSON_ASSERT`. -/
def json_assert {ε : Type} [HasAssert ε] (c : Prop) [Decidable c] : Except ε Unit :=
  if c then .ok () else .error HasAssert.json_assert

theorem json_assert_bind {ε α : Type} [HasAssert ε] {c : Prop} [Decidable c] (h : c)
    (f : Unit → Except ε α) : json_assert c >>= f = f () := by
  rw [json_assert, if_pos h]
  rfl

/-! ### Values -/

/-- A JSON value the parser can return.  `number_integer` stands for the
signed and the unsigned integer kind, which no operation below tells apart;
a floating-point number is finite, as the parser rejects an overflow. -/
inductive Json where
  | null
  | boolean (b : Bool)
  | number_integer (n : ℤ)
  | number_float (d : Double)
  | string (s : String)
  | array (items : List Json)
  | object (members : List (String × Json))

/-- Pieces of the library taken as parameters: `parse`, `none` where it
throws, and the text `dump` writes for a floating-point number. -/
structure Nlohmann where
  parse : Bytes → Option Json
  dump_float : Double → String

namespace Json

open Completion

def type_name : Json → String
  | null => "null"
  | boolean _ => "boolean"
  | number_integer _ => "number"
  | number_float _ => "number"
  | string _ => "string"
  | array _ => "array"
  | object _ => "object"

/-! ### Element access -/

/-- Put a new member in its place in key order. -/
def insertSorted (key : String) (value : Json) : List (String × Json) → List (String × Json)
  | [] => [(key, value)]
  | (k, v) :: ms =>
      if key < k then (key, value) :: (k, v) :: ms else (k, v) :: insertSorted key value ms

/-- `std::map::emplace` of a null: an existing member stays as it is. -/
def emplace (key : String) (ms : List (String × Json)) : List (String × Json) :=
  match ms.lookup key with
  | some _ => ms
  | none => insertSorted key null ms

/-- Overwrite the member under `key`. -/
def overwrite (key : String) (value : Json) : List (String × Json) → List (String × Json)
  | [] => []
  | (k, v) :: ms => if key = k then (k, value) :: ms else (k, v) :: overwrite key value ms

/-- Assignment to the member under `key`, made first where it is missing. -/
def put (key : String) (value : Json) (ms : List (String × Json)) : List (String × Json) :=
  overwrite key value (emplace key ms)

def subscriptError (j : Json) : Exn :=
  .type_error ("[json.exception.type_error.305] cannot use operator[] with a string argument with "
    ++ j.type_name)

/-- The member under `key`, if `j` is an object that has one. -/
def member (j : Json) (key : String) : Option Json :=
  match j with
  | object ms => ms.lookup key
  | _ => none

/-- Non-const `operator[]`: null turns into an object, and a missing key gets
a null.  Gives the value left behind and the element. -/
def subscript (j : Json) (key : String) : Except Exn (Json × Json) :=
  match j with
  | null => .ok (object (emplace key []), null)
  | object ms => .ok (object (emplace key ms), (ms.lookup key).getD null)
  | j => .error j.subscriptError

/-- Const `operator[]`: a missing key fails the assertion. -/
def constSubscript (j : Json) (key : String) : Except Exn Json :=
  match j with
  | object ms =>
      match ms.lookup key with
      | some v => .ok v
      | none => .error .json_assert
  | j => .error j.subscriptError

/-! ### Conversions -/

/-- `get<std::string>`, also the implicit conversion. -/
def get_string : Json → Except Exn String
  | string s => .ok s
  | j => .error (.type_error
      ("[json.exception.type_error.302] type must be string, but is " ++ j.type_name))

/-- `static_cast<int>` of a double: towards zero.  Out of range the language
leaves it open; the x86 conversion gives the least int. -/
def intOfDouble (q : ℚ) : Int32 :=
  let t := q.num.tdiv q.den
  if -2 ^ 31 ≤ t ∧ t < 2 ^ 31 then Int32.ofInt t else Int32.minValue

/-- `get<int>`: every number kind and booleans; integers wrap. -/
def get_int : Json → Except Exn Int32
  | number_integer n => .ok (Int32.ofInt n)
  | number_float d => .ok (intOfDouble d.value)
  | boolean b => .ok (if b then 1 else 0)
  | j => .error (.type_error
      ("[json.exception.type_error.302] type must be number, but is " ++ j.type_name))

/-- `std::string s = j[key]` on a non-const `j`. -/
def readString (j : Json) (key : String) : Except Exn (Json × String) := do
  let (j, v) ← j.subscript key
  let s ← v.get_string
  return (j, s)

/-- `j[key].get<std::string>()` on a const `j`. -/
def stringAt (j : Json) (key : String) : Except Exn String := do
  (← j.constSubscript key).get_string

/-- `j[key].get<int>()` on a const `j`. -/
def intAt (j : Json) (key : String) : Except Exn Int32 := do
  (← j.constSubscript key).get_int

/-! ### Shapes -/

def isNumeric : Json → Bool
  | boolean _ => true
  | number_integer _ => true
  | number_float _ => true
  | _ => false

/-- `j` is an object with a string under `key`. -/
def HasString (j : Json) (key : String) : Prop :=
  ∃ s, j.member key = some (string s)

/-- `j` is an object with a number or a boolean under `key`. -/
def HasNumber (j : Json) (key : String) : Prop :=
  ∃ v, j.member key = some v ∧ v.isNumeric = true

@[simp] theorem member_object (ms : List (String × Json)) (key : String) :
    (object ms).member key = ms.lookup key := rfl

/-- A member is only found in an object. -/
theorem object_of_member {j v : Json} {key : String} (h : j.member key = some v) :
    ∃ ms, j = object ms := by
  cases j with
  | object ms => exact ⟨ms, rfl⟩
  | _ => cases h

theorem constSubscript_eq_ok_iff {j v : Json} {key : String} :
    j.constSubscript key = .ok v ↔ j.member key = some v := by
  cases j with
  | object ms => rcases h : ms.lookup key with - | w <;> simp [constSubscript, h]
  | _ => simp [constSubscript, member]

/-- Reading an existing member leaves the value as it was. -/
theorem subscript_of_member {j v : Json} {key : String} (h : j.member key = some v) :
    j.subscript key = .ok (j, v) := by
  obtain ⟨ms, rfl⟩ := object_of_member h
  rw [member_object] at h
  simp [subscript, emplace, h]

theorem subscript_object (ms : List (String × Json)) (key : String) :
    (object ms).subscript key = .ok (object (emplace key ms), (ms.lookup key).getD null) := rfl

/-- The non-const `operator[]` throws on everything but null and objects. -/
theorem subscript_eq_ok_iff {j : Json} {key : String} {p : Json × Json} :
    j.subscript key = .ok p ↔
      ∃ ms, (j = null ∧ ms = [] ∨ j = object ms) ∧
        p = (object (emplace key ms), (ms.lookup key).getD null) := by
  cases j with
  | null => simp [subscript, eq_comm]
  | object ms => simp [subscript, eq_comm]
  | _ => simp [subscript]

theorem completes_subscript {j : Json} {key : String} :
    Completes (j.subscript key) ↔ j = null ∨ ∃ ms, j = object ms := by
  cases j <;> simp [subscript]

/-- What `operator[]` leaves behind is an object, so it can be used again. -/
theorem completes_subscript_again {j : Json} {key key' : String} {p : Json × Json}
    (h : j.subscript key = .ok p) : Completes (p.1.subscript key') := by
  obtain ⟨ms, -, rfl⟩ := subscript_eq_ok_iff.mp h
  exact ⟨_, subscript_object _ _⟩

theorem get_string_eq_ok_iff {j : Json} {s : String} :
    j.get_string = .ok s ↔ j = string s := by
  cases j <;> simp [get_string]

theorem completes_get_int {j : Json} : Completes j.get_int ↔ j.isNumeric = true := by
  cases j <;> simp [get_int, isNumeric]

/-- A read that gives a string finds it there and leaves `j` alone. -/
theorem readString_eq_ok_iff {j : Json} {key : String} {p : Json × String} :
    j.readString key = .ok p ↔ ∃ s, j.member key = some (string s) ∧ p = (j, s) := by
  simp only [readString, bind_eq_ok_iff, get_string_eq_ok_iff]
  refine ⟨?_, ?_⟩
  · intro h
    obtain ⟨q, hq, s, hs, hp⟩ := h
    obtain ⟨ms, ⟨rfl, rfl⟩ | rfl, rfl⟩ := subscript_eq_ok_iff.mp hq
    · cases hs
    · rcases hm : ms.lookup key with - | v
      · simp [hm] at hs
      · obtain rfl : v = string s := by simpa [hm] using hs
        refine ⟨s, hm, (Except.ok.inj hp).symm.trans ?_⟩
        simp [emplace, hm]
  · intro h
    obtain ⟨s, hs, rfl⟩ := h
    exact ⟨_, subscript_of_member hs, s, rfl, rfl⟩

theorem stringAt_eq_ok_iff {j : Json} {key s : String} :
    j.stringAt key = .ok s ↔ j.member key = some (string s) := by
  simp only [stringAt, bind_eq_ok_iff, constSubscript_eq_ok_iff, get_string_eq_ok_iff]
  simp

theorem completes_stringAt {j : Json} {key : String} :
    Completes (j.stringAt key) ↔ j.HasString key := by
  simp only [Completes, stringAt_eq_ok_iff, HasString]

theorem completes_intAt {j : Json} {key : String} :
    Completes (j.intAt key) ↔ j.HasNumber key := by
  simp only [intAt, completes_bind, constSubscript_eq_ok_iff, completes_get_int, HasNumber]

/-! ### Members after an assignment -/

theorem lookup_cons (k k' : String) (v : Json) (ms : List (String × Json)) :
    ((k', v) :: ms).lookup k = if k = k' then some v else ms.lookup k := by
  rw [List.lookup_cons]
  by_cases hk : k = k'
  · simp [hk]
  · rw [beq_eq_false_iff_ne.mpr hk, if_neg hk]

theorem lookup_insertSorted {key k : String} {value : Json} {ms : List (String × Json)}
    (h : ms.lookup key = none) :
    (insertSorted key value ms).lookup k = if k = key then some value else ms.lookup k := by
  induction ms with
  | nil =>
      show [(key, value)].lookup k = _
      rw [lookup_cons]
  | cons m ms ih =>
      obtain ⟨k', v⟩ := m
      rw [lookup_cons] at h
      split at h
      · cases h
      next hne =>
        rw [insertSorted]
        split
        · rw [lookup_cons]
        · rw [lookup_cons, lookup_cons, ih h]
          by_cases hk : k = key
          · rw [if_pos hk, if_pos hk, if_neg (hk ▸ hne)]
          · rw [if_neg hk, if_neg hk]

theorem lookup_emplace {key k : String} {ms : List (String × Json)} :
    (emplace key ms).lookup k =
      if k = key then some ((ms.lookup key).getD null) else ms.lookup k := by
  unfold emplace
  rcases h : ms.lookup key with - | v
  · rw [lookup_insertSorted h, Option.getD_none]
  · by_cases hk : k = key
    · rw [if_pos hk, hk, h, Option.getD_some]
    · rw [if_neg hk]

theorem lookup_overwrite {key k : String} {value w : Json} {ms : List (String × Json)}
    (h : ms.lookup key = some w) :
    (overwrite key value ms).lookup k = if k = key then some value else ms.lookup k := by
  induction ms with
  | nil => cases h
  | cons m ms ih =>
      obtain ⟨k', v⟩ := m
      rw [lookup_cons] at h
      rw [overwrite]
      by_cases hk' : key = k'
      · subst hk'
        rw [if_pos rfl, lookup_cons, lookup_cons]
        by_cases hk : k = key
        · rw [if_pos hk, if_pos hk]
        · rw [if_neg hk, if_neg hk, if_neg hk]
      · rw [if_neg hk'] at h
        rw [if_neg hk', lookup_cons, lookup_cons, ih h]
        by_cases hk : k = key
        · rw [if_pos hk, if_pos hk, if_neg (hk ▸ hk')]
        · rw [if_neg hk, if_neg hk]

/-- Reading back an assignment. -/
@[simp] theorem lookup_put {key k : String} {value : Json} {ms : List (String × Json)} :
    (put key value ms).lookup k = if k = key then some value else ms.lookup k := by
  have h : (emplace key ms).lookup key = some ((ms.lookup key).getD null) := by
    rw [lookup_emplace, if_pos rfl]
  show (overwrite key value (emplace key ms)).lookup k = _
  rw [lookup_overwrite h, lookup_emplace]
  by_cases hk : k = key
  · rw [if_pos hk, if_pos hk]
  · rw [if_neg hk, if_neg hk, if_neg hk]

/-! ### Text -/

def hexDigit (n : ℕ) : Char :=
  Nat.digitChar n

/-- One character inside a dumped string. -/
def escapeChar (c : Char) : List Char :=
  if c = '\x08' then ['\\', 'b']
  else if c = '\t' then ['\\', 't']
  else if c = '\n' then ['\\', 'n']
  else if c = '\x0c' then ['\\', 'f']
  else if c = '\r' then ['\\', 'r']
  else if c = '"' then ['\\', '"']
  else if c = '\\' then ['\\', '\\']
  else if c.toNat ≤ 0x1F then
    ['\\', 'u', '0', '0', hexDigit (c.toNat / 16), hexDigit (c.toNat % 16)]
  else [c]

def dump_string (s : String) : String :=
  "\"" ++ String.ofList (s.toList.flatMap escapeChar) ++ "\""

def dump_integer (n : ℤ) : String :=
  if n < 0 then "-" ++ Nat.repr n.natAbs else Nat.repr n.natAbs

mutual

/-- `dump()`: no indentation, no white space, non-ASCII as it is. -/
def dump (lib : Nlohmann) : Json → String
  | null => "null"
  | boolean true => "true"
  | boolean false => "false"
  | number_integer n => dump_integer n
  | number_float d => lib.dump_float d
  | string s => dump_string s
  | array items => "[" ++ dumpItems lib items ++ "]"
  | object members => "\x7b" ++ dumpMembers lib members ++ "\x7d"

def dumpItems (lib : Nlohmann) : List Json → String
  | [] => ""
  | [j] => dump lib j
  | j :: js => dump lib j ++ "," ++ dumpItems lib js

def dumpMembers (lib : Nlohmann) : List (String × Json) → String
  | [] => ""
  | [(k, j)] => dump_string k ++ ":" ++ dump lib j
  | (k, j) :: ms => dump_string k ++ ":" ++ dump lib j ++ "," ++ dumpMembers lib ms

end

end Json

end SyncServiceUi
