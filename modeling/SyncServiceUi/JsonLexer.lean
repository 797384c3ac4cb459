/-
SyncServiceUi/JsonLexer.lean

The lexer of nlohmann json 3.11.3 (`class lexer` in
`src/dependencies/json/json.hpp`), over the rest of the input.

A scan function gets the input it has not read and gives what it made of it
and the input left; `unget` is then to leave a character where it was.  A
scan function stops in one of two ways: a lexical error, which `scan` reports
as a token of its own, or a failed `JSON_ASSERT`, which ends the process.
The assertions a call meets by where it stands (`current` is the character
just matched) are not repeated; the others are `json_assert` here.

Positions and the texts of errors are left out: the program throws away
every exception of the parser unread.
-/
import SyncServiceUi.Json
import SyncServiceUi.Strtod
import SyncServiceUi.Utf8

namespace SyncServiceUi

namespace Lexer

open Binary64 Completion

/-- `token_type`, with the value the lexer holds for it.  A floating-point
number that is not finite has none. -/
inductive Token where
  | literal_true
  | literal_false
  | literal_null
  | value_string (token_buffer : Bytes)
  | value_unsigned (value : ℕ)
  | value_integer (value : ℤ)
  | value_float (value : Option Double)
  | begin_array
  | begin_object
  | end_array
  | end_object
  | name_separator
  | value_separator
  | parse_error
  | end_of_input
  deriving DecidableEq, Repr

/-- How a scan function can fail. -/
inductive Stop where
  | parse_error
  | json_assert
  deriving DecidableEq, Repr

instance : HasAssert Stop := ⟨.json_assert⟩

/-- The character `current` is compared with. -/
def chr (b : UInt8) : Char :=
  Char.ofNat b.toNat

/-! ### Strings -/

/-- The value of one of the four characters after `\u`. -/
def hexValue (current : Char) : Option ℕ :=
  if '0'.toNat ≤ current.toNat ∧ current.toNat ≤ '9'.toNat then some (current.toNat - 0x30)
  else if 'A'.toNat ≤ current.toNat ∧ current.toNat ≤ 'F'.toNat then some (current.toNat - 0x37)
  else if 'a'.toNat ≤ current.toNat ∧ current.toNat ≤ 'f'.toNat then some (current.toNat - 0x57)
  else none

/-- The loop of `get_codepoint` over its factors. -/
def addDigits (codepoint : ℕ) : List ℕ → Bytes → Except Stop (ℕ × Bytes)
  | [], input => .ok (codepoint, input)
  | _ :: _, [] => .error .parse_error
  | factor :: factors, b :: rest =>
      match hexValue (chr b) with
      | some value => addDigits (codepoint + value <<< factor) factors rest
      | none => .error .parse_error

def get_codepoint (input : Bytes) : Except Stop (ℕ × Bytes) := do
  let (codepoint, rest) ← addDigits 0 [12, 8, 4, 0] input
  json_assert (codepoint ≤ 0xFFFF)
  return (codepoint, rest)

/-- Translate codepoint into bytes. -/
def codepointBytes (codepoint : ℕ) : Bytes :=
  if codepoint < 0x80 then [.ofNat codepoint]
  else if codepoint ≤ 0x7FF then
    [.ofNat (0xC0 ||| codepoint >>> 6), .ofNat (0x80 ||| codepoint &&& 0x3F)]
  else if codepoint ≤ 0xFFFF then
    [.ofNat (0xE0 ||| codepoint >>> 12), .ofNat (0x80 ||| codepoint >>> 6 &&& 0x3F),
      .ofNat (0x80 ||| codepoint &&& 0x3F)]
  else
    [.ofNat (0xF0 ||| codepoint >>> 18), .ofNat (0x80 ||| codepoint >>> 12 &&& 0x3F),
      .ofNat (0x80 ||| codepoint >>> 6 &&& 0x3F), .ofNat (0x80 ||| codepoint &&& 0x3F)]

/-- The code point of a surrogate pair. -/
def surrogatePair (codepoint1 codepoint2 : ℕ) : ℕ :=
  codepoint1 <<< 10 + codepoint2 - 0x35FDC00

/-- The second half of a surrogate pair. -/
def get_low_surrogate : Bytes → Except Stop (ℕ × Bytes)
  | b :: c :: rest =>
      if chr b = '\\' ∧ chr c = 'u' then do
        let (codepoint2, rest) ← get_codepoint rest
        if 0xDC00 ≤ codepoint2 ∧ codepoint2 ≤ 0xDFFF then return (codepoint2, rest)
        else .error .parse_error
      else .error .parse_error
  | _ => .error .parse_error

/-- What follows `\u` in a string. -/
def scan_unicode_escape (input : Bytes) : Except Stop (Bytes × Bytes) := do
  let (codepoint1, rest) ← get_codepoint input
  if 0xD800 ≤ codepoint1 ∧ codepoint1 ≤ 0xDBFF then
    let (codepoint2, rest) ← get_low_surrogate rest
    let codepoint := surrogatePair codepoint1 codepoint2
    json_assert (codepoint ≤ 0x10FFFF)
    return (codepointBytes codepoint, rest)
  else if 0xDC00 ≤ codepoint1 ∧ codepoint1 ≤ 0xDFFF then .error .parse_error
  else
    json_assert (codepoint1 ≤ 0x10FFFF)
    return (codepointBytes codepoint1, rest)

/-- The character that stands for a control character or for itself after a
backslash. -/
def simpleEscape : Char → Option UInt8
  | '"' => some 0x22
  | '\\' => some 0x5C
  | '/' => some 0x2F
  | 'b' => some 0x08
  | 'f' => some 0x0C
  | 'n' => some 0x0A
  | 'r' => some 0x0D
  | 't' => some 0x09
  | _ => none

/-- What follows a backslash in a string. -/
def scan_escape : Bytes → Except Stop (Bytes × Bytes)
  | [] => .error .parse_error
  | b :: rest =>
      if chr b = 'u' then scan_unicode_escape rest
      else match simpleEscape (chr b) with
        | some c => .ok ([c], rest)
        | none => .error .parse_error

def next_byte_in_range : List (UInt8 × UInt8) → Bytes → Except Stop (Bytes × Bytes)
  | [], input => .ok ([], input)
  | _ :: _, [] => .error .parse_error
  | (lower, upper) :: ranges, b :: rest =>
      if lower ≤ b ∧ b ≤ upper then do
        let (added, rest) ← next_byte_in_range ranges rest
        return (b :: added, rest)
      else .error .parse_error

/-- The ranges of the bytes that must follow a byte from 0x80 on; `none`
where the byte itself is ill-formed. -/
def continuationRanges (b : UInt8) : Option (List (UInt8 × UInt8)) :=
  if 0xC2 ≤ b ∧ b ≤ 0xDF then some [(0x80, 0xBF)]
  else if b = 0xE0 then some [(0xA0, 0xBF), (0x80, 0xBF)]
  else if (0xE1 ≤ b ∧ b ≤ 0xEC) ∨ b = 0xEE ∨ b = 0xEF then some [(0x80, 0xBF), (0x80, 0xBF)]
  else if b = 0xED then some [(0x80, 0x9F), (0x80, 0xBF)]
  else if b = 0xF0 then some [(0x90, 0xBF), (0x80, 0xBF), (0x80, 0xBF)]
  else if 0xF1 ≤ b ∧ b ≤ 0xF3 then some [(0x80, 0xBF), (0x80, 0xBF), (0x80, 0xBF)]
  else if b = 0xF4 then some [(0x80, 0x8F), (0x80, 0xBF), (0x80, 0xBF)]
  else none

/-- One round of the loop of `scan_string` at a character other than the
closing quote: the bytes added to the token buffer. -/
def scan_character (b : UInt8) (rest : Bytes) : Except Stop (Bytes × Bytes) :=
  if chr b = '\\' then scan_escape rest
  else if b ≤ 0x1F then .error .parse_error
  else if b ≤ 0x7F then .ok ([b], rest)
  else match continuationRanges b with
    | some ranges => do
        let (added, rest) ← next_byte_in_range ranges rest
        return (b :: added, rest)
    | none => .error .parse_error

/-! ### Numbers -/

/-- The labels of `scan_number`. -/
inductive NumberState where
  | minus
  | zero
  | any1
  | decimal1
  | decimal2
  | exponent
  | sign
  | any2
  deriving DecidableEq, Repr

/-- `number_type`. -/
inductive NumberType where
  | value_unsigned
  | value_integer
  | value_float
  deriving DecidableEq, Repr

namespace NumberState

/-- The label a character leads to; `none` for every other character. -/
def next : NumberState → Char → Option NumberState
  | minus, c => if c = '0' then some zero else if c.isDigit then some any1 else none
  | zero, c =>
      if c = '.' then some decimal1 else if c = 'e' ∨ c = 'E' then some exponent else none
  | any1, c =>
      if c.isDigit then some any1
      else if c = '.' then some decimal1
      else if c = 'e' ∨ c = 'E' then some exponent
      else none
  | decimal1, c => if c.isDigit then some decimal2 else none
  | decimal2, c =>
      if c.isDigit then some decimal2 else if c = 'e' ∨ c = 'E' then some exponent else none
  | exponent, c =>
      if c = '+' ∨ c = '-' then some sign else if c.isDigit then some any2 else none
  | sign, c => if c.isDigit then some any2 else none
  | any2, c => if c.isDigit then some any2 else none

/-- Where every other character leads to `scan_number_done`. -/
def done : NumberState → Bool
  | zero | any1 | decimal2 | any2 => true
  | minus | decimal1 | exponent | sign => false

/-- The assignment to `number_type` behind a label. -/
def assign (number_type : NumberType) : NumberState → NumberType
  | minus => .value_integer
  | decimal1 => .value_float
  | exponent => .value_float
  | zero | any1 | decimal2 | sign | any2 => number_type

end NumberState

/-- From a label on, to the end of the number. -/
def scan_number_from (state : NumberState) (number_type : NumberType) (token_buffer : List Char) :
    Bytes → Except Stop ((NumberType × List Char) × Bytes)
  | [] => if state.done then .ok ((number_type, token_buffer), []) else .error .parse_error
  | b :: rest =>
      match state.next (chr b) with
      | some state' =>
          scan_number_from state' (state'.assign number_type) (token_buffer ++ [chr b]) rest
      | none =>
          -- `unget`
          if state.done then .ok ((number_type, token_buffer), b :: rest)
          else .error .parse_error

/-- The last attempt: a floating-point number. -/
def convertFloat (token_buffer : List Char) : Except Stop Token := do
  let (x, endptr) := Strtod.strtod token_buffer
  json_assert (endptr = [])
  return .value_float x

/-- `scan_number_done`: integers first, floats where the integer conversion
sets `errno`. -/
def convertNumber (number_type : NumberType) (token_buffer : List Char) : Except Stop Token :=
  match number_type with
  | .value_unsigned => do
      let (x, endptr) := Strtod.strtoull token_buffer
      json_assert (endptr = [])
      match x with
      | some x => return .value_unsigned x
      | none => convertFloat token_buffer
  | .value_integer => do
      let (x, endptr) := Strtod.strtoll token_buffer
      json_assert (endptr = [])
      match x with
      | some x => return .value_integer x
      | none => convertFloat token_buffer
  | .value_float => convertFloat token_buffer

/-- The label the first character of a number leads to. -/
def firstState (current : Char) : Option NumberState :=
  if current = '-' then some .minus
  else if current = '0' then some .zero
  else if current.isDigit then some .any1
  else none

def scan_number (current : Char) (rest : Bytes) : Except Stop (Token × Bytes) :=
  match firstState current with
  | some state => do
      let ((number_type, token_buffer), rest) ←
        scan_number_from state (state.assign .value_unsigned) [current] rest
      let token ← convertNumber number_type token_buffer
      return (token, rest)
  | none => .error .json_assert

/-! ### Literals and white space -/

/-- `scan_literal` behind the first character of the literal. -/
def scan_literal : List Char → Token → Bytes → Except Stop (Token × Bytes)
  | [], return_type, input => .ok (return_type, input)
  | _ :: _, _, [] => .error .parse_error
  | c :: literal_text, return_type, b :: rest =>
      if chr b = c then scan_literal literal_text return_type rest else .error .parse_error

def isWhitespace (current : Char) : Bool :=
  current = ' ' || current = '\t' || current = '\n' || current = '\r'

def skip_whitespace (input : Bytes) : Bytes :=
  input.dropWhile fun b => isWhitespace (chr b)

/-- The UTF-8 byte order mark. -/
def bom : Bytes := [0xEF, 0xBB, 0xBF]

def skip_bom : Bytes → Except Stop Bytes
  | [] => .ok []
  | b :: rest =>
      if b = 0xEF then
        match rest with
        | c :: d :: rest => if c = 0xBB ∧ d = 0xBF then .ok rest else .error .parse_error
        | _ => .error .parse_error
      else .ok (b :: rest)

/-! ### What is left is no longer -/

theorem length_addDigits {codepoint value : ℕ} {factors : List ℕ} {input rest : Bytes}
    (h : addDigits codepoint factors input = .ok (value, rest)) :
    rest.length ≤ input.length := by
  induction factors generalizing codepoint input with
  | nil =>
      cases h
      exact le_refl _
  | cons factor factors ih =>
      cases input with
      | nil => cases h
      | cons b input =>
          rw [addDigits] at h
          split at h
          · exact (ih h).trans (Nat.le_succ _)
          · cases h

theorem length_get_codepoint {value : ℕ} {input rest : Bytes}
    (h : get_codepoint input = .ok (value, rest)) : rest.length ≤ input.length := by
  simp only [get_codepoint, bind_eq_ok_iff, Prod.exists] at h
  obtain ⟨codepoint, rest', hdigits, -, -, hreturn⟩ := h
  cases hreturn
  exact length_addDigits hdigits

theorem length_get_low_surrogate {value : ℕ} {input rest : Bytes}
    (h : get_low_surrogate input = .ok (value, rest)) : rest.length ≤ input.length := by
  unfold get_low_surrogate at h
  split at h
  next b c rest' =>
    split at h
    · simp only [bind_eq_ok_iff, Prod.exists] at h
      obtain ⟨codepoint, rest'', hcode, hlow⟩ := h
      split at hlow
      · cases hlow
        have := length_get_codepoint hcode
        simp only [List.length_cons]
        omega
      · cases hlow
    · cases h
  next => cases h

theorem length_scan_unicode_escape {added input rest : Bytes}
    (h : scan_unicode_escape input = .ok (added, rest)) : rest.length ≤ input.length := by
  simp only [scan_unicode_escape, bind_eq_ok_iff, Prod.exists] at h
  obtain ⟨codepoint1, rest₁, hfirst, h⟩ := h
  have hle := length_get_codepoint hfirst
  split_ifs at h
  · simp only [bind_eq_ok_iff, Prod.exists] at h
    obtain ⟨codepoint2, rest₂, hsecond, -, -, hreturn⟩ := h
    obtain ⟨-, rfl⟩ := Prod.mk.inj (Except.ok.inj hreturn)
    exact (length_get_low_surrogate hsecond).trans hle
  · simp only [bind_eq_ok_iff] at h
    obtain ⟨-, -, hreturn⟩ := h
    obtain ⟨-, rfl⟩ := Prod.mk.inj (Except.ok.inj hreturn)
    exact hle

theorem length_next_byte_in_range {ranges : List (UInt8 × UInt8)} {added input rest : Bytes}
    (h : next_byte_in_range ranges input = .ok (added, rest)) : rest.length ≤ input.length := by
  induction ranges generalizing input added with
  | nil =>
      cases h
      exact le_refl _
  | cons range ranges ih =>
      cases input with
      | nil => cases h
      | cons b input =>
          rw [next_byte_in_range] at h
          split at h
          · simp only [bind_eq_ok_iff, Prod.exists] at h
            obtain ⟨added', rest', hnext, hreturn⟩ := h
            cases hreturn
            exact (ih hnext).trans (Nat.le_succ _)
          · cases h

theorem length_scan_character {b : UInt8} {added input rest : Bytes}
    (h : scan_character b input = .ok (added, rest)) : rest.length ≤ input.length := by
  unfold scan_character at h
  split_ifs at h
  · unfold scan_escape at h
    split at h
    · cases h
    · split_ifs at h
      · exact (length_scan_unicode_escape h).trans (Nat.le_succ _)
      · split at h
        · cases h
          exact Nat.le_succ _
        · cases h
  · cases h
    exact le_refl _
  · split at h
    · simp only [bind_eq_ok_iff, Prod.exists] at h
      obtain ⟨added', rest', hnext, hreturn⟩ := h
      cases hreturn
      exact length_next_byte_in_range hnext
    · cases h

theorem length_scan_number_from {state : NumberState} {number_type : NumberType}
    {token_buffer : List Char} {input rest : Bytes} {result : NumberType × List Char}
    (h : scan_number_from state number_type token_buffer input = .ok (result, rest)) :
    rest.length ≤ input.length := by
  induction input generalizing state number_type token_buffer with
  | nil =>
      rw [scan_number_from] at h
      split at h
      · cases h
        exact le_refl _
      · cases h
  | cons b input ih =>
      rw [scan_number_from] at h
      split at h
      · exact (ih h).trans (Nat.le_succ _)
      · split at h
        · cases h
          exact le_refl _
        · cases h

theorem length_scan_number {current : Char} {token : Token} {input rest : Bytes}
    (h : scan_number current input = .ok (token, rest)) : rest.length ≤ input.length := by
  unfold scan_number at h
  split at h
  · simp only [bind_eq_ok_iff, Prod.exists] at h
    obtain ⟨number_type, token_buffer, rest', hnumber, token', -, hreturn⟩ := h
    cases hreturn
    exact length_scan_number_from hnumber
  · cases h

theorem length_scan_literal {literal_text : List Char} {return_type token : Token}
    {input rest : Bytes} (h : scan_literal literal_text return_type input = .ok (token, rest)) :
    rest.length ≤ input.length := by
  induction literal_text generalizing input with
  | nil =>
      cases h
      exact le_refl _
  | cons c literal_text ih =>
      cases input with
      | nil => cases h
      | cons b input =>
          rw [scan_literal] at h
          split at h
          · exact (ih h).trans (Nat.le_succ _)
          · cases h

/-! ### Tokens -/

/-- `scan_string` behind the opening quote. -/
def scan_string (token_buffer : Bytes) : Bytes → Except Stop (Bytes × Bytes)
  | [] => .error .parse_error
  | b :: rest =>
      if chr b = '"' then .ok (token_buffer, rest)
      else match _h : scan_character b rest with
        | .ok (added, rest) => scan_string (token_buffer ++ added) rest
        | .error stop => .error stop
termination_by input => input.length
decreasing_by exact Nat.lt_succ_of_le (length_scan_character _h)

theorem length_scan_string {token_buffer input : Bytes} {result : Bytes × Bytes}
    (h : scan_string token_buffer input = .ok result) : result.2.length ≤ input.length := by
  induction token_buffer, input using scan_string.induct with
  | case1 token_buffer => simp [scan_string] at h
  | case2 token_buffer b rest hquote =>
      rw [scan_string, if_pos hquote] at h
      cases h
      exact Nat.le_succ _
  | case3 token_buffer b rest hquote added rest' hchar ih =>
      rw [scan_string, if_neg hquote] at h
      split at h
      next heq =>
        obtain ⟨rfl, rfl⟩ := Prod.mk.inj (Except.ok.inj (heq.symm.trans hchar))
        exact (ih h).trans ((length_scan_character hchar).trans (Nat.le_succ _))
      next heq => cases heq.symm.trans hchar
  | case4 token_buffer b rest hquote stop hchar =>
      rw [scan_string, if_neg hquote] at h
      split at h
      next heq => cases heq.symm.trans hchar
      next => cases h

/-- The next token. -/
def scan (input : Bytes) : Except Stop (Token × Bytes) :=
  match skip_whitespace input with
  | [] => .ok (.end_of_input, [])
  | b :: rest =>
      match chr b with
      | '[' => .ok (.begin_array, rest)
      | ']' => .ok (.end_array, rest)
      | '{' => .ok (.begin_object, rest)
      | '}' => .ok (.end_object, rest)
      | ':' => .ok (.name_separator, rest)
      | ',' => .ok (.value_separator, rest)
      | 't' => scan_literal ['r', 'u', 'e'] .literal_true rest
      | 'f' => scan_literal ['a', 'l', 's', 'e'] .literal_false rest
      | 'n' => scan_literal ['u', 'l', 'l'] .literal_null rest
      | '"' => do
          let (token_buffer, rest) ← scan_string [] rest
          return (.value_string token_buffer, rest)
      -- the end of a string literal
      | '\x00' => .ok (.end_of_input, rest)
      | current =>
          if current = '-' ∨ current.isDigit then scan_number current rest
          else .error .parse_error

theorem length_scan {input rest : Bytes} {token : Token} (h : scan input = .ok (token, rest))
    (htoken : token ≠ .end_of_input) : rest.length < input.length := by
  have hspace : (skip_whitespace input).length ≤ input.length :=
    (List.dropWhile_sublist _).length_le
  unfold scan at h
  split at h
  · cases h
    exact absurd rfl htoken
  next b tail heq =>
    rw [heq] at hspace
    refine lt_of_lt_of_le (Nat.lt_succ_of_le ?_) hspace
    split at h
    -- the six structural characters
    any_goals (cases h; exact le_refl _)
    any_goals exact length_scan_literal h
    · simp only [bind_eq_ok_iff, Prod.exists] at h
      obtain ⟨token_buffer, rest', hstring, hreturn⟩ := h
      cases hreturn
      exact length_scan_string hstring
    · split at h
      · exact length_scan_number h
      · cases h

/-- The results of `get_token`, call by call, up to the token the parser
never reads past.  Where an assertion of the lexer fails there is no further
token. -/
def tokensFrom (input : Bytes) : List Token :=
  match _h : scan input with
  | .error .parse_error => [.parse_error]
  | .error .json_assert => []
  | .ok (token, rest) =>
      if _ht : token = .end_of_input then [token] else token :: tokensFrom rest
termination_by input.length
decreasing_by exact length_scan _h _ht

/-- The tokens of a text. -/
def tokens (input : Bytes) : List Token :=
  match skip_bom input with
  | .error _ => [.parse_error]
  | .ok rest => tokensFrom rest

end Lexer

end SyncServiceUi
