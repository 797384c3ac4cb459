/-
SyncServiceUi/IntegerBuffer.lean

`serializer::dump_integer` (`src/dependencies/json/json.hpp`): an integer
written backwards into a buffer of 64 bytes, two digits at a time.

`count_digits` says where the text will end, the loop fills the buffer from
there to the front, and what is written are the first `n_chars` bytes, over
whatever an earlier call left in the buffer.  So it matters that the count is
exact: `write_number_spec` says that the text is the decimal notation and
nothing else, for every 64-bit number, the least one included, whose absolute
value is no `int64_t` (`remove_sign`).
-/
import Mathlib.Data.List.Basic
import SyncServiceUi.EscapedString

namespace SyncServiceUi

namespace Serializer

open Lexer Completion

/-! ### The code -/

/-- `count_digits`, from the head of its loop on. -/
def count_digits (x : UInt64) (n_digits : ℕ) : ℕ :=
  if x < 10 then n_digits
  else if x < 100 then n_digits + 1
  else if x < 1000 then n_digits + 2
  else if x < 10000 then n_digits + 3
  else count_digits (x / 10000) (n_digits + 4)
termination_by x.toNat
decreasing_by
  rw [UInt64.lt_iff_toNat_lt] at *
  simp only [UInt64.toNat_div, UInt64.reduceToNat] at *
  omega

/-- The absolute value of a negative number, the least one included. -/
def remove_sign (x : Int64) : UInt64 :=
  (-(x + 1)).toUInt64 + 1

/-- The table of the numbers to 99: two digits each. -/
def digits_to_99 (digits_index : ℕ) : UInt8 × UInt8 :=
  (UInt8.ofNat (0x30 + digits_index / 10), UInt8.ofNat (0x30 + digits_index % 10))

/-- The buffer and the pointer into it. -/
structure Digits where
  number_buffer : Vector UInt8 64
  buffer_ptr : ℕ

/-- `*(--buffer_ptr) = c`. -/
def Digits.put (d : Digits) (c : UInt8) : Except Error Digits :=
  if h : 0 < d.buffer_ptr ∧ d.buffer_ptr - 1 < 64 then
    .ok ⟨d.number_buffer.set (d.buffer_ptr - 1) c h.2, d.buffer_ptr - 1⟩
  else .error .overflow

/-- Two digits, the last one first. -/
def Digits.putPair (d : Digits) (digits_index : ℕ) : Except Error Digits := do
  let d ← d.put (digits_to_99 digits_index).2
  d.put (digits_to_99 digits_index).1

/-- The loop: what is left of the number is below 100. -/
def write_pairs (abs_value : UInt64) (d : Digits) : Except Error (UInt64 × Digits) :=
  if 100 ≤ abs_value then do
    let d ← d.putPair (abs_value % 100).toNat
    write_pairs (abs_value / 100) d
  else .ok (abs_value, d)
termination_by abs_value.toNat
decreasing_by
  rw [UInt64.le_iff_toNat_le] at *
  simp only [UInt64.toNat_div, UInt64.reduceToNat] at *
  omega

/-- What the loop leaves: one digit or two. -/
def write_left (abs_value : UInt64) (d : Digits) : Except Error Digits :=
  if 10 ≤ abs_value then d.putPair abs_value.toNat
  else d.put (0x30 + abs_value.toUInt8)

/-- `dump_integer` behind its special case, for a number of this sign and
absolute value. -/
def write_number (o : Bytes) (number_buffer : Vector UInt8 64) (negative : Bool)
    (abs_value : UInt64) : Except Error (Bytes × Vector UInt8 64) := do
  let number_buffer := if negative then number_buffer.set 0 0x2D else number_buffer
  -- one more byte for the minus sign
  let n_chars := (if negative then 1 else 0) + count_digits abs_value 1
  -- spare 1 byte for the NUL
  if 64 - 1 ≤ n_chars then .error .json_assert
  else do
    let (abs_value, d) ← write_pairs abs_value ⟨number_buffer, n_chars⟩
    let d ← write_left abs_value d
    return (o ++ d.number_buffer.toList.take n_chars, d.number_buffer)

/-- `dump_integer` of a `number_integer_t`. -/
def dump_signed (o : Bytes) (number_buffer : Vector UInt8 64) (x : Int64) :
    Except Error (Bytes × Vector UInt8 64) :=
  if x = 0 then .ok (o ++ [0x30], number_buffer)
  else if x < 0 then write_number o number_buffer true (remove_sign x)
  else write_number o number_buffer false x.toUInt64

/-- `dump_integer` of a `number_unsigned_t`. -/
def dump_unsigned (o : Bytes) (number_buffer : Vector UInt8 64) (x : UInt64) :
    Except Error (Bytes × Vector UInt8 64) :=
  if x = 0 then .ok (o ++ [0x30], number_buffer)
  else write_number o number_buffer false x

/-! ### Decimal notation -/

/-- The decimal notation of `n`. -/
def decimal (n : ℕ) : Bytes :=
  Utf8.encode (Nat.toDigits 10 n)

/-- The digit `d`. -/
def digit (d : ℕ) : UInt8 :=
  UInt8.ofNat (0x30 + d)

theorem encodeChar_digitChar : ∀ d < 10, String.utf8EncodeChar d.digitChar = [digit d] := by
  decide

theorem decimal_of_lt {n : ℕ} (h : n < 10) : decimal n = [digit n] := by
  rw [decimal, Nat.toDigits_of_lt_base h, Utf8.encode_cons, encodeChar_digitChar n h]
  rfl

theorem decimal_of_le {n : ℕ} (h : 10 ≤ n) : decimal n = decimal (n / 10) ++ [digit (n % 10)] := by
  have hmod : n % 10 < 10 := Nat.mod_lt n (by decide)
  rw [decimal, Nat.toDigits_of_base_le (by decide) h, Utf8.encode_append, Utf8.encode_cons,
    encodeChar_digitChar _ hmod]
  rfl

theorem length_decimal_of_le {n : ℕ} (h : 10 ≤ n) :
    (decimal n).length = (decimal (n / 10)).length + 1 := by
  rw [decimal_of_le h, List.length_append, List.length_singleton]

theorem length_decimal_of_lt {n : ℕ} (h : n < 10) : (decimal n).length = 1 := by
  rw [decimal_of_lt h, List.length_singleton]

theorem length_decimal_pos (n : ℕ) : 0 < (decimal n).length := by
  rcases Nat.lt_or_ge n 10 with h | h
  · rw [length_decimal_of_lt h]
    exact Nat.one_pos
  · rw [length_decimal_of_le h]
    exact Nat.succ_pos _

theorem length_decimal_le {n k : ℕ} (h : n < 10 ^ (k + 1)) : (decimal n).length ≤ k + 1 := by
  induction k generalizing n with
  | zero => exact (length_decimal_of_lt (by simpa using h)).le
  | succ k ih =>
      rcases Nat.lt_or_ge n 10 with hlt | hge
      · rw [length_decimal_of_lt hlt]
        omega
      · have hrest := @ih (n / 10) (by
          rw [pow_succ] at h
          exact Nat.div_lt_of_lt_mul (by omega))
        rw [length_decimal_of_le hge]
        omega

/-- A number of two digits is a pair of the table. -/
theorem decimal_pair {n : ℕ} (h : 10 ≤ n) (h' : n < 100) :
    decimal n = [(digits_to_99 n).1, (digits_to_99 n).2] := by
  rw [decimal_of_le h, decimal_of_lt (by omega)]
  rfl

/-- The pair of the table behind what is left. -/
theorem decimal_hundred {n : ℕ} (h : 100 ≤ n) :
    decimal n = decimal (n / 100) ++ [(digits_to_99 (n % 100)).1, (digits_to_99 (n % 100)).2] := by
  have htens : n / 10 % 10 = n % 100 / 10 := by omega
  have hones : n % 10 = n % 100 % 10 := by omega
  rw [decimal_of_le (by omega), decimal_of_le (by omega), Nat.div_div_eq_div_mul, htens, hones,
    List.append_assoc]
  rfl

/-! ### The number of digits -/

theorem count_digits_spec (x : UInt64) (n_digits : ℕ) :
    count_digits x n_digits + 1 = n_digits + (decimal x.toNat).length := by
  fun_induction count_digits x n_digits with
  | case1 x n_digits h =>
      rw [UInt64.lt_iff_toNat_lt] at h
      rw [length_decimal_of_lt (by simpa using h)]
  | case2 x n_digits h h' =>
      rw [UInt64.lt_iff_toNat_lt] at h h'
      simp only [UInt64.reduceToNat] at h h'
      rw [length_decimal_of_le (by omega), length_decimal_of_lt (by omega)]
  | case3 x n_digits h h' h'' =>
      rw [UInt64.lt_iff_toNat_lt] at h h' h''
      simp only [UInt64.reduceToNat] at h h' h''
      rw [length_decimal_of_le (by omega), length_decimal_of_le (by omega),
        length_decimal_of_lt (by omega)]
  | case4 x n_digits h h' h'' h''' =>
      rw [UInt64.lt_iff_toNat_lt] at h h' h'' h'''
      simp only [UInt64.reduceToNat] at h h' h'' h'''
      rw [length_decimal_of_le (by omega), length_decimal_of_le (by omega),
        length_decimal_of_le (by omega), length_decimal_of_lt (by omega)]
  | case5 x n_digits h h' h'' h''' ih =>
      rw [UInt64.lt_iff_toNat_lt] at h'''
      simp only [UInt64.reduceToNat] at h'''
      have hfour : (decimal x.toNat).length = (decimal (x.toNat / 10 / 10 / 10 / 10)).length + 4 := by
        rw [length_decimal_of_le (by omega), length_decimal_of_le (by omega),
          length_decimal_of_le (by omega), length_decimal_of_le (by omega)]
      have hdiv : x.toNat / 10 / 10 / 10 / 10 = (x / 10000).toNat := by
        rw [UInt64.toNat_div, Nat.div_div_eq_div_mul, Nat.div_div_eq_div_mul,
          Nat.div_div_eq_div_mul]
        rfl
      rw [ih, hfour, hdiv]
      omega

/-- A 64-bit number has 20 digits at most. -/
theorem length_decimal_toNat (x : UInt64) : (decimal x.toNat).length ≤ 20 :=
  length_decimal_le (lt_trans x.toNat_lt (by decide))

/-! ### The buffer -/

/-- `d'` is `d` with `w` in front of the pointer. -/
structure Digits.Adds (d d' : Digits) (w : Bytes) : Prop where
  toList : d'.number_buffer.toList = d.number_buffer.toList.take d'.buffer_ptr ++ w ++
    d.number_buffer.toList.drop d.buffer_ptr
  buffer_ptr : d'.buffer_ptr + w.length = d.buffer_ptr

theorem Digits.Adds.refl (d : Digits) : d.Adds d [] :=
  ⟨by simp, rfl⟩

theorem Digits.Adds.trans {d d' d'' : Digits} {w w' : Bytes} (h : d.Adds d' w)
    (h' : d'.Adds d'' w') (hle : d.buffer_ptr ≤ 64) : d.Adds d'' (w' ++ w) := by
  have hptr := h.buffer_ptr
  have hptr' := h'.buffer_ptr
  have hlength : (d.number_buffer.toList.take d'.buffer_ptr).length = d'.buffer_ptr := by
    rw [List.length_take, Vector.length_toList]
    omega
  refine ⟨?_, by rw [List.length_append]; omega⟩
  have hfront : d'.number_buffer.toList.take d''.buffer_ptr =
      d.number_buffer.toList.take d''.buffer_ptr := by
    rw [h.toList, List.append_assoc, List.take_append_of_le_length (by omega), List.take_take,
      min_eq_left (by omega)]
  have hback : d'.number_buffer.toList.drop d'.buffer_ptr =
      w ++ d.number_buffer.toList.drop d.buffer_ptr := by
    rw [h.toList, List.append_assoc]
    exact List.drop_left' hlength
  rw [h'.toList, hfront, hback]
  simp only [List.append_assoc]

theorem Digits.put_spec (d : Digits) (c : UInt8) (h : 0 < d.buffer_ptr) (h' : d.buffer_ptr ≤ 64) :
    ∃ d', d.put c = .ok d' ∧ d.Adds d' [c] := by
  have hlt : d.buffer_ptr - 1 < 64 := by omega
  refine ⟨_, dif_pos ⟨h, hlt⟩, ?_, by rw [List.length_singleton]; dsimp only; omega⟩
  have hback : d.buffer_ptr - 1 + 1 = d.buffer_ptr := by omega
  rw [Vector.toList_set, List.set_eq_take_append_cons_drop, if_pos (by simpa using hlt), hback]
  simp

theorem Digits.putPair_spec (d : Digits) (n : ℕ) (h : 2 ≤ d.buffer_ptr) (h' : d.buffer_ptr ≤ 64) :
    ∃ d', d.putPair n = .ok d' ∧ d.Adds d' [(digits_to_99 n).1, (digits_to_99 n).2] := by
  obtain ⟨d₁, hput, hadds⟩ := d.put_spec (digits_to_99 n).2 (by omega) h'
  have hptr : d₁.buffer_ptr + 1 = d.buffer_ptr := hadds.buffer_ptr
  obtain ⟨d₂, hput', hadds'⟩ := d₁.put_spec (digits_to_99 n).1 (by omega) (by omega)
  refine ⟨d₂, ?_, hadds.trans hadds' h'⟩
  rw [putPair, hput]
  exact hput'

/-- The loop writes all but the first one or two digits. -/
theorem write_pairs_spec (abs_value : UInt64) (d : Digits)
    (hroom : (decimal abs_value.toNat).length ≤ d.buffer_ptr) (hle : d.buffer_ptr ≤ 64) :
    ∃ left d' w, write_pairs abs_value d = .ok (left, d') ∧ left.toNat < 100 ∧ d.Adds d' w ∧
      decimal abs_value.toNat = decimal left.toNat ++ w := by
  fun_induction write_pairs abs_value d with
  | case1 abs_value d h ih =>
      rw [UInt64.le_iff_toNat_le] at h
      have h100 : 100 ≤ abs_value.toNat := h
      have hdiv : (abs_value / 100).toNat = abs_value.toNat / 100 := UInt64.toNat_div ..
      have hmod : (abs_value % 100).toNat = abs_value.toNat % 100 := UInt64.toNat_mod ..
      have hdecimal := decimal_hundred h100
      have hlength := congrArg List.length hdecimal
      rw [List.length_append] at hlength
      have hpos := length_decimal_pos (abs_value.toNat / 100)
      have hpair : [(digits_to_99 (abs_value.toNat % 100)).1,
        (digits_to_99 (abs_value.toNat % 100)).2].length = 2 := rfl
      obtain ⟨d₁, hput, hadds⟩ := d.putPair_spec (abs_value % 100).toNat (by omega) hle
      rw [hmod] at hadds
      have hptr := hadds.buffer_ptr
      obtain ⟨left, d', w, hwrite, hleft, hadds', htext⟩ := ih d₁
        (by rw [hdiv]; omega) (by omega)
      refine ⟨left, d', _, ?_, hleft, hadds.trans hadds' hle, ?_⟩
      · rw [hput]
        exact hwrite
      · rw [hdecimal, ← hdiv, htext, List.append_assoc]
  | case2 abs_value d h =>
      rw [UInt64.le_iff_toNat_le] at h
      exact ⟨abs_value, d, [], rfl, by simpa using h, .refl d, (List.append_nil _).symm⟩

/-! ### The text -/

theorem digit_toNat {x : UInt64} : digit x.toNat = 0x30 + x.toUInt8 := by
  rw [digit, UInt8.ofNat_add]
  rfl

theorem write_left_spec (left : UInt64) (d : Digits) (h : left.toNat < 100)
    (hroom : (decimal left.toNat).length ≤ d.buffer_ptr) (hle : d.buffer_ptr ≤ 64) :
    ∃ d', write_left left d = .ok d' ∧ d.Adds d' (decimal left.toNat) := by
  unfold write_left
  have hiff : 10 ≤ left ↔ 10 ≤ left.toNat := UInt64.le_iff_toNat_le
  by_cases hten : 10 ≤ left.toNat
  · rw [decimal_pair hten h] at hroom ⊢
    rw [if_pos (hiff.mpr hten)]
    exact d.putPair_spec left.toNat hroom hle
  · rw [decimal_of_lt (Nat.lt_of_not_le hten)] at hroom ⊢
    rw [if_neg (hiff.not.mpr hten), digit_toNat]
    exact d.put_spec _ hroom hle

/-- The sign and the digits, whatever the buffer held before. -/
theorem write_number_spec (o : Bytes) (number_buffer : Vector UInt8 64) (negative : Bool)
    (abs_value : UInt64) :
    ∃ number_buffer', write_number o number_buffer negative abs_value =
      .ok (o ++ ((if negative then [0x2D] else []) ++ decimal abs_value.toNat),
        number_buffer') := by
  have hcount := count_digits_spec abs_value 1
  have hlength := length_decimal_toNat abs_value
  obtain ⟨sign, hsign⟩ : ∃ sign : Bytes, (if negative then [0x2D] else []) = sign := ⟨_, rfl⟩
  obtain ⟨buffer, hbuffer⟩ : ∃ buffer : Vector UInt8 64,
    (if negative then number_buffer.set 0 0x2D else number_buffer) = buffer := ⟨_, rfl⟩
  have hsigned : (if negative then 1 else 0) = sign.length ∧ sign.length ≤ 1 ∧
      buffer.toList.take sign.length = sign := by
    subst hsign hbuffer
    cases negative with
    | false => exact ⟨rfl, Nat.zero_le 1, rfl⟩
    | true =>
        refine ⟨rfl, le_refl 1, ?_⟩
        rw [if_pos rfl, if_pos rfl, Vector.toList_set, List.set_eq_take_append_cons_drop,
          if_pos (by simp)]
        rfl
  obtain ⟨hone, hle, htake⟩ := hsigned
  have hchars : sign.length + count_digits abs_value 1 =
      sign.length + (decimal abs_value.toNat).length := by omega
  have hroom : ¬ 64 - 1 ≤ sign.length + (decimal abs_value.toNat).length := by omega
  obtain ⟨left, d, w, hwrite, hleft, hadds, htext⟩ := write_pairs_spec abs_value
    ⟨buffer, sign.length + (decimal abs_value.toNat).length⟩ (by dsimp only; omega)
    (by dsimp only; omega)
  have htexts := congrArg List.length htext
  rw [List.length_append] at htexts
  have hptr := hadds.buffer_ptr
  dsimp only at hptr
  obtain ⟨d', hput, hadds'⟩ := write_left_spec left d hleft (by omega) (by omega)
  have hall := hadds.trans hadds' (by dsimp only; omega)
  rw [← htext] at hall
  have hptr' : d'.buffer_ptr = sign.length := Nat.add_right_cancel hall.buffer_ptr
  have hlist : d'.number_buffer.toList.take (sign.length + (decimal abs_value.toNat).length) =
      sign ++ decimal abs_value.toNat := by
    rw [hall.toList, hptr', htake]
    exact List.take_left' (List.length_append ..)
  refine ⟨d'.number_buffer, ?_⟩
  unfold write_number
  rw [hbuffer, hone, hchars]
  dsimp only
  rw [if_neg hroom, hwrite, ok_bind]
  dsimp only
  rw [hput, ok_bind, hlist, hsign]
  rfl

/-! ### The sign -/

theorem toInt_eq_ite (x : Int64) : x.toInt =
    if x.toInt < 0 then (x.toUInt64.toNat : ℤ) - (2 ^ 64 : ℕ) else x.toUInt64.toNat := by
  have hcond := BitVec.toInt_eq_toNat_cond x.toBitVec
  have hlt := x.toBitVec.isLt
  rw [Int64.toInt_toBitVec, Int64.toNat_toBitVec] at hcond
  rw [Int64.toNat_toBitVec] at hlt
  split at hcond <;> split <;> omega

theorem toNat_remove_sign {x : Int64} (h : x.toInt < 0) :
    (remove_sign x).toNat = x.toInt.natAbs := by
  have hneg : remove_sign x = -x.toUInt64 := by
    rw [remove_sign, Int64.toUInt64_neg, Int64.toUInt64_add, UInt64.neg_add]
    exact UInt64.sub_add_cancel ..
  have hnat := toInt_eq_ite x
  have hlt := x.toUInt64.toNat_lt
  have hle := x.le_toInt
  rw [if_pos h] at hnat
  have hsmall : UInt64.size - x.toUInt64.toNat < UInt64.size := by
    unfold UInt64.size
    omega
  rw [hneg, UInt64.toNat_neg, Nat.mod_eq_of_lt hsmall]
  unfold UInt64.size
  omega

theorem utf8_dump_integer (n : ℤ) : utf8 (Json.dump_integer n) =
    (if n < 0 then [0x2D] else []) ++ decimal n.natAbs := by
  show Utf8.encode (Json.dump_integer n).toList = _
  unfold Json.dump_integer
  split
  · rw [String.toList_append, Utf8.encode_append, Nat.toList_repr]
    rfl
  · rw [Nat.toList_repr]
    rfl

/-- Every signed number, the least one included, is written in decimal. -/
theorem dump_signed_spec (o : Bytes) (number_buffer : Vector UInt8 64) (x : Int64) :
    ∃ number_buffer', dump_signed o number_buffer x =
      .ok (o ++ utf8 (Json.dump_integer x.toInt), number_buffer') := by
  have hlt : x < 0 ↔ x.toInt < 0 := Int64.lt_iff_toInt_lt
  rw [utf8_dump_integer]
  unfold dump_signed
  split
  next hzero =>
    subst hzero
    exact ⟨number_buffer, rfl⟩
  next hnonzero =>
    split
    next hneg =>
      rw [if_pos (hlt.mp hneg), ← toNat_remove_sign (hlt.mp hneg)]
      exact write_number_spec o number_buffer true (remove_sign x)
    next hpos =>
      have hnat := toInt_eq_ite x
      rw [if_neg (hlt.not.mp hpos)] at hnat
      rw [if_neg (hlt.not.mp hpos), hnat, Int.natAbs_natCast]
      exact write_number_spec o number_buffer false x.toUInt64

theorem dump_unsigned_spec (o : Bytes) (number_buffer : Vector UInt8 64) (x : UInt64) :
    ∃ number_buffer', dump_unsigned o number_buffer x =
      .ok (o ++ utf8 (Json.dump_integer x.toNat), number_buffer') := by
  rw [utf8_dump_integer, if_neg (by omega), Int.natAbs_natCast]
  unfold dump_unsigned
  split
  next hzero =>
    subst hzero
    exact ⟨number_buffer, rfl⟩
  · exact write_number_spec o number_buffer false x

end Serializer

end SyncServiceUi
