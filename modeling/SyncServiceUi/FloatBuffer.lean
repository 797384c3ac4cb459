/-
SyncServiceUi/FloatBuffer.lean

`to_chars` and `serializer::dump_float` (`src/dependencies/json/json.hpp`):
the digits of a double, put into shape in the buffer they were written to.

`format_buffer` moves them apart to make room for a point or puts zeros and
an exponent around them.  In each of its four layouts the buffer ends up with
the text of a numeral of the same value (`Formats`).  So what `to_chars`
leaves is the text of a numeral that is rounded to the double again, a zero
with its sign included, and it depends on nothing that was in the buffer
before (`to_chars_spec`).
-/
import SyncServiceUi.Grisu

namespace SyncServiceUi

namespace DtoaImpl

open Binary64 Serializer DigitGeneration
open Completion (ok_bind)
open Lexer (Numeral)

/-! ### The code -/

/-- One byte after the other, from index `i` on. -/
def write (number_buffer : Vector UInt8 64) : ℕ → Bytes → Except Error (Vector UInt8 64)
  | _, [] => .ok number_buffer
  | i, c :: cs => do
      let number_buffer ← put number_buffer i c
      write number_buffer (i + 1) cs

def memset (number_buffer : Vector UInt8 64) (dest : ℕ) (ch : UInt8) (count : ℕ) :
    Except Error (Vector UInt8 64) :=
  write number_buffer dest (List.replicate count ch)

def memmove (number_buffer : Vector UInt8 64) (dest src count : ℕ) :
    Except Error (Vector UInt8 64) :=
  if src + count ≤ 64 then
    write number_buffer dest ((number_buffer.toList.drop src).take count)
  else .error .overflow

/-- The digits of the exponent, two at least. -/
def exponentDigits (k : ℕ) : List ℕ :=
  if k < 10 then [0, k]
  else if k < 100 then [k / 10, k % 10]
  else [k / 100, k % 100 / 10, k % 100 % 10]

def append_exponent (number_buffer : Vector UInt8 64) (buf : ℕ) (e : ℤ) :
    Except Error (Vector UInt8 64 × ℕ) := do
  json_assert (-1000 < e)
  json_assert (e < 1000)
  let sign : UInt8 := if e < 0 then 0x2D else 0x2B
  let number_buffer ← write number_buffer buf (sign :: (exponentDigits e.natAbs).map digit)
  return (number_buffer, buf + 1 + (exponentDigits e.natAbs).length)

/-- The buffer, and where the text in it ends. -/
def format_buffer (number_buffer : Vector UInt8 64) (buf len : ℕ)
    (decimal_exponent min_exp max_exp : ℤ) : Except Error (Vector UInt8 64 × ℕ) := do
  json_assert (min_exp < 0)
  json_assert (0 < max_exp)
  let k : ℤ := len
  let n : ℤ := len + decimal_exponent
  if k ≤ n ∧ n ≤ max_exp then do
    -- digits[000]
    let number_buffer ← memset number_buffer (buf + len) 0x30 (n.toNat - len)
    let number_buffer ← write number_buffer (buf + n.toNat) [0x2E, 0x30]
    return (number_buffer, buf + (n.toNat + 2))
  else if 0 < n ∧ n ≤ max_exp then do
    -- dig.its
    json_assert (n < k)
    let number_buffer ←
      memmove number_buffer (buf + (n.toNat + 1)) (buf + n.toNat) (len - n.toNat)
    let number_buffer ← put number_buffer (buf + n.toNat) 0x2E
    return (number_buffer, buf + (len + 1))
  else if min_exp < n ∧ n ≤ 0 then do
    -- 0.[000]digits
    let number_buffer ← memmove number_buffer (buf + (2 + (-n).toNat)) buf len
    let number_buffer ← put number_buffer buf 0x30
    let number_buffer ← put number_buffer (buf + 1) 0x2E
    let number_buffer ← memset number_buffer (buf + 2) 0x30 (-n).toNat
    return (number_buffer, buf + (2 + (-n).toNat + len))
  else if k = 1 then do
    -- dE+123
    let number_buffer ← put number_buffer (buf + 1) 0x65
    append_exponent number_buffer (buf + 1 + 1) (n - 1)
  else do
    -- d.igitsE+123
    let number_buffer ← memmove number_buffer (buf + 2) (buf + 1) (len - 1)
    let number_buffer ← put number_buffer (buf + 1) 0x2E
    let number_buffer ← put number_buffer (buf + (1 + len)) 0x65
    append_exponent number_buffer (buf + (1 + len) + 1) (n - 1)

def to_chars.kMinExp : ℤ := -4

def to_chars.kMaxExp : ℤ := 15

def max_digits10 : ℕ := 17

/-- A minus sign in front of the number, and the number without it. -/
def put_sign (number_buffer : Vector UInt8 64) (value : Double) :
    Except Error (Vector UInt8 64 × ℕ × Double) :=
  if value.signbit then do
    let number_buffer ← put number_buffer 0 0x2D
    return (number_buffer, 1, value.neg)
  else .ok (number_buffer, 0, value)

/-- `to_chars` with the whole buffer for its range: what it returns is where
the text ends. -/
def to_chars (number_buffer : Vector UInt8 64) (value : Double) :
    Except Error (Vector UInt8 64 × ℕ) := do
  let (number_buffer, first, value) ← put_sign number_buffer value
  if value.value = 0 then do
    let number_buffer ← write number_buffer first [0x30, 0x2E, 0x30]
    return (number_buffer, first + 3)
  else do
    json_assert (max_digits10 ≤ 64 - first)
    let (g, decimal_exponent) ← grisu2 ⟨number_buffer, 0⟩ first value
    json_assert (g.length ≤ max_digits10)
    json_assert (to_chars.kMaxExp + 2 ≤ (64 - first : ℕ))
    json_assert (2 + (-to_chars.kMinExp - 1) + max_digits10 ≤ (64 - first : ℕ))
    json_assert (max_digits10 + 6 ≤ 64 - first)
    format_buffer g.number_buffer first g.length decimal_exponent to_chars.kMinExp to_chars.kMaxExp

/-! ### Bytes moved in the buffer -/

section Buffer

variable {number_buffer : Vector UInt8 64} {i m : ℕ} {a b c xs : Bytes}

theorem put_spec {x y : UInt8} (h : a ++ (x :: c) <+: number_buffer.toList) (hi : a.length = i) :
    ∃ number_buffer', put number_buffer i y = .ok number_buffer' ∧
      a ++ (y :: c) <+: number_buffer'.toList := by
  subst hi
  have hlength := h.length_le
  rw [List.length_append, List.length_cons, Vector.length_toList] at hlength
  have hlt : a.length < 64 := by omega
  refine ⟨_, dif_pos hlt, ?_⟩
  obtain ⟨rest, hrest⟩ := h
  refine ⟨rest, ?_⟩
  rw [Vector.toList_set, ← hrest, List.append_assoc, List.append_assoc,
    List.set_append_right _ _ (le_refl _), Nat.sub_self]
  rfl

/-- Bytes over as many others. -/
theorem write_spec (h : a ++ (b ++ c) <+: number_buffer.toList) (hi : a.length = i)
    (hlength : b.length = xs.length) :
    ∃ number_buffer', write number_buffer i xs = .ok number_buffer' ∧
      a ++ (xs ++ c) <+: number_buffer'.toList := by
  induction xs generalizing a b i number_buffer with
  | nil =>
      rw [List.length_nil, List.length_eq_zero_iff] at hlength
      rw [hlength] at h
      exact ⟨number_buffer, rfl, h⟩
  | cons x xs ih =>
      obtain ⟨y, b, rfl⟩ := List.exists_cons_of_length_eq_add_one hlength
      obtain ⟨nb₁, hput, h₁⟩ := @put_spec number_buffer i a (b ++ c) y x h hi
      rw [List.append_cons] at h₁
      obtain ⟨nb₂, hwrite, h₂⟩ := @ih _ (i + 1) _ _ h₁
        (by rw [List.length_append, List.length_singleton, hi]) (Nat.succ.inj hlength)
      rw [List.append_assoc] at h₂
      refine ⟨nb₂, ?_, h₂⟩
      rw [write, hput]
      exact hwrite

/-- What is behind a prefix of the buffer. -/
theorem exists_behind (h : a <+: number_buffer.toList) (hroom : a.length + m ≤ 64) :
    ∃ b, b.length = m ∧ a ++ b <+: number_buffer.toList := by
  obtain ⟨rest, hrest⟩ := h
  have hlength := congrArg List.length hrest
  rw [List.length_append, Vector.length_toList] at hlength
  refine ⟨rest.take m, ?_, ?_⟩
  · rw [List.length_take]
    omega
  · rw [← hrest]
    exact (List.prefix_append_right_inj a).mpr (List.take_prefix m rest)

/-- Bytes behind the others. -/
theorem write_behind (h : a <+: number_buffer.toList) (hi : a.length = i)
    (hroom : i + xs.length ≤ 64) :
    ∃ number_buffer', write number_buffer i xs = .ok number_buffer' ∧
      a ++ xs <+: number_buffer'.toList := by
  subst hi
  obtain ⟨b, hb, hbehind⟩ := exists_behind h hroom
  rw [← List.append_nil b] at hbehind
  obtain ⟨nb, hwrite, hnb⟩ := write_spec hbehind rfl hb
  rw [List.append_nil] at hnb
  exact ⟨nb, hwrite, hnb⟩

/-- Bytes moved up by `m` leave a gap. -/
theorem memmove_spec {count : ℕ} (h : a ++ b <+: number_buffer.toList) (hi : a.length = i)
    (hb : b.length = count) (hroom : i + m + count ≤ 64) :
    ∃ number_buffer' gap, memmove number_buffer (i + m) i count = .ok number_buffer' ∧
      gap.length = m ∧ a ++ (gap ++ b) <+: number_buffer'.toList := by
  subst hi hb
  obtain ⟨gap, hgap, hbehind⟩ := @exists_behind _ m _ ((List.prefix_append a b).trans h) (by omega)
  have htaken : (number_buffer.toList.drop a.length).take b.length = b := by
    obtain ⟨rest, hrest⟩ := h
    rw [← hrest, List.append_assoc, List.drop_left, List.take_left]
  obtain ⟨nb, hwrite, hnb⟩ := @write_behind number_buffer (a.length + m) (a ++ gap) b hbehind
    (by rw [List.length_append, hgap]) hroom
  rw [List.append_assoc] at hnb
  refine ⟨nb, gap, ?_, hgap, hnb⟩
  rw [memmove, if_pos (by omega), htaken]
  exact hwrite

end Buffer

/-! ### Numerals of digits -/

theorem encode_digitChars {ds : List ℕ} (h : ∀ d ∈ ds, d < 10) :
    Utf8.encode (ds.map Nat.digitChar) = ds.map digit := by
  induction ds with
  | nil => rfl
  | cons d ds ih =>
      obtain ⟨hd, hds⟩ := List.forall_mem_cons.mp h
      rw [List.map_cons, Utf8.encode_cons, encodeChar_digitChar d hd, ih hds]
      rfl

theorem isDigit_digitChar : ∀ d < 10, d.digitChar.isDigit = true := by
  decide

theorem isDigit_digitChars {ds : List ℕ} (h : ∀ d ∈ ds, d < 10) :
    ∀ c ∈ ds.map Nat.digitChar, c.isDigit = true := by
  intro c hc
  obtain ⟨d, hd, rfl⟩ := List.mem_map.mp hc
  exact isDigit_digitChar d (h d hd)

theorem ofDigitChars_digitChars {ds : List ℕ} (h : ∀ d ∈ ds, d < 10) :
    Nat.ofDigitChars 10 (ds.map Nat.digitChar) 0 = number ds := by
  unfold number
  generalize 0 = n
  induction ds generalizing n with
  | nil => exact Nat.ofDigitChars_nil
  | cons d ds ih =>
      obtain ⟨hd, hds⟩ := List.forall_mem_cons.mp h
      rw [List.map_cons, Nat.ofDigitChars_cons_digitChar_of_lt_ten hd, ih hds]
      rfl

theorem digitChar_eq_zero_iff : ∀ d < 10, d.digitChar = '0' ↔ d = 0 := by
  decide

/-- A point and the digits behind it, if there are any. -/
def pointed : List ℕ → Bytes
  | [] => []
  | d :: ds => 0x2E :: (d :: ds).map digit

/-- The numeral with these digits before and behind the point. -/
theorem exists_numeral (negative : Bool) {whole fraction : List ℕ}
    (exponent : Option Lexer.Exponent) (hne : whole ≠ []) (hdigit : ∀ d ∈ whole ++ fraction, d < 10)
    (hzero : ∀ t, whole = 0 :: t → t = []) (hfloat : fraction ≠ [] ∨ exponent ≠ none) :
    ∃ n : Numeral, n.negative = negative ∧ n.isInteger = false ∧
      n.magnitude = number (whole ++ fraction) *
        10 ^ (Lexer.exponentValue exponent - fraction.length) ∧
      Utf8.encode n.unsignedText =
        whole.map digit ++ (pointed fraction ++ Utf8.encode (Lexer.exponentText exponent)) := by
  obtain ⟨hwhole, hfraction⟩ := List.forall_mem_append.mp hdigit
  have hwhole_zero : ∀ cs, whole.map Nat.digitChar = '0' :: cs → cs = [] := by
    intro cs h
    obtain ⟨d, t, rfl, hd, ht⟩ := List.map_eq_cons_iff.mp h
    obtain rfl := (digitChar_eq_zero_iff d (hwhole d List.mem_cons_self)).mp hd
    rw [hzero t rfl] at ht
    exact ht.symm
  refine ⟨⟨negative, whole.map Nat.digitChar, fraction.map Nat.digitChar, exponent,
    fun h => hne (List.map_eq_nil_iff.mp h), isDigit_digitChars hwhole, hwhole_zero,
    isDigit_digitChars hfraction⟩, rfl, ?_, ?_, ?_⟩
  · rw [Lexer.Numeral.isInteger, Bool.and_eq_false_iff]
    refine hfloat.imp ?_ ?_
    · intro h
      simpa using h
    · intro h
      exact Option.isNone_eq_false_iff.mpr (Option.ne_none_iff_isSome.mp h)
  · rw [Lexer.Numeral.magnitude]
    dsimp only
    rw [← List.map_append, ofDigitChars_digitChars hdigit, List.length_map]
  · rw [Lexer.Numeral.unsignedText]
    dsimp only
    rw [Utf8.encode_append, Utf8.encode_append, encode_digitChars hwhole]
    congr 2
    cases fraction with
    | nil => rfl
    | cons d ds =>
        show Utf8.encode ('.' :: (d :: ds).map Nat.digitChar) = _
        rw [Utf8.encode_cons, encode_digitChars hfraction]
        rfl

/-! ### The exponent -/

theorem exponentDigits_spec {k : ℕ} (hk : k < 1000) :
    exponentDigits k ≠ [] ∧ (∀ d ∈ exponentDigits k, d < 10) ∧ number (exponentDigits k) = k := by
  unfold exponentDigits
  split_ifs
  · refine ⟨by simp, ?_, by simp [number]⟩
    intro d hd
    simp only [List.mem_cons, List.not_mem_nil, or_false] at hd
    omega
  · refine ⟨by simp, ?_, ?_⟩
    · intro d hd
      simp only [List.mem_cons, List.not_mem_nil, or_false] at hd
      omega
    · simp only [number, List.foldl_cons, List.foldl_nil]
      omega
  · refine ⟨by simp, ?_, ?_⟩
    · intro d hd
      simp only [List.mem_cons, List.not_mem_nil, or_false] at hd
      omega
    · simp only [number, List.foldl_cons, List.foldl_nil]
      omega

theorem length_exponentDigits_le (k : ℕ) : (exponentDigits k).length ≤ 3 := by
  unfold exponentDigits
  split_ifs <;> simp

/-- The exponent part `append_exponent` writes. -/
def exponentPart (e : ℤ) (he : e.natAbs < 1000) : Lexer.Exponent where
  letter := 'e'
  negative := some (decide (e < 0))
  digits := (exponentDigits e.natAbs).map Nat.digitChar
  letter_eq := .inl rfl
  digits_ne h := (exponentDigits_spec he).1 (List.map_eq_nil_iff.mp h)
  isDigit := isDigit_digitChars (exponentDigits_spec he).2.1

theorem value_exponentPart (e : ℤ) (he : e.natAbs < 1000) : (exponentPart e he).value = e := by
  rw [Lexer.Exponent.value, exponentPart]
  dsimp only
  rw [ofDigitChars_digitChars (exponentDigits_spec he).2.1, (exponentDigits_spec he).2.2]
  by_cases hneg : e < 0
  · rw [if_pos (by simp [hneg])]
    omega
  · rw [if_neg (by simp [hneg])]
    omega

theorem encode_exponentPart (e : ℤ) (he : e.natAbs < 1000) :
    Utf8.encode (exponentPart e he).text =
      0x65 :: (if e < 0 then 0x2D else 0x2B) :: (exponentDigits e.natAbs).map digit := by
  rw [Lexer.Exponent.text, exponentPart]
  dsimp only
  rw [Utf8.encode_cons, Utf8.encode_append, encode_digitChars (exponentDigits_spec he).2.1]
  by_cases hneg : e < 0
  · rw [if_pos hneg, decide_eq_true hneg]
    rfl
  · rw [if_neg hneg, decide_eq_false hneg]
    rfl

/-- The exponent part behind what is there. -/
theorem append_exponent_spec {number_buffer : Vector UInt8 64} {i : ℕ} {a : Bytes} {e : ℤ}
    (he : e.natAbs < 1000) (h : a <+: number_buffer.toList) (hi : a.length = i)
    (hroom : i + 5 ≤ 64) :
    ∃ number_buffer', (do
        let number_buffer ← put number_buffer i 0x65
        append_exponent number_buffer (i + 1) e) =
          .ok (number_buffer', (a ++ Utf8.encode (exponentPart e he).text).length) ∧
      a ++ Utf8.encode (exponentPart e he).text <+: number_buffer'.toList := by
  have hthree := length_exponentDigits_le e.natAbs
  obtain ⟨b, hb, hbehind⟩ := @exists_behind _ 1 _ h (by omega)
  obtain ⟨x, rfl⟩ := List.length_eq_one_iff.mp hb
  obtain ⟨nb₁, hput, h₁⟩ := @put_spec number_buffer i a [] x 0x65 hbehind hi
  obtain ⟨sign, hsign⟩ : ∃ sign : UInt8, (if e < 0 then 0x2D else 0x2B) = sign := ⟨_, rfl⟩
  obtain ⟨nb₂, hwrite, h₂⟩ := @write_behind nb₁ (i + 1) (a ++ [0x65])
    (sign :: (exponentDigits e.natAbs).map digit) h₁
    (by rw [List.length_append, List.length_singleton, hi])
    (by
      rw [List.length_cons, List.length_map]
      omega)
  rw [encode_exponentPart, hsign, List.append_cons]
  refine ⟨nb₂, ?_, h₂⟩
  rw [hput, ok_bind, append_exponent, json_assert_bind (by omega), json_assert_bind (by omega)]
  dsimp only
  rw [hsign, hwrite, ok_bind]
  simp only [List.length_append, List.length_cons, List.length_nil, List.length_map, hi]
  congr 2
  omega

/-! ### The four layouts -/

/-- Digits as `grisu2` leaves them. -/
structure Shortest (ds : List ℕ) : Prop where
  ne : ds ≠ []
  length_le : ds.length ≤ 17
  digit : ∀ d ∈ ds, d < 10
  first : ∀ t, ds ≠ 0 :: t

/-- Behind a sign or at the start, `format_buffer` turns the digits into the
text of the numeral, which has the same value. -/
structure Formats (ds : List ℕ) (e : ℤ) (n : Numeral) : Prop where
  isInteger : n.isInteger = false
  magnitude : n.magnitude = number ds * 10 ^ e
  run : ∀ (pre : Bytes) (number_buffer : Vector UInt8 64), pre.length ≤ 1 →
    pre ++ ds.map digit <+: number_buffer.toList →
    ∃ number_buffer', format_buffer number_buffer pre.length ds.length e to_chars.kMinExp
        to_chars.kMaxExp = .ok (number_buffer', (pre ++ Utf8.encode n.unsignedText).length) ∧
      pre ++ Utf8.encode n.unsignedText <+: number_buffer'.toList

section Layouts

variable {ds : List ℕ} {e : ℤ}

/-- `digits[000].0` -/
theorem formats_whole (h : Shortest ds) (negative : Bool) {z : ℕ} (hz : ds.length + z ≤ 15) :
    ∃ n : Numeral, n.negative = negative ∧ Formats ds z n := by
  obtain ⟨n, hnegative, hinteger, hmagnitude, htext⟩ :=
    @exists_numeral negative (ds ++ List.replicate z 0) [0] none
      (List.append_ne_nil_of_left_ne_nil h.ne _)
      (by
        intro d hd
        rw [List.mem_append, List.mem_append] at hd
        rcases hd with (hd | hd) | hd
        · exact h.digit d hd
        · rw [List.eq_of_mem_replicate hd]
          decide
        · rw [List.mem_singleton.mp hd]
          decide)
      (by
        intro t ht
        obtain ⟨d, ds', rfl⟩ := List.exists_cons_of_ne_nil h.ne
        rw [List.cons_append] at ht
        obtain ⟨rfl, -⟩ := List.cons.inj ht
        exact absurd rfl (h.first ds'))
      (.inl (List.cons_ne_nil _ _))
  refine ⟨n, hnegative, hinteger, ?_, ?_⟩
  · rw [hmagnitude, number_append_singleton, number_append, number_replicate_zero,
      List.length_replicate, List.length_singleton]
    show _ * (10 : ℚ) ^ ((0 : ℤ) - (1 : ℕ)) = _
    push_cast
    norm_num
    ring
  · intro pre nb hpre hnb
    have hbytes : pre ++ Utf8.encode n.unsignedText =
        pre ++ ds.map digit ++ List.replicate z 0x30 ++ [0x2E, 0x30] := by
      rw [htext]
      simp [pointed, Lexer.exponentText, digit]
    have hn : (ds.length + (z : ℤ)).toNat = ds.length + z := by omega
    obtain ⟨nb₁, hmemset, h₁⟩ := @write_behind nb (pre.length + ds.length) (pre ++ ds.map digit)
      (List.replicate z 0x30) hnb (by rw [List.length_append, List.length_map])
      (by
        rw [List.length_replicate]
        omega)
    obtain ⟨nb₂, hwrite, h₂⟩ := @write_behind nb₁ (pre.length + (ds.length + z)) _ [0x2E, 0x30] h₁
      (by
        rw [List.length_append, List.length_append, List.length_map, List.length_replicate]
        omega)
      (by
        rw [List.length_cons, List.length_singleton]
        omega)
    rw [← hbytes] at h₂
    refine ⟨nb₂, ?_, h₂⟩
    rw [format_buffer, json_assert_bind (by decide), json_assert_bind (by decide)]
    dsimp only
    rw [if_pos ⟨by omega, by rw [to_chars.kMaxExp]; omega⟩, hn, Nat.add_sub_cancel_left, memset,
      hmemset, ok_bind, hwrite, ok_bind, hbytes]
    simp only [List.length_append, List.length_map, List.length_replicate, List.length_cons,
      List.length_nil]
    congr 2
    omega

/-- `dig.its` -/
theorem formats_point (h : Shortest ds) (negative : Bool) {n : ℕ} (hn : 0 < n) (hle : n ≤ 15)
    (hlt : n < ds.length) (he : (n : ℤ) = ds.length + e) :
    ∃ m : Numeral, m.negative = negative ∧ Formats ds e m := by
  have hlength := h.length_le
  obtain ⟨whole, fraction, hds, hwhole⟩ :
      ∃ whole fraction : List ℕ, ds = whole ++ fraction ∧ whole.length = n :=
    ⟨ds.take n, ds.drop n, (List.take_append_drop n ds).symm, by rw [List.length_take]; omega⟩
  have hsum := congrArg List.length hds
  rw [List.length_append, hwhole] at hsum
  obtain ⟨d, fraction, rfl⟩ := List.exists_cons_of_length_pos (show 0 < fraction.length by omega)
  obtain ⟨m, hnegative, hinteger, hmagnitude, htext⟩ :=
    @exists_numeral negative whole (d :: fraction) none
      (by
        rintro rfl
        exact hn.ne hwhole)
      (by
        rw [← hds]
        exact h.digit)
      (by
        intro t ht
        rw [ht, List.cons_append] at hds
        exact absurd hds (h.first _))
      (.inl (List.cons_ne_nil _ _))
  refine ⟨m, hnegative, hinteger, ?_, ?_⟩
  · have hexponent : Lexer.exponentValue none - ((d :: fraction).length : ℤ) = e := by
      show 0 - ((d :: fraction).length : ℤ) = e
      omega
    rw [hmagnitude, ← hds, hexponent]
  · intro pre nb hpre hnb
    have hbytes : pre ++ Utf8.encode m.unsignedText =
        pre ++ whole.map digit ++ (0x2E :: (d :: fraction).map digit) := by
      rw [htext]
      simp [pointed, Lexer.exponentText]
    rw [hds, List.map_append, ← List.append_assoc] at hnb
    have hi : (pre ++ whole.map digit).length = pre.length + n := by
      rw [List.length_append, List.length_map, hwhole]
    obtain ⟨nb₁, gap, hmove, hgap, h₁⟩ := @memmove_spec nb (pre.length + n) 1 _ _ (ds.length - n)
      hnb hi
      (by
        rw [List.length_map]
        omega)
      (by omega)
    obtain ⟨x, rfl⟩ := List.length_eq_one_iff.mp hgap
    rw [List.singleton_append] at h₁
    obtain ⟨nb₂, hput, h₂⟩ := @put_spec nb₁ _ _ _ x 0x2E h₁ hi
    rw [← hbytes] at h₂
    refine ⟨nb₂, ?_, h₂⟩
    rw [format_buffer, json_assert_bind (by decide), json_assert_bind (by decide)]
    dsimp only
    rw [← he, Int.toNat_natCast, if_neg (by omega),
      if_pos ⟨by omega, by rw [to_chars.kMaxExp]; omega⟩, json_assert_bind (by omega),
      ← Nat.add_assoc pre.length, hmove, ok_bind, hput, ok_bind, hbytes, List.length_append, hi,
      List.length_cons, List.length_map]
    congr 2
    omega

/-- `0.[000]digits` -/
theorem formats_fraction (h : Shortest ds) (negative : Bool) {z : ℕ} (hz : z < 4)
    (he : ds.length + e = -z) : ∃ n : Numeral, n.negative = negative ∧ Formats ds e n := by
  have hlength := h.length_le
  have hpos := List.length_pos_of_ne_nil h.ne
  obtain ⟨n, hnegative, hinteger, hmagnitude, htext⟩ :=
    @exists_numeral negative [0] (List.replicate z 0 ++ ds) none (List.cons_ne_nil _ _)
      (by
        intro d hd
        rw [List.mem_append, List.mem_append] at hd
        rcases hd with hd | hd | hd
        · rw [List.mem_singleton.mp hd]
          decide
        · rw [List.eq_of_mem_replicate hd]
          decide
        · exact h.digit d hd)
      (fun t ht => (List.cons.inj ht).2.symm)
      (.inl (List.append_ne_nil_of_right_ne_nil _ h.ne))
  refine ⟨n, hnegative, hinteger, ?_, ?_⟩
  · have hexponent : Lexer.exponentValue none - ((List.replicate z 0 ++ ds).length : ℤ) = e := by
      show 0 - ((List.replicate z 0 ++ ds).length : ℤ) = e
      rw [List.length_append, List.length_replicate]
      omega
    have hnumber : number ([0] ++ (List.replicate z 0 ++ ds)) = number ds := by
      rw [number_append, number_append, number_replicate_zero]
      simp [number]
    rw [hmagnitude, hnumber, hexponent]
  · intro pre nb hpre hnb
    have hbytes : pre ++ Utf8.encode n.unsignedText =
        pre ++ [0x30] ++ [0x2E] ++ (List.replicate z 0x30 ++ ds.map digit) := by
      have hpointed : pointed (List.replicate z 0 ++ ds) =
          0x2E :: (List.replicate z 0 ++ ds).map digit := by
        obtain ⟨d, t, hcons⟩ := List.exists_cons_of_ne_nil
          (List.append_ne_nil_of_right_ne_nil (List.replicate z 0) h.ne)
        rw [hcons]
        rfl
      rw [htext, hpointed]
      simp [Lexer.exponentText, digit]
    obtain ⟨nb₁, gap, hmove, hgap, h₁⟩ := @memmove_spec nb pre.length (2 + z) _ _ ds.length hnb
      rfl (List.length_map _) (by omega)
    -- the gap takes a zero, the point and more zeros
    obtain ⟨x, gap, rfl⟩ :=
      List.exists_cons_of_length_eq_add_one (hgap.trans (show 2 + z = z + 1 + 1 by omega))
    obtain ⟨y, gap, rfl⟩ := List.exists_cons_of_length_eq_add_one
      (Nat.succ.inj (hgap.trans (show 2 + z = z + 1 + 1 by omega)))
    have hzeros : gap.length = z := by
      rw [List.length_cons, List.length_cons] at hgap
      omega
    obtain ⟨nb₂, hput, h₂⟩ := @put_spec nb₁ pre.length pre _ x 0x30 h₁ rfl
    rw [List.append_cons] at h₂
    obtain ⟨nb₃, hput', h₃⟩ := @put_spec nb₂ (pre.length + 1) _ _ y 0x2E h₂ (by
      rw [List.length_append, List.length_singleton])
    rw [List.append_cons] at h₃
    obtain ⟨nb₄, hmemset, h₄⟩ := @write_spec nb₃ (pre.length + 2) _ gap (ds.map digit)
      (List.replicate z 0x30) h₃
      (by rw [List.length_append, List.length_append, List.length_singleton, List.length_singleton])
      (by rw [hzeros, List.length_replicate])
    rw [← hbytes] at h₄
    have hneg : (-(-(z : ℤ))).toNat = z := by omega
    refine ⟨nb₄, ?_, h₄⟩
    rw [format_buffer, json_assert_bind (by decide), json_assert_bind (by decide)]
    dsimp only
    rw [he, hneg, if_neg (by omega), if_neg (by omega),
      if_pos ⟨by rw [to_chars.kMinExp]; omega, by omega⟩, hmove, ok_bind, hput, ok_bind, hput',
      ok_bind, memset, hmemset, ok_bind, hbytes]
    simp only [List.length_append, List.length_map, List.length_replicate, List.length_cons,
      List.length_nil]
    congr 2
    omega

/-- `dE+123` and `d.igitsE+123` -/
theorem formats_exponent (h : Shortest ds) (negative : Bool)
    (hfixed : 15 < ds.length + e ∨ ds.length + e ≤ -4) (hlow : -400 ≤ e) (hhigh : e ≤ 400) :
    ∃ n : Numeral, n.negative = negative ∧ Formats ds e n := by
  have hlength := h.length_le
  obtain ⟨d, fraction, rfl⟩ := List.exists_cons_of_ne_nil h.ne
  obtain ⟨k, hk⟩ : ∃ k, (d :: fraction).length = k := ⟨_, rfl⟩
  have hfraction : fraction.length + 1 = k := hk
  rw [hk] at hlength hfixed
  have he : ((k : ℤ) + e - 1).natAbs < 1000 := by omega
  obtain ⟨n, hnegative, hinteger, hmagnitude, htext⟩ :=
    @exists_numeral negative [d] fraction (some (exponentPart _ he)) (List.cons_ne_nil _ _) h.digit
      (fun t ht => (List.cons.inj ht).2.symm) (.inr (Option.some_ne_none _))
  refine ⟨n, hnegative, hinteger, ?_, ?_⟩
  · have hexponent : Lexer.exponentValue (some (exponentPart _ he)) - (fraction.length : ℤ) = e := by
      show (exponentPart _ he).value - (fraction.length : ℤ) = e
      rw [value_exponentPart]
      omega
    rw [hmagnitude, hexponent]
    rfl
  · intro pre nb hpre hnb
    rw [format_buffer, json_assert_bind (by decide), json_assert_bind (by decide), hk]
    dsimp only
    rw [to_chars.kMaxExp, to_chars.kMinExp, if_neg (by omega), if_neg (by omega),
      if_neg (by omega)]
    rcases fraction with - | ⟨d', fraction⟩
    · have hbytes : pre ++ Utf8.encode n.unsignedText =
          pre ++ [digit d] ++ Utf8.encode (exponentPart _ he).text := by
        rw [htext]
        simp [pointed, Lexer.exponentText]
      rw [hbytes, if_pos (by rw [← hfraction]; rfl)]
      exact append_exponent_spec he hnb (by rw [List.length_append, List.length_singleton])
        (by omega)
    · have hbytes : pre ++ Utf8.encode n.unsignedText = pre ++ [digit d] ++
          (0x2E :: (d' :: fraction).map digit) ++ Utf8.encode (exponentPart _ he).text := by
        rw [htext]
        simp [pointed, Lexer.exponentText]
      have hi : (pre ++ [digit d]).length = pre.length + 1 := by
        rw [List.length_append, List.length_singleton]
      rw [List.map_cons, List.append_cons] at hnb
      obtain ⟨nb₁, gap, hmove, hgap, h₁⟩ := @memmove_spec nb (pre.length + 1) 1 _ _ (k - 1) hnb hi
        (by
          rw [List.length_map]
          omega)
        (by omega)
      obtain ⟨x, rfl⟩ := List.length_eq_one_iff.mp hgap
      rw [List.singleton_append] at h₁
      obtain ⟨nb₂, hput, h₂⟩ := @put_spec nb₁ _ _ _ x 0x2E h₁ hi
      rw [hbytes, if_neg (by rw [List.length_cons] at hfraction; omega), hmove, ok_bind, hput,
        ok_bind]
      exact append_exponent_spec he h₂
        (by
          rw [List.length_append, hi, List.length_cons, List.length_map]
          omega)
        (by omega)

end Layouts

/-- One of the layouts fits. -/
theorem exists_formats {ds : List ℕ} {e : ℤ} (h : Shortest ds) (negative : Bool) (hlow : -400 ≤ e)
    (hhigh : e ≤ 400) : ∃ n : Numeral, n.negative = negative ∧ Formats ds e n := by
  by_cases hwhole : 0 ≤ e ∧ ds.length + e ≤ 15
  · obtain ⟨z, rfl⟩ := Int.eq_ofNat_of_zero_le hwhole.1
    exact formats_whole h negative (by omega)
  · by_cases hpoint : 0 < ds.length + e ∧ ds.length + e ≤ 15
    · obtain ⟨n, hn⟩ := Int.eq_ofNat_of_zero_le hpoint.1.le
      exact @formats_point _ _ h negative n (by omega) (by omega) (by omega) hn.symm
    · by_cases hfraction : -4 < ds.length + e ∧ ds.length + e ≤ 0
      · obtain ⟨z, hz⟩ := Int.eq_ofNat_of_zero_le (show 0 ≤ -(ds.length + e) by omega)
        exact @formats_fraction _ _ h negative z (by omega) (by omega)
      · exact formats_exponent h negative (by omega) hlow hhigh

/-! ### The text of a double -/

/-- The numeral is a text of the double, of 17 digits at most. -/
structure Denotes (n : Numeral) (d : Double) : Prop where
  negative : n.negative = d.signbit
  isInteger : n.isInteger = false
  rounds : ∀ negative : Bool, toDouble (if negative then -n.magnitude else n.magnitude) =
    some (if negative then -d.magnitude else d.magnitude)
  zero : d.magnitude = 0 → n.magnitude = 0
  short : ∃ (N : ℕ) (e : ℤ), N < 10 ^ 17 ∧ n.magnitude = N * 10 ^ e

/-- The sign is written first, and the number without it is left. -/
theorem put_sign_spec (d : Double) :
    ∃ d' : Double, d'.signbit = false ∧ d'.magnitude = d.magnitude ∧
      d'.significand = d.significand ∧ d'.minus = d.minus ∧ d'.plus = d.plus ∧
      ∀ number_buffer : Vector UInt8 64, ∃ number_buffer' : Vector UInt8 64,
        put_sign number_buffer d =
            .ok (number_buffer', (Utf8.encode (Lexer.minusText d.signbit)).length, d') ∧
          Utf8.encode (Lexer.minusText d.signbit) <+: number_buffer'.toList := by
  rcases hsign : d.signbit with - | -
  · refine ⟨d, hsign, rfl, rfl, rfl, rfl, ?_⟩
    intro nb
    exact ⟨nb, by rw [put_sign, hsign]; rfl, List.nil_prefix⟩
  · refine ⟨d.neg, by rw [d.signbit_neg, hsign]; rfl, d.magnitude_neg, d.significand_neg,
      d.minus_neg, d.plus_neg, ?_⟩
    intro nb
    obtain ⟨b, hb, hbehind⟩ := @exists_behind nb 1 [] List.nil_prefix (by decide)
    obtain ⟨x, rfl⟩ := List.length_eq_one_iff.mp hb
    obtain ⟨nb₁, hput, h₁⟩ := @put_spec nb 0 [] [] x 0x2D hbehind rfl
    refine ⟨nb₁, ?_, h₁⟩
    rw [put_sign, if_pos hsign, hput]
    rfl

/-- What `to_chars` leaves in the buffer, whatever was in it. -/
theorem to_chars_spec (d : Double) :
    ∃ n : Numeral, Denotes n d ∧ ∀ number_buffer, ∃ number_buffer',
      to_chars number_buffer d = .ok (number_buffer', (Utf8.encode n.text).length) ∧
        Utf8.encode n.text <+: number_buffer'.toList := by
  obtain ⟨d', hsign, hmagnitude, hsignificand, hminus, hplus, hunsigned⟩ := put_sign_spec d
  obtain ⟨pre, hpre⟩ : ∃ pre, Utf8.encode (Lexer.minusText d.signbit) = pre := ⟨_, rfl⟩
  have hone : pre.length ≤ 1 := by
    rw [← hpre]
    cases d.signbit <;> decide
  rw [hpre] at hunsigned
  have htext : ∀ n : Numeral, n.negative = d.signbit →
      Utf8.encode n.text = pre ++ Utf8.encode n.unsignedText := by
    intro n hn
    rw [Lexer.Numeral.text, Utf8.encode_append, hn, hpre]
  have hvalue : d'.value = d.magnitude := by
    rw [Double.value, if_neg (by simp [hsign]), hmagnitude]
  rcases Nat.eq_zero_or_pos d.significand with hzero | hpos
  · -- a zero of either sign
    have hd : d.magnitude = 0 := by
      rw [Double.magnitude, hzero, Nat.cast_zero, zero_mul]
    obtain ⟨n, hnegative, hinteger, hn, hbytes⟩ :=
      @exists_numeral d.signbit [0] [0] none (List.cons_ne_nil _ _) (by simp)
        (fun t ht => (List.cons.inj ht).2.symm) (.inl (List.cons_ne_nil _ _))
    have hmag : n.magnitude = 0 := by
      rw [hn]
      simp [number]
    have hround : toDouble 0 = some 0 := by decide +kernel
    refine ⟨n, ⟨hnegative, hinteger, ?_, fun _ => hmag, 0, 0, by decide, by rw [hmag]; simp⟩, ?_⟩
    · intro negative
      rw [hmag, hd, neg_zero, ite_self, hround]
    · intro nb
      obtain ⟨nb₁, hrun, h₁⟩ := hunsigned nb
      obtain ⟨nb₂, hwrite, h₂⟩ := @write_behind nb₁ pre.length pre [0x30, 0x2E, 0x30] h₁ rfl (by
        rw [List.length_cons, List.length_cons, List.length_singleton]
        omega)
      have hall : Utf8.encode n.text = pre ++ [0x30, 0x2E, 0x30] := by
        rw [htext n hnegative, hbytes]
        rfl
      rw [hall]
      refine ⟨nb₂, ?_, h₂⟩
      rw [to_chars, hrun, ok_bind]
      dsimp only
      rw [if_pos (hvalue.trans hd), hwrite, List.length_append]
      rfl
  · have hd : d.magnitude ≠ 0 := (d.significand_pos_iff).mp hpos
    obtain ⟨ds, e, hgrisu, hne, hlength, hdigit, hfirst, hlow, hhigh, hbelow, habove⟩ :=
      @grisu2_spec pre (by omega) d' hsign (hsignificand ▸ hpos)
    rw [hminus] at hbelow
    rw [hplus] at habove
    obtain ⟨n, hnegative, hformats⟩ :=
      exists_formats ⟨hne, hlength, hdigit, hfirst⟩ d.signbit hlow hhigh
    refine ⟨n, ⟨hnegative, hformats.isInteger, ?_, fun h => absurd h hd, number ds, e, ?_,
      hformats.magnitude⟩, ?_⟩
    · rw [hformats.magnitude]
      exact Double.toDouble_of_between hpos hbelow habove
    · exact (number_lt hdigit).trans_le (Nat.pow_le_pow_right (by decide) hlength)
    · intro nb
      obtain ⟨nb₁, hrun, h₁⟩ := hunsigned nb
      obtain ⟨g, hgenerate, hg⟩ := hgrisu ⟨nb₁, 0⟩ ⟨rfl, by simpa using h₁⟩
      obtain ⟨nb₂, hformat, h₂⟩ := hformats.run pre g.number_buffer hone hg.text
      dsimp only at hgenerate
      rw [htext n hnegative]
      refine ⟨nb₂, ?_, h₂⟩
      rw [to_chars, hrun, ok_bind]
      dsimp only
      rw [if_neg (by rwa [hvalue]), json_assert_bind (by rw [max_digits10]; omega), hgenerate,
        ok_bind]
      dsimp only
      rw [hg.length, json_assert_bind (show ds.length ≤ max_digits10 from hlength),
        json_assert_bind (by rw [to_chars.kMaxExp]; omega),
        json_assert_bind (by rw [to_chars.kMinExp, max_digits10]; omega),
        json_assert_bind (by rw [max_digits10]; omega), hformat]

end DtoaImpl

open Binary64 DtoaImpl

/-- `dump_float` of a finite number. -/
def Serializer.dump_float (o : Bytes) (number_buffer : Vector UInt8 64) (x : Double) :
    Except Error (Bytes × Vector UInt8 64) := do
  let (number_buffer, last) ← to_chars number_buffer x
  return (o ++ number_buffer.toList.take last, number_buffer)

/-- The text of a floating-point number: what `to_chars` writes over zeros. -/
def float_text (d : Double) : String :=
  match to_chars (.replicate 64 0) d with
  | .ok (number_buffer, last) => String.ofList (Utf8.decode (number_buffer.toList.take last))
  | .error _ => ""

/-- The library with its parser and with this text. -/
def library : Nlohmann :=
  nlohmann float_text

/-- The text is that of a numeral, and it is written whatever the buffer held
before. -/
theorem float_text_spec (d : Double) :
    ∃ n : Lexer.Numeral, Denotes n d ∧ float_text d = String.ofList n.text ∧
      ∀ o number_buffer, ∃ number_buffer', Serializer.dump_float o number_buffer d =
        .ok (o ++ utf8 (float_text d), number_buffer') := by
  obtain ⟨n, hdenotes, hchars⟩ := to_chars_spec d
  have htake : ∀ nb : Vector UInt8 64, Utf8.encode n.text <+: nb.toList →
      nb.toList.take (Utf8.encode n.text).length = Utf8.encode n.text := by
    intro nb h
    exact (List.prefix_iff_eq_take.mp h).symm
  have htext : float_text d = String.ofList n.text := by
    obtain ⟨nb, hrun, hnb⟩ := hchars (.replicate 64 0)
    rw [float_text, hrun]
    show String.ofList (Utf8.decode (nb.toList.take _)) = _
    rw [htake nb hnb, Utf8.decode_of_encode]
  refine ⟨n, hdenotes, htext, ?_⟩
  intro o nb
  obtain ⟨nb', hrun, hnb⟩ := hchars nb
  refine ⟨nb', ?_⟩
  have hutf8 : utf8 (float_text d) = Utf8.encode n.text := by
    rw [htext]
    show Utf8.encode (String.ofList n.text).toList = _
    rw [String.toList_ofList]
  rw [Serializer.dump_float, hrun, Completion.ok_bind, hutf8]
  show Except.ok (o ++ nb'.toList.take (Utf8.encode n.text).length, nb') = _
  rw [htake nb' hnb]

/-- The double is read back from its text, with its sign. -/
theorem spells_float_text (d : Double) :
    Lexer.Spells (.value_float (some d)) (utf8 (float_text d)) := by
  obtain ⟨n, hdenotes, htext, -⟩ := float_text_spec d
  have hround : toDouble n.magnitude = some d.magnitude := hdenotes.rounds false
  have htoken : n.token = .value_float (some d) := by
    rw [Lexer.Numeral.token, hdenotes.isInteger, if_neg (by simp), if_neg (by simp),
      Lexer.Numeral.double, hround, hdenotes.negative, Option.map_some, Double.ofRat_eq hround]
  rw [← htoken, htext]
  show Lexer.Spells _ (Utf8.encode (String.ofList n.text).toList)
  rw [String.toList_ofList]
  exact .number n

/-! ### `std::stod` of the text -/

/-- A decimal fraction that is a binary one has its fives in the numerator. -/
theorem five_pow_dvd {N m j k : ℕ} (h : (N : ℚ) / 10 ^ j = m / 2 ^ k) : 5 ^ j ∣ N := by
  rw [div_eq_div_iff (by positivity) (by positivity)] at h
  have hnat : N * 2 ^ k = m * 10 ^ j := by exact_mod_cast h
  have hdvd : 5 ^ j ∣ N * 2 ^ k := by
    rw [hnat]
    exact Dvd.dvd.mul_left (pow_dvd_pow_of_dvd (by decide) j) m
  exact Nat.Coprime.dvd_of_dvd_mul_right (Nat.Coprime.pow _ _ (by decide)) hdvd

/-- No number of 17 digits is a subnormal double: that would take a power of
five too large for them. -/
theorem ne_of_subnormal {N m : ℕ} {e : ℤ} (hN : N < 10 ^ 17) (hm : 0 < m) (hm' : m < 2 ^ 52) :
    (N * 10 ^ e : ℚ) ≠ m * 2 ^ (-1074 : ℤ) := by
  intro h
  have hpow : (0 : ℚ) < 2 ^ (-1074 : ℤ) := zpow_pos (by norm_num) _
  have hmpos : (0 : ℚ) < m := by exact_mod_cast hm
  have hNpos : 0 < N := by
    rcases Nat.eq_zero_or_pos N with rfl | hpos
    · rw [Nat.cast_zero, zero_mul] at h
      exact absurd h.symm (mul_pos hmpos hpow).ne'
    · exact hpos
  have hsmall : (m : ℚ) * 2 ^ (-1074 : ℤ) < (10 ^ 24)⁻¹ := by
    have hle : (m : ℚ) < 2 ^ 52 := by exact_mod_cast hm'
    calc (m : ℚ) * 2 ^ (-1074 : ℤ) < 2 ^ 52 * 2 ^ (-1074 : ℤ) := mul_lt_mul_of_pos_right hle hpow
      _ = 2 ^ (-1022 : ℤ) := by
          rw [← zpow_natCast, ← zpow_add₀ (by norm_num)]
          rfl
      _ ≤ 2 ^ (-80 : ℤ) := zpow_le_zpow_right₀ (by norm_num) (by norm_num)
      _ < (10 ^ 24)⁻¹ := by norm_num
  have hone : (1 : ℚ) ≤ N := by exact_mod_cast hNpos
  have hneg : e < -24 := by
    by_contra hge
    rw [not_lt] at hge
    have hten : ((10 : ℚ) ^ 24)⁻¹ ≤ 10 ^ e := by
      rw [← zpow_natCast, ← zpow_neg]
      exact zpow_le_zpow_right₀ (by norm_num) (by exact_mod_cast hge)
    have hle : (10 : ℚ) ^ e ≤ N * 10 ^ e :=
      le_mul_of_one_le_left (zpow_pos (by norm_num) _).le hone
    linarith
  obtain ⟨j, hj⟩ := Int.eq_ofNat_of_zero_le (show 0 ≤ -e by omega)
  have he : e = -(j : ℤ) := by omega
  have hcast : (-1074 : ℤ) = -((1074 : ℕ) : ℤ) := rfl
  rw [he, hcast, zpow_neg, zpow_natCast, zpow_neg, zpow_natCast, ← div_eq_mul_inv,
    ← div_eq_mul_inv] at h
  have hdvd := five_pow_dvd h
  have hle := Nat.le_of_dvd hNpos hdvd
  have hfive : 5 ^ 25 ≤ 5 ^ j := Nat.pow_le_pow_right (by decide) (by omega)
  omega

/-- Below the normal numbers the significand is not full. -/
theorem magnitude_of_lt {d : Double} (h : |d.value| < 2 ^ (-1022 : ℤ)) :
    d.significand < 2 ^ 52 ∧ d.magnitude = d.significand * 2 ^ (-1074 : ℤ) := by
  rw [d.abs_value] at h
  have hlt : d.significand < 2 ^ 52 := by
    by_contra hge
    rw [not_lt] at hge
    have hcast : (2 : ℚ) ^ 52 ≤ d.significand := by exact_mod_cast hge
    have hle : (2 : ℚ) ^ (-1022 : ℤ) ≤ d.magnitude := by
      calc (2 : ℚ) ^ (-1022 : ℤ) = 2 ^ 52 * 2 ^ (-1074 : ℤ) := by
            rw [← zpow_natCast, ← zpow_add₀ (by norm_num)]
            rfl
        _ ≤ d.significand * 2 ^ d.exponent := by
            refine mul_le_mul hcast ?_ (zpow_pos (by norm_num) _).le (by positivity)
            exact zpow_le_zpow_right₀ (by norm_num) d.le_exponent
    exact absurd h (not_lt.mpr hle)
  refine ⟨hlt, ?_⟩
  rw [Double.magnitude, d.normal_or_least.resolve_left (by omega)]

/-- What is read from the text is the number, unless it is subnormal: such a
number is out of range for `std::stod`. -/
theorem stod_float_text (d : Double) :
    Strtod.stod (float_text d) =
      if |d.value| < 2 ^ (-1022 : ℤ) ∧ d.value ≠ 0 then .error .out_of_range else .ok d.value := by
  obtain ⟨n, hdenotes, htext, -⟩ := float_text_spec d
  obtain ⟨N, e, hN, hshort⟩ := hdenotes.short
  obtain ⟨q, hq⟩ : ∃ q, (if n.negative then -n.magnitude else n.magnitude) = q := ⟨_, rfl⟩
  have hround : toDouble q = some d.value := by
    rw [← hq, hdenotes.rounds, hdenotes.negative]
    rfl
  have habs : |q| = N * 10 ^ e := by
    have hnonneg : (0 : ℚ) ≤ N * 10 ^ e := mul_nonneg (Nat.cast_nonneg _) (zpow_pos (by norm_num) _).le
    rw [← hq]
    split
    · rw [abs_neg, hshort, abs_of_nonneg hnonneg]
    · rw [hshort, abs_of_nonneg hnonneg]
  have hunder : Strtod.Underflows q d.value ↔ |d.value| < 2 ^ (-1022 : ℤ) ∧ d.value ≠ 0 := by
    refine and_congr_right ?_
    intro hlt
    refine ⟨?_, ?_⟩
    · intro hne hzero
      have hmag : d.magnitude = 0 := by rw [← d.abs_value, hzero, abs_zero]
      have hqzero : q = 0 := by
        rw [← abs_eq_zero, habs, ← hshort]
        exact hdenotes.zero hmag
      exact hne (hzero.trans hqzero.symm)
    · intro hne heq
      obtain ⟨hsmall, hmag⟩ := magnitude_of_lt hlt
      have hpos : 0 < d.significand := by
        rw [d.significand_pos_iff, ← d.abs_value]
        exact abs_ne_zero.mpr hne
      refine ne_of_subnormal hN hpos hsmall (e := e) ?_
      rw [← hmag, ← d.abs_value, heq, habs]
  rw [Strtod.stod, htext, String.toList_ofList, n.sign_text]
  dsimp only
  rw [n.scanDecimal_unsignedText]
  dsimp only
  rw [hq, hround]
  dsimp only
  simp only [hunder]

end SyncServiceUi
