/-
SyncServiceUi/Utf8.lean

Texts and their UTF-8 bytes.

`encode` writes a text, `decode` reads it back (`decode_of_encode`), so two
texts never share their bytes.  Which sequences of two, three and four bytes
belong to a character is said as the tables of the encoding say it, by
ranges of bytes (`exists_char_two`, `exists_char_three`, `exists_char_four`).
-/
import Mathlib.Data.List.Basic
import Mathlib.Tactic.Common

namespace Utf8

/-- The bytes of a text. -/
def encode (cs : List Char) : List UInt8 :=
  cs.flatMap String.utf8EncodeChar

/-- Reads bytes that `encode` wrote; other bytes are read as if it had.  Of
the character at hand, `owed` bytes are to come and `read` has the bits so
far. -/
def decodeFrom : ℕ → ℕ → List UInt8 → List Char
  | _, _, [] => []
  | 0, _, b :: bs =>
      if b.toNat < 0x80 then Char.ofNat b.toNat :: decodeFrom 0 0 bs
      else if b.toNat < 0xE0 then decodeFrom 1 (b.toNat % 32) bs
      else if b.toNat < 0xF0 then decodeFrom 2 (b.toNat % 16) bs
      else decodeFrom 3 (b.toNat % 8) bs
  | 1, read, b :: bs => Char.ofNat (read * 64 + b.toNat % 64) :: decodeFrom 0 0 bs
  | owed + 2, read, b :: bs => decodeFrom (owed + 1) (read * 64 + b.toNat % 64) bs

/-- The text of bytes. -/
def decode (bs : List UInt8) : List Char :=
  decodeFrom 0 0 bs

@[simp] theorem encode_nil : encode [] = [] := rfl

@[simp] theorem encode_cons (c : Char) (cs : List Char) :
    encode (c :: cs) = String.utf8EncodeChar c ++ encode cs := rfl

@[simp] theorem encode_append (cs cs' : List Char) :
    encode (cs ++ cs') = encode cs ++ encode cs' :=
  List.flatMap_append

/-! ### One character -/

/-- The numbers of characters. -/
theorem toNat_range (c : Char) :
    c.toNat < 0xD800 ∨ 0xDFFF < c.toNat ∧ c.toNat < 0x110000 :=
  c.valid

theorem toNat_ofNat {n : ℕ} (h : n < 0xD800 ∨ 0xDFFF < n ∧ n < 0x110000) :
    (Char.ofNat n).toNat = n := by
  have hvalid : n.isValidChar := h
  rw [Char.ofNat, dif_pos hvalid]
  rfl

theorem ofNat_eq {c : Char} {n : ℕ} (h : n = c.toNat) : Char.ofNat n = c := by
  rw [h, Char.ofNat_toNat]

/-- The bytes of a character, by its number. -/
theorem encodeChar_eq (c : Char) :
    String.utf8EncodeChar c =
      if c.toNat ≤ 0x7F then [UInt8.ofNat c.toNat]
      else if c.toNat ≤ 0x7FF then
        [UInt8.ofNat (c.toNat / 64 % 0x20 + 0xC0), UInt8.ofNat (c.toNat % 0x40 + 0x80)]
      else if c.toNat ≤ 0xFFFF then
        [UInt8.ofNat (c.toNat / 4096 % 0x10 + 0xE0), UInt8.ofNat (c.toNat / 64 % 0x40 + 0x80),
          UInt8.ofNat (c.toNat % 0x40 + 0x80)]
      else
        [UInt8.ofNat (c.toNat / 262144 % 0x08 + 0xF0), UInt8.ofNat (c.toNat / 4096 % 0x40 + 0x80),
          UInt8.ofNat (c.toNat / 64 % 0x40 + 0x80), UInt8.ofNat (c.toNat % 0x40 + 0x80)] :=
  rfl

theorem encodeChar_ascii {c : Char} (h : c.toNat < 0x80) :
    String.utf8EncodeChar c = [UInt8.ofNat c.toNat] := by
  rw [encodeChar_eq, if_pos (by omega)]

/-- The first byte tells whether a character is ASCII. -/
theorem head_encodeChar {c : Char} {b : UInt8} {bs : List UInt8}
    (h : String.utf8EncodeChar c = b :: bs) : b.toNat < 0x80 ↔ c.toNat < 0x80 := by
  rw [encodeChar_eq] at h
  split_ifs at h
  all_goals
    obtain ⟨rfl, -⟩ := List.cons.inj h
    rw [UInt8.toNat_ofNat']
    omega

/-- Every byte of a longer encoding is above ASCII. -/
theorem le_of_mem_encodeChar {c : Char} {n : ℕ} (hn : n ≤ 0x80) (hc : n ≤ c.toNat) {b : UInt8}
    (hb : b ∈ String.utf8EncodeChar c) : n ≤ b.toNat := by
  rw [encodeChar_eq] at hb
  split_ifs at hb
  all_goals
    simp only [List.mem_cons, List.not_mem_nil, or_false] at hb
    rcases hb with rfl | rfl | rfl | rfl
    all_goals
      rw [UInt8.toNat_ofNat']
      omega

theorem decodeFrom_continue (owed read : ℕ) {n : ℕ} (hn : n < 64) (bs : List UInt8) :
    decodeFrom (owed + 2) read (UInt8.ofNat (n + 0x80) :: bs) =
      decodeFrom (owed + 1) (read * 64 + n) bs := by
  have hlow : (UInt8.ofNat (n + 0x80)).toNat % 64 = n := by
    rw [UInt8.toNat_ofNat']
    omega
  rw [decodeFrom, hlow]

theorem decodeFrom_last (read : ℕ) {n : ℕ} (hn : n < 64) (bs : List UInt8) :
    decodeFrom 1 read (UInt8.ofNat (n + 0x80) :: bs) = Char.ofNat (read * 64 + n) :: decode bs := by
  have hlow : (UInt8.ofNat (n + 0x80)).toNat % 64 = n := by
    rw [UInt8.toNat_ofNat']
    omega
  rw [decodeFrom, hlow, decode]

theorem decode_encodeChar_append (c : Char) (bs : List UInt8) :
    decode (String.utf8EncodeChar c ++ bs) = c :: decode bs := by
  have hrange := toNat_range c
  rw [encodeChar_eq]
  -- by the length of the encoding
  split_ifs with h₁ h₂ h₃
  · have ha : (UInt8.ofNat c.toNat).toNat = c.toNat := by
      rw [UInt8.toNat_ofNat']
      omega
    rw [List.singleton_append, decode, decodeFrom, ha, if_pos (by omega), Char.ofNat_toNat, decode]
  · have ha : (UInt8.ofNat (c.toNat / 64 % 0x20 + 0xC0)).toNat = c.toNat / 64 % 0x20 + 0xC0 := by
      rw [UInt8.toNat_ofNat']
      omega
    simp only [List.cons_append, List.nil_append]
    rw [decode, decodeFrom, ha, if_neg (by omega), if_pos (by omega), decodeFrom_last _ (by omega),
      @ofNat_eq c _ (by omega)]
  · have ha : (UInt8.ofNat (c.toNat / 4096 % 0x10 + 0xE0)).toNat = c.toNat / 4096 % 0x10 + 0xE0 := by
      rw [UInt8.toNat_ofNat']
      omega
    simp only [List.cons_append, List.nil_append]
    rw [decode, decodeFrom, ha, if_neg (by omega), if_neg (by omega), if_pos (by omega),
      decodeFrom_continue _ _ (by omega), decodeFrom_last _ (by omega), @ofNat_eq c _ (by omega)]
  · have ha : (UInt8.ofNat (c.toNat / 262144 % 0x08 + 0xF0)).toNat =
        c.toNat / 262144 % 0x08 + 0xF0 := by
      rw [UInt8.toNat_ofNat']
      omega
    simp only [List.cons_append, List.nil_append]
    rw [decode, decodeFrom, ha, if_neg (by omega), if_neg (by omega), if_neg (by omega),
      decodeFrom_continue _ _ (by omega), decodeFrom_continue _ _ (by omega),
      decodeFrom_last _ (by omega), @ofNat_eq c _ (by omega)]

/-- Reading back what was written. -/
@[simp] theorem decode_of_encode (cs : List Char) : decode (encode cs) = cs := by
  induction cs with
  | nil => rfl
  | cons c cs ih => rw [encode_cons, decode_encodeChar_append, ih]

theorem encode_injective : Function.Injective encode :=
  Function.LeftInverse.injective decode_of_encode

/-! ### The tables -/

/-- A byte that continues a character. -/
def Continues (b : UInt8) : Prop :=
  0x80 ≤ b.toNat ∧ b.toNat ≤ 0xBF

theorem eq_ofNat {b : UInt8} {n : ℕ} (h : b.toNat = n) : UInt8.ofNat n = b := by
  rw [← h, UInt8.ofNat_toNat]

/-- Two bytes belong to a character. -/
theorem exists_char_two {a b : UInt8} :
    (∃ c, String.utf8EncodeChar c = [a, b]) ↔ 0xC2 ≤ a.toNat ∧ a.toNat ≤ 0xDF ∧ Continues b := by
  refine ⟨?_, ?_⟩
  · rintro ⟨c, hc⟩
    rw [encodeChar_eq] at hc
    split_ifs at hc
    all_goals simp only [List.cons.injEq, reduceCtorEq, and_false] at hc
    obtain ⟨rfl, rfl, -⟩ := hc
    rw [Continues, UInt8.toNat_ofNat', UInt8.toNat_ofNat']
    omega
  · rintro ⟨hlow, hhigh, hb⟩
    rw [Continues] at hb
    have hn := @toNat_ofNat (a.toNat % 32 * 64 + b.toNat % 64) (by omega)
    refine ⟨Char.ofNat (a.toNat % 32 * 64 + b.toNat % 64), ?_⟩
    rw [encodeChar_eq, hn, if_neg (by omega), if_pos (by omega), @eq_ofNat a _ (by omega),
      @eq_ofNat b _ (by omega)]

/-- Three bytes belong to a character. -/
theorem exists_char_three {a b c : UInt8} :
    (∃ x, String.utf8EncodeChar x = [a, b, c]) ↔
      0xE0 ≤ a.toNat ∧ a.toNat ≤ 0xEF ∧ Continues b ∧ Continues c ∧
        (a.toNat = 0xE0 → 0xA0 ≤ b.toNat) ∧ (a.toNat = 0xED → b.toNat ≤ 0x9F) := by
  refine ⟨?_, ?_⟩
  · rintro ⟨x, hx⟩
    have hrange := toNat_range x
    rw [encodeChar_eq] at hx
    split_ifs at hx
    all_goals simp only [List.cons.injEq, reduceCtorEq, and_false] at hx
    obtain ⟨rfl, rfl, rfl, -⟩ := hx
    rw [Continues, Continues, UInt8.toNat_ofNat', UInt8.toNat_ofNat', UInt8.toNat_ofNat']
    omega
  · rintro ⟨hlow, hhigh, hb, hc, hfirst, hsurrogate⟩
    rw [Continues] at hb hc
    have hn := @toNat_ofNat (a.toNat % 16 * 4096 + b.toNat % 64 * 64 + c.toNat % 64) (by omega)
    refine ⟨Char.ofNat (a.toNat % 16 * 4096 + b.toNat % 64 * 64 + c.toNat % 64), ?_⟩
    rw [encodeChar_eq, hn, if_neg (by omega), if_neg (by omega), if_pos (by omega),
      @eq_ofNat a _ (by omega), @eq_ofNat b _ (by omega), @eq_ofNat c _ (by omega)]

/-- Four bytes belong to a character. -/
theorem exists_char_four {a b c d : UInt8} :
    (∃ x, String.utf8EncodeChar x = [a, b, c, d]) ↔
      0xF0 ≤ a.toNat ∧ a.toNat ≤ 0xF4 ∧ Continues b ∧ Continues c ∧ Continues d ∧
        (a.toNat = 0xF0 → 0x90 ≤ b.toNat) ∧ (a.toNat = 0xF4 → b.toNat ≤ 0x8F) := by
  refine ⟨?_, ?_⟩
  · rintro ⟨x, hx⟩
    have hrange := toNat_range x
    rw [encodeChar_eq] at hx
    split_ifs at hx
    all_goals simp only [List.cons.injEq, reduceCtorEq, and_false] at hx
    obtain ⟨rfl, rfl, rfl, rfl, -⟩ := hx
    rw [Continues, Continues, Continues, UInt8.toNat_ofNat', UInt8.toNat_ofNat',
      UInt8.toNat_ofNat', UInt8.toNat_ofNat']
    omega
  · rintro ⟨hlow, hhigh, hb, hc, hd, hfirst, hlast⟩
    rw [Continues] at hb hc hd
    have hn := @toNat_ofNat
      (a.toNat % 8 * 262144 + b.toNat % 64 * 4096 + c.toNat % 64 * 64 + d.toNat % 64) (by omega)
    refine ⟨Char.ofNat
      (a.toNat % 8 * 262144 + b.toNat % 64 * 4096 + c.toNat % 64 * 64 + d.toNat % 64), ?_⟩
    rw [encodeChar_eq, hn, if_neg (by omega), if_neg (by omega), if_neg (by omega),
      @eq_ofNat a _ (by omega), @eq_ofNat b _ (by omega), @eq_ofNat c _ (by omega),
      @eq_ofNat d _ (by omega)]

/-! ### Starts of texts -/

/-- The bytes can go on to be a text. -/
def Starts (bs : List UInt8) : Prop :=
  ∃ cs, bs <+: encode cs

theorem decode_encode_append (cs : List Char) (bs : List UInt8) :
    decode (encode cs ++ bs) = cs ++ decode bs := by
  induction cs with
  | nil => rfl
  | cons c cs ih => rw [encode_cons, List.append_assoc, decode_encodeChar_append, ih, List.cons_append]

/-- What is behind whole characters in a text is a text. -/
theorem exists_encode_of_append {cs cs' : List Char} {bs : List UInt8}
    (h : encode cs ++ bs = encode cs') : ∃ cs'', bs = encode cs'' := by
  have hdecode : decode (encode cs') = cs ++ decode bs := by
    rw [← h, decode_encode_append]
  rw [decode_of_encode] at hdecode
  rw [hdecode, encode_append] at h
  exact ⟨_, List.append_cancel_left h⟩

/-- Whole characters in front make no difference. -/
theorem starts_encode_append {cs : List Char} {bs : List UInt8} :
    Starts (encode cs ++ bs) ↔ Starts bs := by
  constructor
  · rintro ⟨cs', more, hmore⟩
    rw [List.append_assoc] at hmore
    obtain ⟨cs'', hcs''⟩ := exists_encode_of_append hmore
    exact ⟨cs'', more, hcs''⟩
  · rintro ⟨cs', more, hmore⟩
    exact ⟨cs ++ cs', more, by rw [encode_append, ← hmore, List.append_assoc]⟩

end Utf8
