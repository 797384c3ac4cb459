/-
SyncServiceUi/JsonString.lean

The strings of a JSON text (`scan_string` in
`src/dependencies/json/json.hpp`).

`StringChar` is the grammar of one character between the quotes: the
character itself, an escape of one letter, one or two escapes of four hex
digits.  The lexer reads exactly that, so what is in its token buffer at the
closing quote is always the UTF-8 of a text (`scan_string_eq_ok_iff`).
-/
import SyncServiceUi.JsonLexer

namespace SyncServiceUi

namespace Lexer

open Completion

/-! ### Bytes as characters -/

theorem toNat_chr (b : UInt8) : (chr b).toNat = b.toNat := by
  have hlt := b.toNat_lt
  exact Utf8.toNat_ofNat (by omega)

theorem chr_eq_iff {b : UInt8} {c : Char} : chr b = c ↔ b.toNat = c.toNat := by
  rw [← toNat_chr, Char.toNat_inj]

/-- A character below 0x80 is one byte, and read as it was written. -/
theorem chr_ofNat {c : Char} (h : c.toNat < 0x80) : chr (UInt8.ofNat c.toNat) = c := by
  rw [chr_eq_iff, UInt8.toNat_ofNat']
  omega

theorem encodeChar_chr {b : UInt8} (h : b.toNat < 0x80) :
    String.utf8EncodeChar (chr b) = [b] := by
  rw [Utf8.encodeChar_ascii (by rw [toNat_chr]; exact h), toNat_chr, UInt8.ofNat_toNat]

/-! ### Escapes -/

theorem hexValue_lt {c : Char} {v : ℕ} (h : hexValue c = some v) : v < 16 := by
  have h0 : '0'.toNat = 48 := rfl
  have h9 : '9'.toNat = 57 := rfl
  have hA : 'A'.toNat = 65 := rfl
  have hF : 'F'.toNat = 70 := rfl
  have ha : 'a'.toNat = 97 := rfl
  have hf : 'f'.toNat = 102 := rfl
  unfold hexValue at h
  split_ifs at h
  all_goals
    obtain rfl := Option.some.inj h
    omega

/-- `w` is four hex digits, of the value `n`. -/
inductive Hex4 : ℕ → Bytes → Prop where
  | mk {a b c d : UInt8} {va vb vc vd : ℕ} :
      hexValue (chr a) = some va → hexValue (chr b) = some vb → hexValue (chr c) = some vc →
      hexValue (chr d) = some vd → Hex4 (va * 4096 + vb * 256 + vc * 16 + vd) [a, b, c, d]

theorem Hex4.lt {n : ℕ} {w : Bytes} (h : Hex4 n w) : n < 0x10000 := by
  obtain ⟨ha, hb, hc, hd⟩ := h
  have hva := hexValue_lt ha
  have hvb := hexValue_lt hb
  have hvc := hexValue_lt hc
  have hvd := hexValue_lt hd
  omega

theorem addDigits_cons {codepoint factor value : ℕ} {factors : List ℕ} {b : UInt8} {rest : Bytes}
    (h : hexValue (chr b) = some value) :
    addDigits codepoint (factor :: factors) (b :: rest) =
      addDigits (codepoint + value * 2 ^ factor) factors rest := by
  rw [addDigits, h]
  simp only [Nat.shiftLeft_eq]

theorem addDigits_eq_ok_cons {codepoint factor n : ℕ} {factors : List ℕ} {input rest : Bytes}
    (h : addDigits codepoint (factor :: factors) input = .ok (n, rest)) :
    ∃ b input' value, input = b :: input' ∧ hexValue (chr b) = some value ∧
      addDigits (codepoint + value * 2 ^ factor) factors input' = .ok (n, rest) := by
  cases input with
  | nil => cases h
  | cons b input' =>
      rcases hvalue : hexValue (chr b) with - | value
      · rw [addDigits, hvalue] at h
        cases h
      · rw [addDigits_cons hvalue] at h
        exact ⟨b, input', value, rfl, hvalue, h⟩

/-- The loop reads four hex digits and nothing else. -/
theorem addDigits_eq_ok_iff {n : ℕ} {input rest : Bytes} :
    addDigits 0 [12, 8, 4, 0] input = .ok (n, rest) ↔ ∃ w, Hex4 n w ∧ input = w ++ rest := by
  refine ⟨?_, ?_⟩
  · intro h
    obtain ⟨a, input₁, va, rfl, ha, h₁⟩ := addDigits_eq_ok_cons h
    obtain ⟨b, input₂, vb, rfl, hb, h₂⟩ := addDigits_eq_ok_cons h₁
    obtain ⟨c, input₃, vc, rfl, hc, h₃⟩ := addDigits_eq_ok_cons h₂
    obtain ⟨d, input₄, vd, rfl, hd, h₄⟩ := addDigits_eq_ok_cons h₃
    obtain ⟨hn, rfl⟩ := Prod.mk.inj (Except.ok.inj h₄)
    refine ⟨[a, b, c, d], ?_, rfl⟩
    have hvalue : n = va * 4096 + vb * 256 + vc * 16 + vd := by omega
    rw [hvalue]
    exact ⟨ha, hb, hc, hd⟩
  · rintro ⟨w, hw, rfl⟩
    obtain ⟨ha, hb, hc, hd⟩ := hw
    simp only [List.cons_append, List.nil_append]
    rw [addDigits_cons ha, addDigits_cons hb, addDigits_cons hc, addDigits_cons hd]
    simp [addDigits]

/-- A code point is at most 0xFFFF, as `get_codepoint` asserts. -/
theorem get_codepoint_eq (input : Bytes) : get_codepoint input = addDigits 0 [12, 8, 4, 0] input := by
  unfold get_codepoint
  rcases hdigits : addDigits 0 [12, 8, 4, 0] input with stop | ⟨n, rest⟩
  · rfl
  · obtain ⟨w, hw, -⟩ := addDigits_eq_ok_iff.mp hdigits
    have hlt := hw.lt
    rw [ok_bind]
    dsimp only
    rw [json_assert_bind (by omega)]
    rfl

theorem get_codepoint_eq_ok_iff {n : ℕ} {input rest : Bytes} :
    get_codepoint input = .ok (n, rest) ↔ ∃ w, Hex4 n w ∧ input = w ++ rest := by
  rw [get_codepoint_eq, addDigits_eq_ok_iff]

/-- The bytes put together for a code point are those of its character. -/
theorem codepointBytes_toNat (c : Char) : codepointBytes c.toNat = String.utf8EncodeChar c := by
  have hrange := Utf8.toNat_range c
  have hsix : ∀ n : ℕ, n &&& 0x3F = n % 64 := fun n => Nat.and_two_pow_sub_one_eq_mod n 6
  -- the marker bits are above the bits of the code point
  have hcontinue : ∀ n : ℕ, n < 64 → 0x80 ||| n = n + 0x80 := by
    intro n hn
    rw [← @Nat.two_pow_add_eq_or_of_lt 7 n (by omega) 1]
    omega
  have htwo : ∀ n : ℕ, n < 32 → 0xC0 ||| n = n + 0xC0 := by
    intro n hn
    rw [← @Nat.two_pow_add_eq_or_of_lt 6 n (by omega) 3]
    omega
  have hthree : ∀ n : ℕ, n < 16 → 0xE0 ||| n = n + 0xE0 := by
    intro n hn
    rw [← @Nat.two_pow_add_eq_or_of_lt 5 n (by omega) 7]
    omega
  have hfour : ∀ n : ℕ, n < 8 → 0xF0 ||| n = n + 0xF0 := by
    intro n hn
    rw [← @Nat.two_pow_add_eq_or_of_lt 4 n (by omega) 15]
    omega
  simp only [codepointBytes, Utf8.encodeChar_eq, Nat.shiftRight_eq_div_pow, hsix]
  split_ifs
  all_goals try omega
  · rfl
  · rw [htwo _ (by omega), hcontinue _ (by omega), @Nat.mod_eq_of_lt _ 32 (by omega)]
  · rw [hthree _ (by omega), hcontinue _ (by omega), hcontinue _ (by omega),
      @Nat.mod_eq_of_lt _ 16 (by omega)]
  · rw [hfour _ (by omega), hcontinue _ (by omega), hcontinue _ (by omega),
      hcontinue _ (by omega), @Nat.mod_eq_of_lt _ 8 (by omega)]

/-- The escapes of one letter. -/
def escapes : List (Char × Char) :=
  [('"', '"'), ('\\', '\\'), ('/', '/'), ('b', '\x08'), ('f', '\x0c'), ('n', '\n'), ('r', '\r'),
    ('t', '\t')]

theorem simpleEscape_eq_some_iff {letter : Char} {b : UInt8} :
    simpleEscape letter = some b ↔ (letter, chr b) ∈ escapes := by
  simp only [escapes, List.mem_cons, Prod.mk.injEq, List.not_mem_nil, or_false, chr_eq_iff]
  unfold simpleEscape
  split
  case h_9 => simp_all
  all_goals simp [eq_comm, ← UInt8.toNat_inj]

theorem escapes_ascii {letter c : Char} (h : (letter, c) ∈ escapes) : c.toNat < 0x80 := by
  have hall : ∀ e ∈ escapes, e.2.toNat < 0x80 := by decide
  exact hall _ h

/-- What may stand for a character behind `\u`. -/
inductive UnicodeEscape : Char → Bytes → Prop where
  | single {c : Char} {w : Bytes} : Hex4 c.toNat w → UnicodeEscape c w
  | pair {c : Char} {high low : ℕ} {w w' : Bytes} :
      Hex4 high w → Hex4 low w' → 0xD800 ≤ high → high ≤ 0xDBFF → 0xDC00 ≤ low → low ≤ 0xDFFF →
      c.toNat = 0x10000 + (high - 0xD800) * 0x400 + (low - 0xDC00) →
      UnicodeEscape c (w ++ 0x5C :: 0x75 :: w')

theorem surrogatePair_eq {high low : ℕ} (hhigh : 0xD800 ≤ high) (hlow : 0xDC00 ≤ low) :
    surrogatePair high low = 0x10000 + (high - 0xD800) * 0x400 + (low - 0xDC00) := by
  unfold surrogatePair
  simp only [Nat.shiftLeft_eq]
  omega

theorem get_low_surrogate_eq_ok_iff {low : ℕ} {input rest : Bytes} :
    get_low_surrogate input = .ok (low, rest) ↔
      ∃ w, Hex4 low w ∧ 0xDC00 ≤ low ∧ low ≤ 0xDFFF ∧ input = 0x5C :: 0x75 :: (w ++ rest) := by
  refine ⟨?_, ?_⟩
  · intro h
    unfold get_low_surrogate at h
    split at h
    next b c input' =>
      split_ifs at h with hchars
      · obtain ⟨hb, hc⟩ := hchars
        simp only [bind_eq_ok_iff, Prod.exists] at h
        obtain ⟨codepoint, rest', hcode, h⟩ := h
        split_ifs at h with hrange
        · obtain ⟨rfl, rfl⟩ := Prod.mk.inj (Except.ok.inj h)
          obtain ⟨w, hw, rfl⟩ := get_codepoint_eq_ok_iff.mp hcode
          obtain rfl : b = 0x5C := UInt8.toNat_inj.mp (chr_eq_iff.mp hb)
          obtain rfl : c = 0x75 := UInt8.toNat_inj.mp (chr_eq_iff.mp hc)
          exact ⟨w, hw, hrange.1, hrange.2, rfl⟩
    next => cases h
  · rintro ⟨w, hw, hlow, hhigh, rfl⟩
    have hcode : get_codepoint (w ++ rest) = .ok (low, rest) :=
      get_codepoint_eq_ok_iff.mpr ⟨w, hw, rfl⟩
    rw [get_low_surrogate, if_pos ⟨by decide, by decide⟩, hcode]
    exact if_pos ⟨hlow, hhigh⟩

theorem scan_unicode_escape_eq_ok_iff {added input rest : Bytes} :
    scan_unicode_escape input = .ok (added, rest) ↔
      ∃ c w, UnicodeEscape c w ∧ input = w ++ rest ∧ added = String.utf8EncodeChar c := by
  refine ⟨?_, ?_⟩
  · intro h
    simp only [scan_unicode_escape, bind_eq_ok_iff, Prod.exists] at h
    obtain ⟨codepoint1, rest₁, hfirst, h⟩ := h
    obtain ⟨w, hw, rfl⟩ := get_codepoint_eq_ok_iff.mp hfirst
    have hlt := hw.lt
    split_ifs at h with hhigh hlow
    · simp only [bind_eq_ok_iff, Prod.exists] at h
      obtain ⟨codepoint2, rest₂, hsecond, -, -, h⟩ := h
      obtain ⟨w', hw', hlow, hlow', rfl⟩ := get_low_surrogate_eq_ok_iff.mp hsecond
      obtain ⟨rfl, rfl⟩ := Prod.mk.inj (Except.ok.inj h)
      have heq := surrogatePair_eq hhigh.1 hlow
      have hnum := @Utf8.toNat_ofNat (surrogatePair codepoint1 codepoint2) (by omega)
      refine ⟨Char.ofNat (surrogatePair codepoint1 codepoint2), w ++ 0x5C :: 0x75 :: w', ?_, ?_, ?_⟩
      · exact .pair hw hw' hhigh.1 hhigh.2 hlow hlow' (hnum.trans heq)
      · simp
      · rw [← codepointBytes_toNat, hnum]
    · simp only [bind_eq_ok_iff] at h
      obtain ⟨-, -, h⟩ := h
      obtain ⟨rfl, rfl⟩ := Prod.mk.inj (Except.ok.inj h)
      have hnum := @Utf8.toNat_ofNat codepoint1 (by omega)
      refine ⟨Char.ofNat codepoint1, w, .single (by rwa [hnum]), rfl, ?_⟩
      rw [← codepointBytes_toNat, hnum]
  · rintro ⟨c, w, hc, rfl, rfl⟩
    cases hc with
    | single hw =>
        have hrange := Utf8.toNat_range c
        have hfirst : get_codepoint (w ++ rest) = .ok (c.toNat, rest) :=
          get_codepoint_eq_ok_iff.mpr ⟨w, hw, rfl⟩
        rw [scan_unicode_escape, hfirst, ← codepointBytes_toNat]
        refine (if_neg (by omega)).trans ((if_neg (by omega)).trans ?_)
        exact json_assert_bind (by omega) _
    | @pair high low w w' hw hw' hhigh hhigh' hlow hlow' hnum =>
        have hfirst : get_codepoint ((w ++ 0x5C :: 0x75 :: w') ++ rest) =
            .ok (high, 0x5C :: 0x75 :: (w' ++ rest)) :=
          get_codepoint_eq_ok_iff.mpr ⟨w, hw, by simp⟩
        have hsecond : get_low_surrogate (0x5C :: 0x75 :: (w' ++ rest)) = .ok (low, rest) :=
          get_low_surrogate_eq_ok_iff.mpr ⟨w', hw', hlow, hlow', rfl⟩
        have heq := surrogatePair_eq hhigh hlow
        rw [scan_unicode_escape, hfirst, ← codepointBytes_toNat, hnum, ← heq]
        refine (if_pos ⟨hhigh, hhigh'⟩).trans ?_
        have hle : surrogatePair high low ≤ 0x10FFFF := by omega
        rw [hsecond, ok_bind]
        dsimp only
        rw [json_assert_bind hle]
        rfl

/-! ### Characters of a string -/

/-- A character of a string and the bytes that may stand for it between the
quotes. -/
inductive StringChar : Char → Bytes → Prop where
  | plain {c : Char} : 0x20 ≤ c.toNat → c ≠ '"' → c ≠ '\\' → StringChar c (String.utf8EncodeChar c)
  | simple {c : Char} {letter : UInt8} : (chr letter, c) ∈ escapes → StringChar c [0x5C, letter]
  | unicode {c : Char} {w : Bytes} : UnicodeEscape c w → StringChar c (0x5C :: 0x75 :: w)

theorem next_byte_in_range_eq_ok_iff {ranges : List (UInt8 × UInt8)} {added input rest : Bytes} :
    next_byte_in_range ranges input = .ok (added, rest) ↔
      List.Forall₂ (fun r b => r.1 ≤ b ∧ b ≤ r.2) ranges added ∧ input = added ++ rest := by
  induction ranges generalizing input added with
  | nil =>
      rw [List.forall₂_nil_left_iff]
      refine ⟨?_, ?_⟩
      · intro h
        obtain ⟨rfl, rfl⟩ := Prod.mk.inj (Except.ok.inj h)
        exact ⟨rfl, rfl⟩
      · rintro ⟨rfl, rfl⟩
        rfl
  | cons range ranges ih =>
      obtain ⟨lower, upper⟩ := range
      refine ⟨?_, ?_⟩
      · intro h
        cases input with
        | nil => cases h
        | cons b input =>
            rw [next_byte_in_range] at h
            split_ifs at h with hb
            simp only [bind_eq_ok_iff, Prod.exists] at h
            obtain ⟨added', rest', hnext, h⟩ := h
            obtain ⟨rfl, rfl⟩ := Prod.mk.inj (Except.ok.inj h)
            obtain ⟨hadded, rfl⟩ := ih.mp hnext
            exact ⟨.cons hb hadded, rfl⟩
      · rintro ⟨hall, rfl⟩
        cases hall with
        | @cons _ b _ added' hb hadded =>
            have hnext := ih.mpr ⟨hadded, rfl⟩
            rw [List.cons_append, next_byte_in_range, if_pos hb, hnext]
            rfl

/-- The bytes in the ranges behind `b` are those that make it a character. -/
theorem continuation_iff {b : UInt8} {added : Bytes} (hb : ¬ b ≤ 0x7F) :
    (∃ ranges, continuationRanges b = some ranges ∧
        List.Forall₂ (fun r x => r.1 ≤ x ∧ x ≤ r.2) ranges added) ↔
      ∃ c, String.utf8EncodeChar c = b :: added := by
  rw [UInt8.le_iff_toNat_le] at hb
  refine ⟨?_, ?_⟩
  · rintro ⟨ranges, hranges, hadded⟩
    unfold continuationRanges at hranges
    simp only [UInt8.le_iff_toNat_le, ← UInt8.toNat_inj] at hranges hadded
    -- a row of the table for each kind of first byte
    split_ifs at hranges
    all_goals
      obtain rfl := Option.some.inj hranges
      simp only [List.forall₂_cons_left_iff, List.forall₂_nil_left_iff] at hadded
    · obtain ⟨x, _, hx, rfl, rfl⟩ := hadded
      refine Utf8.exists_char_two.mpr ?_
      simp only [Utf8.Continues, UInt8.reduceToNat] at *
      omega
    iterate 3
      · obtain ⟨x, _, hx, ⟨y, _, hy, rfl, rfl⟩, rfl⟩ := hadded
        refine Utf8.exists_char_three.mpr ?_
        simp only [Utf8.Continues, UInt8.reduceToNat] at *
        omega
    iterate 3
      · obtain ⟨x, _, hx, ⟨y, _, hy, ⟨z, _, hz, rfl, rfl⟩, rfl⟩, rfl⟩ := hadded
        refine Utf8.exists_char_four.mpr ?_
        simp only [Utf8.Continues, UInt8.reduceToNat] at *
        omega
  · rintro ⟨c, hc⟩
    unfold continuationRanges
    simp only [UInt8.le_iff_toNat_le, ← UInt8.toNat_inj]
    rcases added with - | ⟨x, - | ⟨y, - | ⟨z, - | ⟨_, _⟩⟩⟩⟩
    · -- one byte is ASCII
      rw [Utf8.encodeChar_eq] at hc
      split_ifs at hc
      all_goals simp only [List.cons.injEq, reduceCtorEq, and_false, and_true] at hc
      subst hc
      rw [UInt8.toNat_ofNat'] at hb
      simp only [UInt8.reduceToNat] at hb
      omega
    · have hrow := Utf8.exists_char_two.mp ⟨c, hc⟩
      simp only [Utf8.Continues] at hrow
      refine ⟨_, if_pos ⟨hrow.1, hrow.2.1⟩, .cons ⟨hrow.2.2.1, hrow.2.2.2⟩ .nil⟩
    · have hrow := Utf8.exists_char_three.mp ⟨c, hc⟩
      simp only [Utf8.Continues] at hrow
      simp only [UInt8.reduceToNat] at hb ⊢
      split_ifs
      any_goals (exfalso; omega)
      all_goals
        refine ⟨_, rfl, ?_⟩
        simp only [List.forall₂_cons, List.Forall₂.nil, and_true, UInt8.reduceToNat]
        omega
    · have hrow := Utf8.exists_char_four.mp ⟨c, hc⟩
      simp only [Utf8.Continues] at hrow
      simp only [UInt8.reduceToNat] at hb ⊢
      split_ifs
      any_goals (exfalso; omega)
      all_goals
        refine ⟨_, rfl, ?_⟩
        simp only [List.forall₂_cons, List.Forall₂.nil, and_true, UInt8.reduceToNat]
        omega
    · have hlength := congrArg List.length hc
      have hfour := c.utf8Size_le_four
      rw [String.length_utf8EncodeChar] at hlength
      simp only [List.length_cons] at hlength
      omega

/-- A round of the loop reads one character, however it is written. -/
theorem scan_character_eq_ok_iff {b : UInt8} (hquote : chr b ≠ '"') {added input rest : Bytes} :
    scan_character b input = .ok (added, rest) ↔
      ∃ c w, StringChar c (b :: w) ∧ input = w ++ rest ∧ added = String.utf8EncodeChar c := by
  unfold scan_character
  refine ⟨?_, ?_⟩
  · intro h
    split_ifs at h with hslash hcontrol hascii
    · obtain rfl : b = 0x5C := UInt8.toNat_inj.mp (chr_eq_iff.mp hslash)
      unfold scan_escape at h
      split at h
      · cases h
      next letter input =>
        split_ifs at h with hu
        · obtain ⟨c, w, hc, rfl, rfl⟩ := scan_unicode_escape_eq_ok_iff.mp h
          obtain rfl : letter = 0x75 := UInt8.toNat_inj.mp (chr_eq_iff.mp hu)
          exact ⟨c, _, .unicode hc, rfl, rfl⟩
        · split at h
          next c hc =>
            obtain ⟨rfl, rfl⟩ := Prod.mk.inj (Except.ok.inj h)
            have hmem := simpleEscape_eq_some_iff.mp hc
            refine ⟨chr c, [letter], .simple hmem, rfl, ?_⟩
            rw [encodeChar_chr]
            rw [← toNat_chr]
            exact escapes_ascii hmem
          next => cases h
    · obtain ⟨rfl, rfl⟩ := Prod.mk.inj (Except.ok.inj h)
      rw [UInt8.le_iff_toNat_le] at hcontrol hascii
      have hb := @encodeChar_chr b (by simp only [UInt8.reduceToNat] at hascii; omega)
      refine ⟨chr b, [], ?_, rfl, hb.symm⟩
      rw [← hb]
      refine .plain ?_ hquote hslash
      rw [toNat_chr]
      simp only [UInt8.reduceToNat] at hcontrol
      omega
    · split at h
      next ranges hranges =>
        simp only [bind_eq_ok_iff, Prod.exists] at h
        obtain ⟨added', rest', hnext, h⟩ := h
        obtain ⟨rfl, rfl⟩ := Prod.mk.inj (Except.ok.inj h)
        obtain ⟨hall, rfl⟩ := next_byte_in_range_eq_ok_iff.mp hnext
        obtain ⟨c, hc⟩ := (continuation_iff hascii).mp ⟨ranges, hranges, hall⟩
        refine ⟨c, added', ?_, rfl, hc.symm⟩
        have hc128 : ¬ c.toNat < 0x80 := by
          rw [← Utf8.head_encodeChar hc]
          simp only [UInt8.le_iff_toNat_le, UInt8.reduceToNat] at hascii
          omega
        rw [← hc]
        refine .plain (by omega) ?_ ?_
        · rintro rfl
          exact hc128 (by decide)
        · rintro rfl
          exact hc128 (by decide)
      next => cases h
  · rintro ⟨c, w, hc, rfl, rfl⟩
    generalize hbw : b :: w = bw at hc
    cases hc with
    | plain hprint hc₁ hc₂ =>
        have hhead := Utf8.head_encodeChar hbw.symm
        by_cases hc128 : c.toNat < 0x80
        · obtain ⟨rfl, rfl⟩ := List.cons.inj (hbw.trans (Utf8.encodeChar_ascii hc128))
          have hnum : (UInt8.ofNat c.toNat).toNat = c.toNat := by
            rw [UInt8.toNat_ofNat']
            omega
          rw [if_neg (by rwa [chr_ofNat hc128]), if_neg, if_pos, ← hbw, List.nil_append]
          · simp only [UInt8.le_iff_toNat_le, hnum, UInt8.reduceToNat]
            omega
          · simp only [UInt8.le_iff_toNat_le, hnum, UInt8.reduceToNat]
            omega
        · have hb : ¬ b ≤ 0x7F := by
            simp only [UInt8.le_iff_toNat_le, UInt8.reduceToNat]
            omega
          obtain ⟨ranges, hranges, hall⟩ := (continuation_iff hb).mpr ⟨c, hbw.symm⟩
          have hnext := next_byte_in_range_eq_ok_iff.mpr ⟨hall, @rfl _ (w ++ rest)⟩
          rw [if_neg, if_neg, if_neg hb, hranges, ← hbw]
          · dsimp only
            rw [hnext]
            rfl
          · simp only [UInt8.le_iff_toNat_le, UInt8.reduceToNat] at hb ⊢
            omega
          · rw [chr_eq_iff]
            intro heq
            rw [heq] at hhead
            exact hc128 (hhead.mp (by decide))
    | @simple letter hmem =>
        obtain ⟨rfl, rfl⟩ := List.cons.inj hbw
        have hc128 := escapes_ascii hmem
        have hsimple : simpleEscape (chr letter) = some (UInt8.ofNat c.toNat) := by
          rw [simpleEscape_eq_some_iff, chr_ofNat hc128]
          exact hmem
        have hu : chr letter ≠ 'u' := by
          intro hu
          rw [hu] at hsimple
          cases hsimple
        rw [if_pos (by decide), List.singleton_append, scan_escape, if_neg hu, hsimple,
          Utf8.encodeChar_ascii hc128]
    | @unicode w' hc =>
        obtain ⟨rfl, rfl⟩ := List.cons.inj hbw
        have hescape := scan_unicode_escape_eq_ok_iff.mpr ⟨c, w', hc, @rfl _ (w' ++ rest), rfl⟩
        rw [if_pos (by decide), List.cons_append, scan_escape, if_pos (by decide), hescape]

/-! ### Strings -/

/-- What may stand between the quotes of a string. -/
inductive StringBody : List Char → Bytes → Prop where
  | nil : StringBody [] []
  | cons {c : Char} {cs : List Char} {w ws : Bytes} :
      StringChar c w → StringBody cs ws → StringBody (c :: cs) (w ++ ws)

theorem StringChar.exists_head {c : Char} {w : Bytes} (h : StringChar c w) :
    ∃ b w', w = b :: w' ∧ chr b ≠ '"' := by
  cases h with
  | plain hprint hc₁ hc₂ =>
      obtain ⟨b, w', hw⟩ := List.exists_cons_of_ne_nil (@String.utf8EncodeChar_ne_nil c)
      refine ⟨b, w', hw, ?_⟩
      intro hb
      have hascii : c.toNat < 0x80 := by
        rw [← Utf8.head_encodeChar hw, chr_eq_iff.mp hb]
        decide
      obtain ⟨rfl, -⟩ := List.cons.inj (hw.symm.trans (Utf8.encodeChar_ascii hascii))
      exact hc₁ ((chr_ofNat hascii).symm.trans hb)
  | simple => exact ⟨_, _, rfl, by decide⟩
  | unicode => exact ⟨_, _, rfl, by decide⟩

/-- The loop reads the characters of a string up to the closing quote. -/
theorem scan_string_eq_ok_iff {token_buffer buffer input rest : Bytes} :
    scan_string token_buffer input = .ok (buffer, rest) ↔
      ∃ cs w, StringBody cs w ∧ input = w ++ 0x22 :: rest ∧
        buffer = token_buffer ++ Utf8.encode cs := by
  refine ⟨?_, ?_⟩
  · intro h
    induction token_buffer, input using scan_string.induct with
    | case1 token_buffer => simp [scan_string] at h
    | case2 token_buffer b input hquote =>
        rw [scan_string, if_pos hquote] at h
        obtain ⟨rfl, rfl⟩ := Prod.mk.inj (Except.ok.inj h)
        obtain rfl : b = 0x22 := UInt8.toNat_inj.mp (chr_eq_iff.mp hquote)
        exact ⟨[], [], .nil, rfl, by simp⟩
    | case3 token_buffer b input hquote added rest' hchar ih =>
        rw [scan_string, if_neg hquote] at h
        split at h
        next heq =>
          obtain ⟨rfl, rfl⟩ := Prod.mk.inj (Except.ok.inj (heq.symm.trans hchar))
          obtain ⟨c, w, hc, rfl, rfl⟩ := (scan_character_eq_ok_iff hquote).mp hchar
          obtain ⟨cs, ws, hcs, rfl, rfl⟩ := ih h
          exact ⟨c :: cs, (b :: w) ++ ws, .cons hc hcs, by simp, by simp⟩
        next heq => cases heq.symm.trans hchar
    | case4 token_buffer b input hquote stop hchar =>
        rw [scan_string, if_neg hquote] at h
        split at h
        next heq => cases heq.symm.trans hchar
        next => cases h
  · rintro ⟨cs, w, hw, rfl, rfl⟩
    induction hw generalizing token_buffer with
    | nil => simp [scan_string, show chr 0x22 = '"' by decide]
    | @cons c cs w ws hc hcs ih =>
        obtain ⟨b, w', rfl, hquote⟩ := StringChar.exists_head hc
        have hchar := (scan_character_eq_ok_iff hquote).mpr
          ⟨c, w', hc, @rfl _ (w' ++ (ws ++ 0x22 :: rest)), rfl⟩
        rw [List.append_assoc, List.cons_append, scan_string, if_neg hquote]
        split
        next heq =>
          obtain ⟨rfl, rfl⟩ := Prod.mk.inj (Except.ok.inj (heq.symm.trans hchar))
          rw [ih]
          simp
        next heq => cases heq.symm.trans hchar

/-! ### Assertions -/

/-- No assertion of the lexer fails in `x`. -/
def Holds {α : Type} (x : Except Stop α) : Prop :=
  x ≠ .error .json_assert

@[simp] theorem holds_ok {α : Type} (a : α) : Holds (.ok a : Except Stop α) := by
  intro h
  cases h

@[simp] theorem holds_parse_error {α : Type} : Holds (.error .parse_error : Except Stop α) := by
  intro h
  cases h

theorem holds_bind {α β : Type} {x : Except Stop α} {f : α → Except Stop β} (hx : Holds x)
    (hf : ∀ a, x = .ok a → Holds (f a)) : Holds (x >>= f) := by
  rcases x with stop | a
  · intro h
    cases h
    exact hx rfl
  · exact hf a rfl

theorem holds_addDigits {codepoint : ℕ} {factors : List ℕ} {input : Bytes} :
    Holds (addDigits codepoint factors input) := by
  induction factors generalizing codepoint input with
  | nil => exact holds_ok _
  | cons factor factors ih =>
      cases input with
      | nil => exact holds_parse_error
      | cons b input =>
          rw [addDigits]
          split
          · exact ih
          · exact holds_parse_error

theorem holds_get_codepoint {input : Bytes} : Holds (get_codepoint input) := by
  rw [get_codepoint_eq]
  exact holds_addDigits

theorem holds_json_assert {c : Prop} [Decidable c] (h : c) : Holds (json_assert c) := by
  rw [json_assert, if_pos h]
  exact holds_ok _

theorem holds_get_low_surrogate {input : Bytes} : Holds (get_low_surrogate input) := by
  unfold get_low_surrogate
  split
  · split
    · refine holds_bind holds_get_codepoint ?_
      intro result _
      dsimp only
      split
      · exact holds_ok _
      · exact holds_parse_error
    · exact holds_parse_error
  · exact holds_parse_error

/-- Whatever is escaped is a code point of Unicode. -/
theorem holds_scan_unicode_escape {input : Bytes} : Holds (scan_unicode_escape input) := by
  refine holds_bind holds_get_codepoint ?_
  rintro ⟨codepoint1, rest⟩ hfirst
  obtain ⟨w, hw, -⟩ := get_codepoint_eq_ok_iff.mp hfirst
  have hlt := hw.lt
  dsimp only
  split_ifs with hhigh hlow
  · refine holds_bind holds_get_low_surrogate ?_
    rintro ⟨codepoint2, rest'⟩ hsecond
    obtain ⟨w', -, hlow, hlow', -⟩ := get_low_surrogate_eq_ok_iff.mp hsecond
    have heq := surrogatePair_eq hhigh.1 hlow
    dsimp only
    refine holds_bind (holds_json_assert (by omega)) ?_
    intro _ _
    exact holds_ok _
  · exact holds_parse_error
  · refine holds_bind (holds_json_assert (by omega)) ?_
    intro _ _
    exact holds_ok _

theorem holds_next_byte_in_range {ranges : List (UInt8 × UInt8)} {input : Bytes} :
    Holds (next_byte_in_range ranges input) := by
  induction ranges generalizing input with
  | nil => exact holds_ok _
  | cons range ranges ih =>
      cases input with
      | nil => exact holds_parse_error
      | cons b input =>
          rw [next_byte_in_range]
          split
          · exact holds_bind ih fun _ _ => holds_ok _
          · exact holds_parse_error

theorem holds_scan_character {b : UInt8} {input : Bytes} : Holds (scan_character b input) := by
  unfold scan_character scan_escape
  repeat' split
  any_goals exact holds_parse_error
  any_goals exact holds_ok _
  · exact holds_scan_unicode_escape
  · exact holds_bind holds_next_byte_in_range fun _ _ => holds_ok _

theorem holds_scan_string {token_buffer input : Bytes} : Holds (scan_string token_buffer input) := by
  induction token_buffer, input using scan_string.induct with
  | case1 token_buffer =>
      rw [scan_string]
      exact holds_parse_error
  | case2 token_buffer b input hquote =>
      rw [scan_string, if_pos hquote]
      exact holds_ok _
  | case3 token_buffer b input hquote added rest hchar ih =>
      rw [scan_string, if_neg hquote]
      split
      next heq =>
        obtain ⟨rfl, rfl⟩ := Prod.mk.inj (Except.ok.inj (heq.symm.trans hchar))
        exact ih
      next heq => cases heq.symm.trans hchar
  | case4 token_buffer b input hquote stop hchar =>
      rw [scan_string, if_neg hquote]
      split
      next heq => cases heq.symm.trans hchar
      next heq =>
        rintro h
        rw [Except.error.inj h] at heq
        exact holds_scan_character heq

end Lexer

end SyncServiceUi
