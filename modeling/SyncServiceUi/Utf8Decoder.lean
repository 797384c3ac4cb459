/-
SyncServiceUi/Utf8Decoder.lean

The UTF-8 decoder of the serializer (`serializer::decode` in
`src/dependencies/json/json.hpp`): an automaton of nine states in a table of
400 entries.

Byte by byte it follows the ranges the lexer has for the same purpose
(`decode_lead`, `decode_next`), and what it has read since it last accepted
is the start of a character (`Reading`).  `decode_step` is all there is to
know of one call.
-/
import Mathlib.Data.List.Induction
import SyncServiceUi.JsonString

namespace SyncServiceUi

namespace Serializer

open Lexer Completion

/-! ### The automaton -/

/-- How `dump` can end other than by returning.  Writing behind the end of a
buffer has no meaning in the source; here it is an error of its own. -/
inductive Error where
  | type_error (what : String)
  | json_assert
  | overflow
  deriving DecidableEq, Repr

instance : HasAssert Error := ⟨.json_assert⟩

def UTF8_ACCEPT : UInt8 := 0

def UTF8_REJECT : UInt8 := 1

def utf8d : Array UInt8 := #[
  0, 0, 0, 0, 0, 0, 0, 0, 0, 0, 0, 0, 0, 0, 0, 0, 0, 0, 0, 0, 0, 0, 0, 0, 0, 0, 0, 0, 0, 0, 0, 0, -- 00..1F
  0, 0, 0, 0, 0, 0, 0, 0, 0, 0, 0, 0, 0, 0, 0, 0, 0, 0, 0, 0, 0, 0, 0, 0, 0, 0, 0, 0, 0, 0, 0, 0, -- 20..3F
  0, 0, 0, 0, 0, 0, 0, 0, 0, 0, 0, 0, 0, 0, 0, 0, 0, 0, 0, 0, 0, 0, 0, 0, 0, 0, 0, 0, 0, 0, 0, 0, -- 40..5F
  0, 0, 0, 0, 0, 0, 0, 0, 0, 0, 0, 0, 0, 0, 0, 0, 0, 0, 0, 0, 0, 0, 0, 0, 0, 0, 0, 0, 0, 0, 0, 0, -- 60..7F
  1, 1, 1, 1, 1, 1, 1, 1, 1, 1, 1, 1, 1, 1, 1, 1, 9, 9, 9, 9, 9, 9, 9, 9, 9, 9, 9, 9, 9, 9, 9, 9, -- 80..9F
  7, 7, 7, 7, 7, 7, 7, 7, 7, 7, 7, 7, 7, 7, 7, 7, 7, 7, 7, 7, 7, 7, 7, 7, 7, 7, 7, 7, 7, 7, 7, 7, -- A0..BF
  8, 8, 2, 2, 2, 2, 2, 2, 2, 2, 2, 2, 2, 2, 2, 2, 2, 2, 2, 2, 2, 2, 2, 2, 2, 2, 2, 2, 2, 2, 2, 2, -- C0..DF
  0xA, 0x3, 0x3, 0x3, 0x3, 0x3, 0x3, 0x3, 0x3, 0x3, 0x3, 0x3, 0x3, 0x4, 0x3, 0x3, -- E0..EF
  0xB, 0x6, 0x6, 0x6, 0x5, 0x8, 0x8, 0x8, 0x8, 0x8, 0x8, 0x8, 0x8, 0x8, 0x8, 0x8, -- F0..FF
  0x0, 0x1, 0x2, 0x3, 0x5, 0x8, 0x7, 0x1, 0x1, 0x1, 0x4, 0x6, 0x1, 0x1, 0x1, 0x1, -- s0..s0
  1, 1, 1, 1, 1, 1, 1, 1, 1, 1, 1, 1, 1, 1, 1, 1, 1, 0, 1, 1, 1, 1, 1, 0, 1, 0, 1, 1, 1, 1, 1, 1, -- s1..s2
  1, 2, 1, 1, 1, 1, 1, 2, 1, 2, 1, 1, 1, 1, 1, 1, 1, 1, 1, 1, 1, 1, 1, 2, 1, 1, 1, 1, 1, 1, 1, 1, -- s3..s4
  1, 2, 1, 1, 1, 1, 1, 1, 1, 2, 1, 1, 1, 1, 1, 1, 1, 1, 1, 1, 1, 1, 1, 3, 1, 3, 1, 1, 1, 1, 1, 1, -- s5..s6
  1, 3, 1, 1, 1, 1, 1, 3, 1, 3, 1, 1, 1, 1, 1, 1, 1, 3, 1, 1, 1, 1, 1, 1, 1, 1, 1, 1, 1, 1, 1, 1] -- s7..s8

/-- `utf8d[index]`, behind the assertion that there is such an entry. -/
def lookup (index : ℕ) : Except Error UInt8 :=
  match utf8d[index]? with
  | some entry => .ok entry
  | none => .error .json_assert

/-- The new state and the code point so far. -/
def decode (state : UInt8) (codep : UInt32) (byte : UInt8) : Except Error (UInt8 × UInt32) := do
  let type ← lookup byte.toNat
  let codep :=
    if state ≠ UTF8_ACCEPT then (byte.toUInt32 &&& (0x3f : UInt32)) ||| (codep <<< 6)
    else ((0xFF : UInt32) >>> type.toUInt32) &&& byte.toUInt32
  let state ← lookup (256 + state.toNat * 16 + type.toNat)
  return (state, codep)

/-! ### The table -/

/-- The first part of the table: the types of bytes. -/
def byteType (b : UInt8) : UInt8 :=
  if b ≤ 0x7F then 0
  else if b ≤ 0x8F then 1
  else if b ≤ 0x9F then 9
  else if b ≤ 0xBF then 7
  else if b ≤ 0xC1 then 8
  else if b ≤ 0xDF then 2
  else if b = 0xE0 then 0xA
  else if b = 0xED then 4
  else if b ≤ 0xEF then 3
  else if b = 0xF0 then 0xB
  else if b ≤ 0xF3 then 6
  else if b = 0xF4 then 5
  else 8

/-- The second part: where a state and a type lead. -/
def transition (state type : UInt8) : UInt8 :=
  match state.toNat, type.toNat with
  | 0, 0 => 0 | 0, 2 => 2 | 0, 3 => 3 | 0, 4 => 5 | 0, 5 => 8 | 0, 6 => 7 | 0, 0xA => 4 | 0, 0xB => 6
  | 2, 1 => 0 | 2, 9 => 0 | 2, 7 => 0
  | 3, 1 => 2 | 3, 9 => 2 | 3, 7 => 2
  | 4, 7 => 2
  | 5, 1 => 2 | 5, 9 => 2
  | 6, 9 => 3 | 6, 7 => 3
  | 7, 1 => 3 | 7, 9 => 3 | 7, 7 => 3
  | 8, 1 => 3
  | _, _ => 1

/-- What can be checked of every byte. -/
theorem forall_byte {p : UInt8 → Prop} (h : ∀ b : Fin 256, p (UInt8.ofNat b.val)) (b : UInt8) :
    p b := by
  have hb := h ⟨b.toNat, b.toNat_lt⟩
  rwa [UInt8.ofNat_toNat] at hb

theorem lookup_of_toList {index : ℕ} {entry : UInt8} (h : utf8d.toList[index]? = some entry) :
    lookup index = .ok entry := by
  have hentry : utf8d[index]? = some entry := Array.getElem?_toList.symm.trans h
  unfold lookup
  rw [hentry]

theorem lookup_byte (b : UInt8) : lookup b.toNat = .ok (byteType b) := by
  have hall : ∀ b : Fin 256, utf8d.toList[b.val]? = some (byteType (UInt8.ofNat b.val)) := by
    decide +kernel
  have hb := hall ⟨b.toNat, b.toNat_lt⟩
  rw [UInt8.ofNat_toNat] at hb
  exact lookup_of_toList hb

theorem lookup_state {state type : UInt8} (hstate : state ≤ 8) (htype : type ≤ 0xB) :
    lookup (256 + state.toNat * 16 + type.toNat) = .ok (transition state type) := by
  have hall : ∀ state : Fin 9, ∀ type : Fin 12, utf8d.toList[256 + state.val * 16 + type.val]? =
      some (transition (UInt8.ofNat state.val) (UInt8.ofNat type.val)) := by decide +kernel
  have h := hall ⟨state.toNat, Nat.lt_succ_of_le hstate⟩ ⟨type.toNat, Nat.lt_succ_of_le htype⟩
  rw [UInt8.ofNat_toNat, UInt8.ofNat_toNat] at h
  exact lookup_of_toList h

theorem byteType_le (b : UInt8) : byteType b ≤ 0xB := by
  revert b
  exact forall_byte (by decide +kernel)

/-- No index is outside the table. -/
theorem decode_eq {state : UInt8} (hstate : state ≤ 8) (codep : UInt32) (b : UInt8) :
    decode state codep b = .ok (transition state (byteType b),
      if state ≠ UTF8_ACCEPT then (b.toUInt32 &&& (0x3f : UInt32)) ||| (codep <<< 6)
      else ((0xFF : UInt32) >>> (byteType b).toUInt32) &&& b.toUInt32) := by
  rw [decode, lookup_byte, ok_bind, lookup_state hstate (byteType_le b)]
  rfl

/-! ### Its states -/

/-- The ranges of the bytes still to come in a state, if it is none of the
two that end a sequence. -/
def due (state : UInt8) : List (UInt8 × UInt8) :=
  if state = 2 then [(0x80, 0xBF)]
  else if state = 3 then [(0x80, 0xBF), (0x80, 0xBF)]
  else if state = 4 then [(0xA0, 0xBF), (0x80, 0xBF)]
  else if state = 5 then [(0x80, 0x9F), (0x80, 0xBF)]
  else if state = 6 then [(0x90, 0xBF), (0x80, 0xBF), (0x80, 0xBF)]
  else if state = 7 then [(0x80, 0xBF), (0x80, 0xBF), (0x80, 0xBF)]
  else if state = 8 then [(0x80, 0x8F), (0x80, 0xBF), (0x80, 0xBF)]
  else []

/-- The bits of the code point in a first byte. -/
def leadBits (b : UInt8) : ℕ :=
  if b ≤ 0x7F then b.toNat
  else if b ≤ 0xDF then b.toNat % 32
  else if b ≤ 0xEF then b.toNat % 16
  else b.toNat % 8

theorem transition_ascii (b : UInt8) :
    transition UTF8_ACCEPT (byteType b) = UTF8_ACCEPT ↔ b ≤ 0x7F := by
  revert b
  exact forall_byte (by decide +kernel)

/-- On the first byte of several the table says what the lexer says. -/
theorem continuationRanges_eq (b : UInt8) : ¬ b ≤ 0x7F → continuationRanges b =
    if transition UTF8_ACCEPT (byteType b) = UTF8_REJECT then none
    else some (due (transition UTF8_ACCEPT (byteType b))) := by
  revert b
  exact forall_byte (by decide +kernel)

/-- And so it does on the bytes behind it. -/
theorem transition_next {state : UInt8} (hstate : state ≤ 8) (b : UInt8) :
    ∀ r ∈ (due state).head?,
      if r.1 ≤ b ∧ b ≤ r.2 then
        due (transition state (byteType b)) = (due state).tail ∧
          (transition state (byteType b) = UTF8_ACCEPT ↔ (due state).tail = []) ∧
          transition state (byteType b) ≠ UTF8_REJECT
      else transition state (byteType b) = UTF8_REJECT := by
  have hall : ∀ state : Fin 9, ∀ b : Fin 256, (due (UInt8.ofNat state.val)).head?.all fun r => decide <|
      if r.1 ≤ UInt8.ofNat b.val ∧ UInt8.ofNat b.val ≤ r.2 then
        due (transition (UInt8.ofNat state.val) (byteType (UInt8.ofNat b.val))) =
            (due (UInt8.ofNat state.val)).tail ∧
          (transition (UInt8.ofNat state.val) (byteType (UInt8.ofNat b.val)) = UTF8_ACCEPT ↔
            (due (UInt8.ofNat state.val)).tail = []) ∧
          transition (UInt8.ofNat state.val) (byteType (UInt8.ofNat b.val)) ≠ UTF8_REJECT
      else transition (UInt8.ofNat state.val) (byteType (UInt8.ofNat b.val)) = UTF8_REJECT := by
    decide +kernel
  have h := hall ⟨state.toNat, Nat.lt_succ_of_le hstate⟩ ⟨b.toNat, b.toNat_lt⟩
  rw [UInt8.ofNat_toNat, UInt8.ofNat_toNat] at h
  intro r hr
  exact of_decide_eq_true ((Option.all_eq_true _ _).mp h r hr)

/-! ### Code points -/

theorem leadBits_eq (b : UInt8) : transition UTF8_ACCEPT (byteType b) ≠ UTF8_REJECT →
    (((0xFF : UInt32) >>> (byteType b).toUInt32) &&& b.toUInt32).toNat = leadBits b := by
  revert b
  exact forall_byte (by decide +kernel)

/-- The code point of a character, or what is known of it, from its bytes. -/
def bits : Bytes → ℕ
  | [] => 0
  | b :: added => added.foldl (fun v x => v * 64 + x.toNat % 64) (leadBits b)

theorem bits_append (b : UInt8) (added : Bytes) (x : UInt8) :
    bits (b :: added ++ [x]) = bits (b :: added) * 64 + x.toNat % 64 := by
  simp [bits]

theorem bits_lt {b : UInt8} (hb : ¬ b ≤ 0x7F) (added : Bytes) :
    bits (b :: added) < 32 * 64 ^ added.length := by
  induction added using List.reverseRecOn with
  | nil =>
      show leadBits b < 32 * 64 ^ 0
      unfold leadBits
      rw [if_neg hb]
      split_ifs <;> omega
  | append_singleton added x ih =>
      rw [← List.cons_append, bits_append, List.length_append, List.length_singleton, pow_succ]
      omega

theorem bits_encodeChar (c : Char) : bits (String.utf8EncodeChar c) = c.toNat := by
  have hrange := Utf8.toNat_range c
  rw [Utf8.encodeChar_eq]
  split_ifs with h₁ h₂ h₃
  all_goals
    simp only [bits, leadBits, List.foldl_cons, List.foldl_nil, UInt8.le_iff_toNat_le,
      UInt8.toNat_ofNat', UInt8.reduceToNat]
  · rw [if_pos (by omega)]
    omega
  · rw [if_neg (by omega), if_pos (by omega)]
    omega
  · rw [if_neg (by omega), if_neg (by omega), if_pos (by omega)]
    omega
  · rw [if_neg (by omega), if_neg (by omega), if_neg (by omega)]
    omega

/-- Six more bits. -/
theorem codep_next {codep : UInt32} (h : codep.toNat < 2 ^ 26) (x : UInt8) :
    ((x.toUInt32 &&& (0x3f : UInt32)) ||| (codep <<< 6)).toNat =
      codep.toNat * 64 + x.toNat % 64 := by
  have hmask : x.toNat &&& 0x3f = x.toNat % 64 := Nat.and_two_pow_sub_one_eq_mod x.toNat 6
  have hshift : codep.toNat <<< 6 % 2 ^ 32 = codep.toNat <<< 6 := by
    rw [Nat.shiftLeft_eq]
    omega
  have hlow : x.toNat % 64 < 2 ^ 6 := Nat.mod_lt _ (by decide)
  have hor := Nat.shiftLeft_add_eq_or_of_lt hlow codep.toNat
  simp only [UInt32.toNat_or, UInt32.toNat_and, UInt32.toNat_shiftLeft, UInt8.toNat_toUInt32,
    UInt32.reduceToNat, hmask]
  rw [Nat.or_comm, hshift, ← hor, Nat.shiftLeft_eq]

/-! ### One call -/

/-- The byte is in the range. -/
def InRange (r : UInt8 × UInt8) (x : UInt8) : Prop :=
  r.1 ≤ x ∧ x ≤ r.2

/-- The automaton has read `pend` since it last accepted: nothing, or the
start of a character. -/
inductive Reading : Bytes → UInt8 → UInt32 → Prop where
  | accepted (codep : UInt32) : Reading [] UTF8_ACCEPT codep
  | within {b : UInt8} {added : Bytes} {matched : List (UInt8 × UInt8)} {state : UInt8}
      {codep : UInt32} : ¬ b ≤ 0x7F → continuationRanges b = some (matched ++ due state) →
      List.Forall₂ InRange matched added → due state ≠ [] → state ≤ 8 →
      codep.toNat = bits (b :: added) → Reading (b :: added) state codep

/-- What one more byte makes of it. -/
inductive Step (pend : Bytes) (x : UInt8) : UInt8 → UInt32 → Prop where
  | accept {c : Char} {codep : UInt32} : String.utf8EncodeChar c = pend ++ [x] →
      codep.toNat = c.toNat → Step pend x UTF8_ACCEPT codep
  | reject {codep : UInt32} : (∀ c, ¬ pend ++ [x] <+: String.utf8EncodeChar c) →
      Step pend x UTF8_REJECT codep
  | more {state : UInt8} {codep : UInt32} : state ≠ UTF8_ACCEPT → state ≠ UTF8_REJECT →
      Reading (pend ++ [x]) state codep → Step pend x state codep

theorem forall₂_append_cons {α β : Type*} {R : α → β → Prop} {as as' : List α} {bs bs' : List β}
    {a : α} {b : β} (h : List.Forall₂ R as bs) :
    List.Forall₂ R (as ++ a :: as') (bs ++ b :: bs') ↔ R a b ∧ List.Forall₂ R as' bs' := by
  induction h with
  | nil => exact List.forall₂_cons
  | cons hab _ ih => simp [hab, ih]

theorem transition_le (state type : UInt8) : transition state type ≤ 8 := by
  unfold transition
  split <;> decide

theorem due_ne_nil {state : UInt8} (hstate : state ≤ 8) (haccept : state ≠ UTF8_ACCEPT)
    (hreject : state ≠ UTF8_REJECT) : due state ≠ [] := by
  have hall : ∀ state : Fin 9, UInt8.ofNat state.val ≠ UTF8_ACCEPT →
      UInt8.ofNat state.val ≠ UTF8_REJECT → due (UInt8.ofNat state.val) ≠ [] := by decide
  have h := hall ⟨state.toNat, Nat.lt_succ_of_le hstate⟩
  rw [UInt8.ofNat_toNat] at h
  exact h haccept hreject

theorem length_continuationRanges {b : UInt8} {ranges : List (UInt8 × UInt8)}
    (h : continuationRanges b = some ranges) : ranges.length ≤ 3 := by
  unfold continuationRanges at h
  split_ifs at h
  all_goals
    obtain rfl := Option.some.inj h
    decide

theorem decode_step_accepted (codep : UInt32) (x : UInt8) :
    ∃ state' codep', decode UTF8_ACCEPT codep x = .ok (state', codep') ∧ Step [] x state' codep' := by
  refine ⟨_, _, decode_eq (by decide) codep x, ?_⟩
  rw [if_neg (by simp)]
  by_cases hreject : transition UTF8_ACCEPT (byteType x) = UTF8_REJECT
  · have hx : ¬ x ≤ 0x7F := by
      rw [← transition_ascii, hreject]
      decide
    have hranges := continuationRanges_eq x hx
    rw [if_pos hreject] at hranges
    rw [hreject]
    refine .reject ?_
    rintro c ⟨added, hc⟩
    obtain ⟨ranges, hsome, -⟩ := (continuation_iff hx).mpr ⟨c, hc.symm⟩
    cases hranges.symm.trans hsome
  have hbits := leadBits_eq x hreject
  by_cases hx : x ≤ 0x7F
  · have hencode : String.utf8EncodeChar (chr x) = [x] := by
      rw [UInt8.le_iff_toNat_le] at hx
      exact encodeChar_chr (Nat.lt_succ_of_le hx)
    rw [(transition_ascii x).mpr hx]
    refine .accept hencode (hbits.trans ?_)
    rw [toNat_chr, leadBits, if_pos hx]
  · have haccept : transition UTF8_ACCEPT (byteType x) ≠ UTF8_ACCEPT :=
      fun h => hx ((transition_ascii x).mp h)
    have hranges := continuationRanges_eq x hx
    rw [if_neg hreject] at hranges
    refine .more haccept hreject ?_
    exact @Reading.within x [] [] _ _ hx hranges .nil
      (due_ne_nil (transition_le _ _) haccept hreject) (transition_le _ _) hbits

theorem decode_step {pend : Bytes} {state : UInt8} {codep : UInt32}
    (h : Reading pend state codep) (x : UInt8) :
    ∃ state' codep', decode state codep x = .ok (state', codep') ∧ Step pend x state' codep' := by
  cases h with
  | accepted codep => exact decode_step_accepted codep x
  | @within b added matched _ _ hb hranges hmatched hdue hstate hcodep =>
      obtain ⟨r, ranges, hr⟩ := List.exists_cons_of_ne_nil hdue
      have hnext := transition_next hstate x r (by rw [hr]; rfl)
      rw [hr, List.tail_cons] at hnext
      rw [hr] at hranges
      have hne : state ≠ UTF8_ACCEPT := by
        rintro rfl
        exact hdue rfl
      refine ⟨_, _, decode_eq hstate codep x, ?_⟩
      rw [if_pos hne]
      by_cases hx : r.1 ≤ x ∧ x ≤ r.2
      · rw [if_pos hx] at hnext
        obtain ⟨hdue', haccept, hreject⟩ := hnext
        have hbits : ((x.toUInt32 &&& (0x3f : UInt32)) ||| (codep <<< 6)).toNat =
            bits (b :: (added ++ [x])) := by
          have hlength := length_continuationRanges hranges
          rw [List.length_append, List.length_cons, hmatched.length_eq] at hlength
          have hpow : 64 ^ added.length ≤ 64 ^ 2 := Nat.pow_le_pow_right (by decide) (by omega)
          have hlt := bits_lt hb added
          rw [codep_next (by omega), hcodep, ← List.cons_append, bits_append]
        have hmatched' : List.Forall₂ InRange (matched ++ [r]) (added ++ [x]) :=
          (forall₂_append_cons hmatched).mpr ⟨hx, .nil⟩
        by_cases hlast : ranges = []
        · rw [haccept.mpr hlast]
          subst hlast
          obtain ⟨c, hc⟩ := (continuation_iff hb).mp ⟨_, hranges, hmatched'⟩
          refine .accept hc ?_
          rw [hbits, ← hc, bits_encodeChar]
        · refine .more (fun h => hlast (haccept.mp h)) hreject ?_
          refine @Reading.within b (added ++ [x]) (matched ++ [r]) _ _ hb ?_ hmatched' ?_
            (transition_le _ _) hbits
          · rw [hdue', hranges, List.append_assoc]
            rfl
          · rwa [hdue']
      · rw [if_neg hx] at hnext
        rw [hnext]
        refine .reject ?_
        rintro c ⟨more, hc⟩
        obtain ⟨ranges', hsome, hall⟩ := (continuation_iff hb).mpr
          ⟨c, show String.utf8EncodeChar c = b :: (added ++ x :: more) by rw [← hc]; simp⟩
        obtain rfl := Option.some.inj (hranges.symm.trans hsome)
        exact hx ((forall₂_append_cons hmatched).mp hall).1

/-! ### What has been read -/

theorem Reading.length_le {pend : Bytes} {state : UInt8} {codep : UInt32}
    (h : Reading pend state codep) : pend.length ≤ 3 := by
  cases h with
  | accepted => exact Nat.zero_le 3
  | within _ hranges hmatched hdue _ _ =>
      have hlength := length_continuationRanges hranges
      have hpos := List.length_pos_of_ne_nil hdue
      rw [List.length_append, hmatched.length_eq] at hlength
      rw [List.length_cons]
      omega

/-- Every range has a byte in it. -/
theorem inRange_due {state : UInt8} (h : state ≤ 8) :
    List.Forall₂ InRange (due state) ((due state).map Prod.fst) := by
  have hall : ∀ state : Fin 9, (due (UInt8.ofNat state.val)).all fun r => r.1 ≤ r.2 := by decide
  have hstate := hall ⟨state.toNat, Nat.lt_succ_of_le h⟩
  rw [UInt8.ofNat_toNat] at hstate
  rw [List.forall₂_map_right_iff, List.forall₂_same]
  intro r hr
  exact ⟨UInt8.le_refl _, of_decide_eq_true (List.all_eq_true.mp hstate r hr)⟩

/-- What is being read can go on to be a character. -/
theorem Reading.starts {pend : Bytes} {state : UInt8} {codep : UInt32}
    (h : Reading pend state codep) : Utf8.Starts pend := by
  cases h with
  | accepted => exact ⟨[], List.nil_prefix⟩
  | @within b added _ _ _ hb hranges hmatched _ hstate _ =>
      obtain ⟨c, hc⟩ := (continuation_iff hb).mp
        ⟨_, hranges, List.rel_append hmatched (inRange_due hstate)⟩
      refine ⟨[c], (due state).map Prod.fst, ?_⟩
      rw [Utf8.encode_cons, Utf8.encode_nil, List.append_nil, hc]
      rfl

/-- It is none yet. -/
theorem Reading.not_encodeChar_prefix {pend : Bytes} {state : UInt8} {codep : UInt32}
    (h : Reading pend state codep) (c : Char) : ¬ String.utf8EncodeChar c <+: pend := by
  intro hprefix
  cases h with
  | accepted => exact String.utf8EncodeChar_ne_nil (List.prefix_nil.mp hprefix)
  | @within b added matched _ _ hb hranges hmatched hdue _ _ =>
      obtain ⟨more, hmore⟩ := hprefix
      rcases hc : String.utf8EncodeChar c with - | ⟨b', added'⟩
      · exact String.utf8EncodeChar_ne_nil hc
      · rw [hc] at hmore
        obtain ⟨rfl, rfl⟩ := List.cons.inj hmore
        obtain ⟨ranges, hsome, hall⟩ := (continuation_iff hb).mpr ⟨c, hc⟩
        obtain rfl := Option.some.inj (hranges.symm.trans hsome)
        have hlength := hall.length_eq
        have hlength' : matched.length = (added' ++ more).length := hmatched.length_eq
        have hpos := List.length_pos_of_ne_nil hdue
        rw [List.length_append] at hlength hlength'
        omega

/-- A rejected byte is one that no text can have there. -/
theorem Reading.not_starts {pend : Bytes} {state : UInt8} {codep : UInt32}
    (h : Reading pend state codep) {x : UInt8}
    (hnone : ∀ c, ¬ pend ++ [x] <+: String.utf8EncodeChar c) : ¬ Utf8.Starts (pend ++ [x]) := by
  rintro ⟨cs, hprefix⟩
  cases cs with
  | nil => exact absurd (List.prefix_nil.mp hprefix) (by simp)
  | cons c cs =>
      rw [Utf8.encode_cons] at hprefix
      rcases le_total (pend ++ [x]).length (String.utf8EncodeChar c).length with hle | hle
      · exact hnone c (List.prefix_of_prefix_length_le hprefix (List.prefix_append _ _) hle)
      · have hwhole := List.prefix_of_prefix_length_le (List.prefix_append _ _) hprefix hle
        rcases List.prefix_concat_iff.mp hwhole with heq | hprefix'
        · exact hnone c (heq ▸ List.prefix_refl _)
        · exact h.not_encodeChar_prefix c hprefix'

end Serializer

end SyncServiceUi
