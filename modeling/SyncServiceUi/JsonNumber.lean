/-
SyncServiceUi/JsonNumber.lean

The numbers of a JSON text (`scan_number` in
`src/dependencies/json/json.hpp`).

`Numeral` is the grammar of a number and its value.  The state machine of the
lexer accepts exactly the texts of numerals (`accepts_iff_numeral`), the
conversions of C read such a text to its end, as the lexer asserts, and the
token has the value of the numeral: an integer where it fits, otherwise the
nearest double (`convertNumber_text`).
-/
import SyncServiceUi.JsonString

namespace SyncServiceUi

namespace Lexer

open Binary64 Completion

/-! ### The grammar -/

/-- The exponent part of a number. -/
structure Exponent where
  letter : Char
  negative : Option Bool
  digits : List Char
  letter_eq : letter = 'e' ∨ letter = 'E'
  digits_ne : digits ≠ []
  isDigit : ∀ c ∈ digits, c.isDigit = true

def Exponent.sign : Option Bool → List Char
  | none => []
  | some false => ['+']
  | some true => ['-']

def Exponent.text (e : Exponent) : List Char :=
  e.letter :: (sign e.negative ++ e.digits)

def Exponent.value (e : Exponent) : ℤ :=
  if e.negative = some true then -(Nat.ofDigitChars 10 e.digits 0 : ℕ)
  else (Nat.ofDigitChars 10 e.digits 0 : ℕ)

/-- A number: sign, whole part, fraction (empty where there is none) and
exponent.  The whole part does not start with a zero unless it is one. -/
structure Numeral where
  negative : Bool
  whole : List Char
  fraction : List Char
  exponent : Option Exponent
  whole_ne : whole ≠ []
  whole_isDigit : ∀ c ∈ whole, c.isDigit = true
  whole_zero : ∀ ds, whole = '0' :: ds → ds = []
  fraction_isDigit : ∀ c ∈ fraction, c.isDigit = true

def minusText (negative : Bool) : List Char :=
  if negative then ['-'] else []

def fractionText : List Char → List Char
  | [] => []
  | c :: cs => '.' :: c :: cs

def exponentText : Option Exponent → List Char
  | none => []
  | some e => e.text

def exponentValue : Option Exponent → ℤ
  | none => 0
  | some e => e.value

namespace Numeral

/-- The number without its sign. -/
def unsignedText (n : Numeral) : List Char :=
  n.whole ++ (fractionText n.fraction ++ exponentText n.exponent)

def text (n : Numeral) : List Char :=
  minusText n.negative ++ n.unsignedText

/-- The value of a number without its sign. -/
def magnitude (n : Numeral) : ℚ :=
  (Nat.ofDigitChars 10 (n.whole ++ n.fraction) 0 : ℕ) *
    10 ^ (exponentValue n.exponent - n.fraction.length)

/-- The nearest double, `none` where it is infinite.  A zero keeps its sign. -/
def double (n : Numeral) : Option Double :=
  (toDouble n.magnitude).map (.ofRat n.negative)

/-- No fraction and no exponent. -/
def isInteger (n : Numeral) : Bool :=
  n.fraction.isEmpty && n.exponent.isNone

/-- The token of a number: an integer where it fits one of the two integer
types, otherwise the nearest double. -/
def token (n : Numeral) : Token :=
  let whole := Nat.ofDigitChars 10 n.whole 0
  if n.isInteger ∧ n.negative = false ∧ whole < 2 ^ 64 then .value_unsigned whole
  else if n.isInteger ∧ n.negative = true ∧ whole ≤ 2 ^ 63 then .value_integer (-whole)
  else .value_float n.double

end Numeral

/-! ### Characters of a number -/

theorem ne_of_isDigit {c d : Char} (hc : c.isDigit = true) (hd : d.isDigit = false) : c ≠ d := by
  rintro rfl
  rw [hc] at hd
  cases hd

/-- The characters the state machine has an edge for somewhere. -/
def isNumberChar (c : Char) : Bool :=
  c.isDigit || c = '.' || c = 'e' || c = 'E' || c = '+' || c = '-'

theorem next_of_not_isNumberChar {c : Char} (hc : isNumberChar c = false) (state : NumberState) :
    state.next c = none := by
  simp only [isNumberChar, Bool.or_eq_false_iff, decide_eq_false_iff_not] at hc
  obtain ⟨⟨⟨⟨⟨hdigit, hpoint⟩, he⟩, hE⟩, hplus⟩, hminus⟩ := hc
  have hzero : c ≠ '0' := by
    rintro rfl
    cases hdigit
  cases state <;> simp [NumberState.next, *]

theorem toNat_lt_of_isNumberChar {c : Char} (hc : isNumberChar c = true) : c.toNat < 0x80 := by
  simp only [isNumberChar, Bool.or_eq_true, decide_eq_true_eq] at hc
  rcases hc with ((((hdigit | rfl) | rfl) | rfl) | rfl) | rfl
  · have h9 : '9'.toNat = 57 := rfl
    have := (Char.isDigit_iff_toNat.mp hdigit).2
    omega
  all_goals decide

theorem isNumberChar_of_next {c : Char} {state state' : NumberState}
    (h : state.next c = some state') : isNumberChar c = true := by
  by_contra hc
  rw [next_of_not_isNumberChar (Bool.eq_false_iff.mpr hc)] at h
  cases h

/-! ### The state machine -/

/-- The state machine accepts the rest `w` of a number. -/
def NumberState.Accepts : NumberState → List Char → Prop
  | state, [] => state.done = true
  | state, c :: w => ∃ state', state.next c = some state' ∧ state'.Accepts w

/-- A decimal point or the letter of an exponent. -/
def isFloatChar (c : Char) : Bool :=
  c = '.' || c = 'e' || c = 'E'

theorem isFloatChar_of_isDigit {c : Char} (h : c.isDigit = true) : isFloatChar c = false := by
  simp only [isFloatChar, Bool.or_eq_false_iff, decide_eq_false_iff_not]
  exact ⟨⟨ne_of_isDigit h (by decide), ne_of_isDigit h (by decide)⟩, ne_of_isDigit h (by decide)⟩

/-- What `number_type` is at the end of `w`. -/
def typeOf (number_type : NumberType) (w : List Char) : NumberType :=
  if w.any isFloatChar then .value_float else number_type

/-- The labels that make a number a float are those its point and its letter
lead to. -/
theorem assign_of_next {c : Char} {state state' : NumberState} (h : state.next c = some state')
    (number_type : NumberType) :
    state'.assign number_type = if isFloatChar c then .value_float else number_type := by
  cases state <;> simp only [NumberState.next] at h <;> split_ifs at h <;>
    obtain rfl := Option.some.inj h
  all_goals rename_i hc
  any_goals (rw [isFloatChar_of_isDigit hc]; rfl)
  any_goals (subst hc; rfl)
  all_goals
    rcases hc with rfl | rfl
    · rfl
    · rfl

theorem typeOf_cons {c : Char} {state state' : NumberState} (h : state.next c = some state')
    (number_type : NumberType) (w : List Char) :
    typeOf (state'.assign number_type) w = typeOf number_type (c :: w) := by
  rw [assign_of_next h, typeOf, typeOf, List.any_cons]
  cases isFloatChar c <;> simp

/-- `rest` does not start with a character of a number. -/
def Ends (rest : Bytes) : Prop :=
  ∀ b rest', rest = b :: rest' → isNumberChar (chr b) = false

/-- What the loop reads is accepted. -/
theorem accepts_of_scan_number_from {state : NumberState} {number_type : NumberType}
    {token_buffer : List Char} {input rest : Bytes} {result : NumberType × List Char}
    (h : scan_number_from state number_type token_buffer input = .ok (result, rest)) :
    ∃ w, state.Accepts w ∧ input = Utf8.encode w ++ rest ∧
      result = (typeOf number_type w, token_buffer ++ w) := by
  induction input generalizing state number_type token_buffer with
  | nil =>
      rw [scan_number_from] at h
      split_ifs at h with hdone
      obtain ⟨rfl, rfl⟩ := Prod.mk.inj (Except.ok.inj h)
      exact ⟨[], hdone, rfl, by simp [typeOf]⟩
  | cons b input ih =>
      rw [scan_number_from] at h
      split at h
      next state' hnext =>
        obtain ⟨w, hw, rfl, rfl⟩ := ih h
        have hascii := toNat_lt_of_isNumberChar (isNumberChar_of_next hnext)
        rw [toNat_chr] at hascii
        refine ⟨chr b :: w, ⟨state', hnext, hw⟩, ?_, ?_⟩
        · rw [Utf8.encode_cons, encodeChar_chr hascii]
          rfl
        · rw [typeOf_cons hnext, List.append_assoc, List.singleton_append]
      next =>
        split_ifs at h with hdone
        obtain ⟨rfl, rfl⟩ := Prod.mk.inj (Except.ok.inj h)
        exact ⟨[], hdone, rfl, by simp [typeOf]⟩

/-- An accepted text is read to its end. -/
theorem scan_number_from_of_accepts {state : NumberState} {w : List Char} (hw : state.Accepts w)
    (number_type : NumberType) (token_buffer : List Char) {rest : Bytes} (hrest : Ends rest) :
    scan_number_from state number_type token_buffer (Utf8.encode w ++ rest) =
      .ok ((typeOf number_type w, token_buffer ++ w), rest) := by
  induction w generalizing state number_type token_buffer with
  | nil =>
      have hdone : state.done = true := hw
      rw [Utf8.encode_nil, List.nil_append, List.append_nil]
      cases rest with
      | nil =>
          rw [scan_number_from, if_pos hdone]
          rfl
      | cons b rest =>
          rw [scan_number_from, next_of_not_isNumberChar (hrest b rest rfl)]
          exact if_pos hdone
  | cons c w ih =>
      obtain ⟨state', hnext, hw'⟩ := hw
      have hascii := toNat_lt_of_isNumberChar (isNumberChar_of_next hnext)
      rw [Utf8.encode_cons, Utf8.encodeChar_ascii hascii, List.append_assoc, List.singleton_append,
        scan_number_from, chr_ofNat hascii, hnext]
      dsimp only
      rw [ih hw', typeOf_cons hnext, List.append_assoc, List.singleton_append]

/-! ### The machine and the grammar -/

section Language

open NumberState

theorem accepts_any2 {w : List Char} : any2.Accepts w ↔ ∀ c ∈ w, c.isDigit = true := by
  induction w with
  | nil => simp [NumberState.Accepts, done]
  | cons c w ih =>
      rw [List.forall_mem_cons, ← ih]
      by_cases hc : c.isDigit = true
      · simp [NumberState.Accepts, next, hc]
      · simp [NumberState.Accepts, next, hc]

theorem accepts_sign {w : List Char} :
    NumberState.sign.Accepts w ↔ w ≠ [] ∧ ∀ c ∈ w, c.isDigit = true := by
  cases w with
  | nil => simp [NumberState.Accepts, done]
  | cons c w =>
      rw [List.forall_mem_cons, ← accepts_any2]
      by_cases hc : c.isDigit = true
      · simp [NumberState.Accepts, next, hc]
      · simp [NumberState.Accepts, next, hc]

theorem accepts_exponent {w : List Char} :
    NumberState.exponent.Accepts w ↔
      ∃ negative ds, w = Exponent.sign negative ++ ds ∧ ds ≠ [] ∧ ∀ c ∈ ds, c.isDigit = true := by
  refine ⟨?_, ?_⟩
  · intro h
    cases w with
    | nil => cases h
    | cons c w =>
        obtain ⟨state', hnext, hw⟩ := h
        simp only [next] at hnext
        split_ifs at hnext with hsign hdigit
        · obtain rfl := Option.some.inj hnext
          obtain ⟨hne, hall⟩ := accepts_sign.mp hw
          rcases hsign with rfl | rfl
          · exact ⟨some false, w, rfl, hne, hall⟩
          · exact ⟨some true, w, rfl, hne, hall⟩
        · obtain rfl := Option.some.inj hnext
          exact ⟨none, c :: w, rfl, List.cons_ne_nil _ _,
            List.forall_mem_cons.mpr ⟨hdigit, accepts_any2.mp hw⟩⟩
  · rintro ⟨negative, ds, rfl, hne, hall⟩
    rcases negative with - | - | -
    · obtain ⟨c, ds, rfl⟩ := List.exists_cons_of_ne_nil hne
      obtain ⟨hc, hds⟩ := List.forall_mem_cons.mp hall
      refine ⟨any2, ?_, accepts_any2.mpr hds⟩
      have hplus := ne_of_isDigit hc (show '+'.isDigit = false by decide)
      have hminus := ne_of_isDigit hc (show '-'.isDigit = false by decide)
      simp [next, hc, hplus, hminus]
    · exact ⟨NumberState.sign, rfl, accepts_sign.mpr ⟨hne, hall⟩⟩
    · exact ⟨NumberState.sign, rfl, accepts_sign.mpr ⟨hne, hall⟩⟩

/-- Where a letter may follow, what starts with one is an exponent part. -/
theorem exists_exponent {c : Char} {w : List Char} (hc : c = 'e' ∨ c = 'E')
    (hw : NumberState.exponent.Accepts w) : ∃ e, exponentText (some e) = c :: w := by
  obtain ⟨negative, ds, rfl, hne, hds⟩ := accepts_exponent.mp hw
  exact ⟨⟨c, negative, ds, hc, hne, hds⟩, rfl⟩

theorem accepts_exponentText {state : NumberState} (hdone : state.done = true)
    (hletter : ∀ c, c = 'e' ∨ c = 'E' → state.next c = some .exponent) (e : Option Exponent) :
    state.Accepts (exponentText e) := by
  rcases e with - | e
  · exact hdone
  · exact ⟨.exponent, hletter _ e.letter_eq,
      accepts_exponent.mpr ⟨e.negative, e.digits, rfl, e.digits_ne, e.isDigit⟩⟩

theorem next_letter {c : Char} (hc : c = 'e' ∨ c = 'E') :
    decimal2.next c = some .exponent ∧ zero.next c = some .exponent := by
  rcases hc with rfl | rfl
  · exact ⟨rfl, rfl⟩
  · exact ⟨rfl, rfl⟩

theorem accepts_decimal2 {w : List Char} :
    decimal2.Accepts w ↔ ∃ ds e, w = ds ++ exponentText e ∧ ∀ c ∈ ds, c.isDigit = true := by
  refine ⟨?_, ?_⟩
  · intro h
    induction w with
    | nil => exact ⟨[], none, rfl, by simp⟩
    | cons c w ih =>
        obtain ⟨state', hnext, hw⟩ := h
        simp only [next] at hnext
        split_ifs at hnext with hdigit hletter
        · obtain rfl := Option.some.inj hnext
          obtain ⟨ds, e, rfl, hds⟩ := ih hw
          exact ⟨c :: ds, e, rfl, List.forall_mem_cons.mpr ⟨hdigit, hds⟩⟩
        · obtain rfl := Option.some.inj hnext
          obtain ⟨e, he⟩ := exists_exponent hletter hw
          exact ⟨[], some e, he.symm, by simp⟩
  · rintro ⟨ds, e, rfl, hds⟩
    induction ds with
    | nil => exact accepts_exponentText rfl (fun c hc => (next_letter hc).1) e
    | cons c ds ih =>
        obtain ⟨hc, hds'⟩ := List.forall_mem_cons.mp hds
        exact ⟨decimal2, if_pos hc, ih hds'⟩

theorem accepts_decimal1 {w : List Char} :
    decimal1.Accepts w ↔
      ∃ ds e, w = ds ++ exponentText e ∧ ds ≠ [] ∧ ∀ c ∈ ds, c.isDigit = true := by
  refine ⟨?_, ?_⟩
  · intro h
    cases w with
    | nil => cases h
    | cons c w =>
        obtain ⟨state', hnext, hw⟩ := h
        simp only [next] at hnext
        split_ifs at hnext with hdigit
        obtain rfl := Option.some.inj hnext
        obtain ⟨ds, e, rfl, hds⟩ := accepts_decimal2.mp hw
        exact ⟨c :: ds, e, rfl, List.cons_ne_nil _ _, List.forall_mem_cons.mpr ⟨hdigit, hds⟩⟩
  · rintro ⟨ds, e, rfl, hne, hds⟩
    obtain ⟨c, ds, rfl⟩ := List.exists_cons_of_ne_nil hne
    obtain ⟨hc, hds'⟩ := List.forall_mem_cons.mp hds
    exact ⟨decimal2, if_pos hc, accepts_decimal2.mpr ⟨ds, e, rfl, hds'⟩⟩

theorem accepts_zero {w : List Char} :
    zero.Accepts w ↔ ∃ fraction e, w = fractionText fraction ++ exponentText e ∧
      ∀ c ∈ fraction, c.isDigit = true := by
  refine ⟨?_, ?_⟩
  · intro h
    cases w with
    | nil => exact ⟨[], none, rfl, by simp⟩
    | cons c w =>
        obtain ⟨state', hnext, hw⟩ := h
        simp only [next] at hnext
        split_ifs at hnext with hpoint hletter
        · obtain rfl := Option.some.inj hnext
          obtain ⟨ds, e, rfl, hne, hds⟩ := accepts_decimal1.mp hw
          obtain ⟨d, ds, rfl⟩ := List.exists_cons_of_ne_nil hne
          exact ⟨d :: ds, e, by rw [hpoint]; rfl, hds⟩
        · obtain rfl := Option.some.inj hnext
          obtain ⟨e, he⟩ := exists_exponent hletter hw
          exact ⟨[], some e, he.symm, by simp⟩
  · rintro ⟨fraction, e, rfl, hfraction⟩
    cases fraction with
    | nil => exact accepts_exponentText rfl (fun c hc => (next_letter hc).2) e
    | cons d ds =>
        exact ⟨decimal1, rfl,
          accepts_decimal1.mpr ⟨d :: ds, e, rfl, List.cons_ne_nil _ _, hfraction⟩⟩

/-- Behind a digit that is not a zero: more digits, then as behind a zero. -/
theorem accepts_any1 {w : List Char} :
    any1.Accepts w ↔ ∃ ds w', w = ds ++ w' ∧ (∀ c ∈ ds, c.isDigit = true) ∧ zero.Accepts w' := by
  refine ⟨?_, ?_⟩
  · intro h
    induction w with
    | nil => exact ⟨[], [], rfl, by simp, rfl⟩
    | cons c w ih =>
        obtain ⟨state', hnext, hw⟩ := h
        by_cases hdigit : c.isDigit = true
        · obtain rfl := Option.some.inj ((if_pos hdigit).symm.trans hnext)
          obtain ⟨ds, w', rfl, hds, hw'⟩ := ih hw
          exact ⟨c :: ds, w', rfl, List.forall_mem_cons.mpr ⟨hdigit, hds⟩, hw'⟩
        · exact ⟨[], c :: w, rfl, by simp, state', (if_neg hdigit).symm.trans hnext, hw⟩
  · rintro ⟨ds, w', rfl, hds, hw'⟩
    induction ds with
    | nil =>
        cases w' with
        | nil => rfl
        | cons c w' =>
            obtain ⟨state', hnext, hw⟩ := hw'
            refine ⟨state', ?_, hw⟩
            have hdigit : ¬ c.isDigit = true := by
              intro hdigit
              have hpoint := ne_of_isDigit hdigit (show '.'.isDigit = false by decide)
              have he := ne_of_isDigit hdigit (show 'e'.isDigit = false by decide)
              have hE := ne_of_isDigit hdigit (show 'E'.isDigit = false by decide)
              simp [next, hpoint, he, hE] at hnext
            exact (if_neg hdigit).trans hnext
    | cons c ds ih =>
        obtain ⟨hc, hds'⟩ := List.forall_mem_cons.mp hds
        exact ⟨any1, if_pos hc, ih hds'⟩

/-- `c :: w` is a number without its sign. -/
def AcceptsWhole (c : Char) (w : List Char) : Prop :=
  c = '0' ∧ zero.Accepts w ∨ c ≠ '0' ∧ c.isDigit = true ∧ any1.Accepts w

theorem exists_numeral {c : Char} {w : List Char} (h : AcceptsWhole c w) (negative : Bool) :
    ∃ n : Numeral, n.text = minusText negative ++ c :: w := by
  rcases h with ⟨rfl, hw⟩ | ⟨hzero, hc, hw⟩
  · obtain ⟨fraction, e, rfl, hfraction⟩ := accepts_zero.mp hw
    exact ⟨⟨negative, ['0'], fraction, e, by simp, by simp, by simp, hfraction⟩, rfl⟩
  · obtain ⟨ds, w', rfl, hds, hw'⟩ := accepts_any1.mp hw
    obtain ⟨fraction, e, rfl, hfraction⟩ := accepts_zero.mp hw'
    refine ⟨⟨negative, c :: ds, fraction, e, by simp, List.forall_mem_cons.mpr ⟨hc, hds⟩, ?_,
      hfraction⟩, rfl⟩
    intro ds' h
    exact absurd (List.cons.inj h).1 hzero

theorem exists_acceptsWhole (n : Numeral) :
    ∃ c w, n.unsignedText = c :: w ∧ AcceptsWhole c w := by
  obtain ⟨d, ds, hwhole⟩ := List.exists_cons_of_ne_nil n.whole_ne
  have hdigits := n.whole_isDigit
  rw [hwhole] at hdigits
  obtain ⟨hd, hds⟩ := List.forall_mem_cons.mp hdigits
  have htail : zero.Accepts (fractionText n.fraction ++ exponentText n.exponent) :=
    accepts_zero.mpr ⟨n.fraction, n.exponent, rfl, n.fraction_isDigit⟩
  refine ⟨d, _, by rw [Numeral.unsignedText, hwhole, List.cons_append], ?_⟩
  by_cases hzero : d = '0'
  · subst hzero
    obtain rfl := n.whole_zero ds hwhole
    exact .inl ⟨rfl, htail⟩
  · exact .inr ⟨hzero, hd, accepts_any1.mpr ⟨ds, _, rfl, hds, htail⟩⟩

theorem acceptsWhole_iff {c : Char} {w : List Char} (hc : c ≠ '-') :
    (∃ state, firstState c = some state ∧ state.Accepts w) ↔ AcceptsWhole c w := by
  unfold firstState AcceptsWhole
  rw [if_neg hc]
  by_cases hzero : c = '0'
  · simp [hzero]
  · by_cases hdigit : c.isDigit = true
    · simp [hzero, hdigit]
    · simp [hzero, hdigit]

theorem accepts_minus {w : List Char} :
    minus.Accepts w ↔ ∃ c w', w = c :: w' ∧ AcceptsWhole c w' := by
  cases w with
  | nil => simp [NumberState.Accepts, done]
  | cons c w =>
      simp only [List.cons.injEq, existsAndEq, NumberState.Accepts, next, AcceptsWhole, true_and]
      by_cases hzero : c = '0'
      · simp [hzero]
      · by_cases hdigit : c.isDigit = true
        · simp [hzero, hdigit]
        · simp [hzero, hdigit]

/-- The state machine accepts exactly the texts of numerals. -/
theorem accepts_iff_numeral {c : Char} {w : List Char} :
    (∃ state, firstState c = some state ∧ state.Accepts w) ↔ ∃ n : Numeral, n.text = c :: w := by
  by_cases hc : c = '-'
  · subst hc
    have hfirst : firstState '-' = some .minus := rfl
    rw [hfirst]
    simp only [Option.some.injEq, exists_eq_left', accepts_minus]
    refine ⟨?_, ?_⟩
    · rintro ⟨d, w', rfl, hw⟩
      exact exists_numeral hw true
    · rintro ⟨n, hn⟩
      obtain ⟨d, w', htext, hw⟩ := exists_acceptsWhole n
      rw [Numeral.text, htext] at hn
      rcases hneg : n.negative with - | -
      · -- a whole part starts with a digit
        rw [hneg] at hn
        obtain ⟨rfl, -⟩ := List.cons.inj hn
        rcases hw with ⟨h, -⟩ | ⟨-, h, -⟩
        · cases h
        · cases h
      · rw [hneg] at hn
        exact ⟨d, w', (List.cons.inj hn).2.symm, hw⟩
  · rw [acceptsWhole_iff hc]
    refine ⟨fun hw => exists_numeral hw false, ?_⟩
    rintro ⟨n, hn⟩
    obtain ⟨d, w', htext, hw⟩ := exists_acceptsWhole n
    rw [Numeral.text, htext] at hn
    rcases hneg : n.negative with - | -
    · rw [hneg] at hn
      obtain ⟨rfl, rfl⟩ := List.cons.inj hn
      exact hw
    · rw [hneg] at hn
      exact absurd (List.cons.inj hn).1.symm hc

end Language

/-! ### The functions of C -/

/-- `cs` does not start with a digit. -/
def NoDigit (cs : List Char) : Prop :=
  ∀ c cs', cs = c :: cs' → c.isDigit = false

theorem takeWhile_digits {ds cs : List Char} (hds : ∀ c ∈ ds, c.isDigit = true) (hcs : NoDigit cs) :
    (ds ++ cs).takeWhile Char.isDigit = ds := by
  rw [List.takeWhile_append_of_pos hds]
  cases cs with
  | nil => simp
  | cons c cs => simp [hcs c cs rfl]

theorem dropWhile_digits {ds cs : List Char} (hds : ∀ c ∈ ds, c.isDigit = true) (hcs : NoDigit cs) :
    (ds ++ cs).dropWhile Char.isDigit = cs := by
  rw [List.dropWhile_append_of_pos hds]
  cases cs with
  | nil => simp
  | cons c cs => simp [hcs c cs rfl]

theorem isSpace_of_isDigit {c : Char} (h : c.isDigit = true) : Strtod.isSpace c = false := by
  have hzero : '0'.toNat = 48 := rfl
  have hlow := (Char.isDigit_iff_toNat.mp h).1
  simp only [Strtod.isSpace, ne_of_isDigit h (show ' '.isDigit = false by decide), decide_false,
    Bool.false_or, Bool.and_eq_false_iff, decide_eq_false_iff_not]
  omega

theorem noDigit_exponentText (e : Option Exponent) : NoDigit (exponentText e) := by
  intro c cs' h
  rcases e with - | e
  · cases h
  · obtain ⟨rfl, -⟩ := List.cons.inj h
    rcases e.letter_eq with he | he <;> rw [he] <;> decide

theorem noDigit_tail (fraction : List Char) (e : Option Exponent) :
    NoDigit (fractionText fraction ++ exponentText e) := by
  cases fraction with
  | nil => exact noDigit_exponentText e
  | cons d ds =>
      intro c cs' h
      obtain ⟨rfl, -⟩ := List.cons.inj h
      rfl

/-- The sign of an exponent is read off, whether it is there or not. -/
theorem sign_exponent (e : Exponent) :
    Strtod.sign (Exponent.sign e.negative ++ e.digits) =
      (decide (e.negative = some true), e.digits) := by
  rcases h : e.negative with - | - | -
  · obtain ⟨d, ds, hds⟩ := List.exists_cons_of_ne_nil e.digits_ne
    have hd : d.isDigit = true := e.isDigit d (hds ▸ List.mem_cons_self)
    rw [hds]
    unfold Strtod.sign
    split
    next heq => exact absurd (List.cons.inj heq).1 (ne_of_isDigit hd (by decide))
    next heq => exact absurd (List.cons.inj heq).1 (ne_of_isDigit hd (by decide))
    next => simp [Exponent.sign]
  · rfl
  · rfl

theorem scanExponent_exponentText (e : Option Exponent) :
    Strtod.scanExponent (exponentText e) = exponentValue e := by
  rcases e with - | e
  · rfl
  · have htake : e.digits.takeWhile Char.isDigit = e.digits :=
      List.takeWhile_eq_self_iff.mpr e.isDigit
    show Strtod.scanExponent (e.letter :: _) = e.value
    rw [Strtod.scanExponent, if_pos e.letter_eq, sign_exponent]
    simp [htake, Exponent.value]

theorem afterExponent_exponentText (e : Option Exponent) :
    Strtod.afterExponent (exponentText e) = [] := by
  rcases e with - | e
  · rfl
  · have htake : e.digits.takeWhile Char.isDigit = e.digits :=
      List.takeWhile_eq_self_iff.mpr e.isDigit
    have hdrop : e.digits.dropWhile Char.isDigit = [] := List.dropWhile_eq_nil_iff.mpr e.isDigit
    show Strtod.afterExponent (e.letter :: _) = []
    rw [Strtod.afterExponent, if_pos e.letter_eq, sign_exponent, htake, if_neg e.digits_ne]
    exact hdrop

/-- An exponent part starts with no decimal point. -/
theorem exponentText_ne_point (e : Option Exponent) (cs : List Char) :
    exponentText e ≠ '.' :: cs := by
  rcases e with - | e
  · exact (List.cons_ne_nil _ _).symm
  · intro h
    obtain ⟨h, -⟩ := List.cons.inj h
    rcases e.letter_eq with he | he <;> rw [he] at h <;> cases h

namespace Numeral

theorem scanDecimal_unsignedText (n : Numeral) :
    Strtod.scanDecimal n.unsignedText = some n.magnitude := by
  have htail := noDigit_tail n.fraction n.exponent
  have hne : n.whole ++ n.fraction ≠ [] := by
    intro h
    exact n.whole_ne (List.append_eq_nil_iff.mp h).1
  rw [Strtod.scanDecimal, unsignedText, takeWhile_digits n.whole_isDigit htail,
    dropWhile_digits n.whole_isDigit htail]
  have hdigits := n.fraction_isDigit
  rcases hfraction : n.fraction with - | ⟨d, ds⟩
  · split
    next fraction tail h =>
      split at h
      next cs hcs => exact absurd hcs (exponentText_ne_point _ _)
      next =>
        obtain ⟨rfl, rfl⟩ := Prod.mk.inj h
        rw [hfraction] at hne
        rw [if_neg hne, magnitude, hfraction]
        simp [fractionText, scanExponent_exponentText]
  · rw [hfraction] at hdigits hne
    split
    next fraction tail h =>
      split at h
      next cs hcs =>
        obtain ⟨-, rfl⟩ := List.cons.inj hcs
        have hexponent := noDigit_exponentText n.exponent
        rw [List.append_eq, takeWhile_digits hdigits hexponent,
          dropWhile_digits hdigits hexponent] at h
        obtain ⟨rfl, rfl⟩ := Prod.mk.inj h
        rw [if_neg hne, magnitude, hfraction, scanExponent_exponentText]
      next hcs => exact absurd rfl (hcs _)

theorem afterDecimal_unsignedText (n : Numeral) : Strtod.afterDecimal n.unsignedText = [] := by
  have hexponent := noDigit_exponentText n.exponent
  rw [Strtod.afterDecimal, unsignedText,
    dropWhile_digits n.whole_isDigit (noDigit_tail n.fraction n.exponent)]
  have hdigits := n.fraction_isDigit
  rcases hfraction : n.fraction with - | ⟨d, ds⟩
  · split
    next cs hcs => exact absurd hcs (exponentText_ne_point _ _)
    next => exact afterExponent_exponentText n.exponent
  · rw [hfraction] at hdigits
    split
    next cs hcs =>
      obtain ⟨-, rfl⟩ := List.cons.inj hcs
      rw [List.append_eq, dropWhile_digits hdigits hexponent]
      exact afterExponent_exponentText n.exponent
    next hcs => exact absurd rfl (hcs _)

/-- A number starts with a digit, but for its sign. -/
theorem exists_digit_cons (n : Numeral) :
    ∃ d cs, n.unsignedText = d :: cs ∧ d.isDigit = true := by
  obtain ⟨d, ds, hwhole⟩ := List.exists_cons_of_ne_nil n.whole_ne
  refine ⟨d, _, by rw [unsignedText, hwhole, List.cons_append], ?_⟩
  exact n.whole_isDigit d (hwhole ▸ List.mem_cons_self)

/-- The sign of a number is read off, whether it is there or not. -/
theorem sign_text (n : Numeral) :
    Strtod.sign (n.text.dropWhile Strtod.isSpace) = (n.negative, n.unsignedText) := by
  rw [text]
  rcases n.negative with - | -
  · obtain ⟨d, cs, hcs, hd⟩ := n.exists_digit_cons
    rw [hcs]
    exact Strtod.sign_dropWhile_isSpace hd cs
  · rfl

/-- `strtod` reads a number to its end. -/
theorem strtod_text (n : Numeral) : Strtod.strtod n.text = (n.double, []) := by
  rw [Strtod.strtod, sign_text]
  dsimp only
  rw [scanDecimal_unsignedText, afterDecimal_unsignedText]
  rfl

theorem convertFloat_text (n : Numeral) :
    convertFloat n.text = .ok (.value_float n.double) := by
  rw [convertFloat, strtod_text]
  rfl

/-- An integer is its whole part. -/
theorem unsignedText_of_isInteger {n : Numeral} (h : n.isInteger = true) :
    n.unsignedText = n.whole := by
  obtain ⟨hfraction, hexponent⟩ := Bool.and_eq_true_iff.mp h
  rw [unsignedText, List.isEmpty_iff.mp hfraction, Option.isNone_iff_eq_none.mp hexponent]
  exact List.append_nil _

theorem takeWhile_whole (n : Numeral) : n.whole.takeWhile Char.isDigit = n.whole :=
  List.takeWhile_eq_self_iff.mpr n.whole_isDigit

theorem dropWhile_whole (n : Numeral) : n.whole.dropWhile Char.isDigit = [] :=
  List.dropWhile_eq_nil_iff.mpr n.whole_isDigit

theorem strtoull_text {n : Numeral} (hinteger : n.isInteger = true) (hneg : n.negative = false) :
    Strtod.strtoull n.text =
      (if Nat.ofDigitChars 10 n.whole 0 < 2 ^ 64 then some (Nat.ofDigitChars 10 n.whole 0)
        else none, []) := by
  have htext : n.text.dropWhile Strtod.isSpace = n.whole := by
    obtain ⟨d, cs, hcs, hd⟩ := n.exists_digit_cons
    rw [text, hneg, ← unsignedText_of_isInteger hinteger, hcs]
    exact List.dropWhile_cons_of_neg (by simp [isSpace_of_isDigit hd])
  simp only [Strtod.strtoull, htext, n.takeWhile_whole, n.dropWhile_whole, if_neg n.whole_ne]

theorem strtoll_text {n : Numeral} (hinteger : n.isInteger = true) (hneg : n.negative = true) :
    Strtod.strtoll n.text =
      (if Nat.ofDigitChars 10 n.whole 0 ≤ 2 ^ 63 then some (-(Nat.ofDigitChars 10 n.whole 0 : ℤ))
        else none, []) := by
  have hrange : (-2 ^ 63 ≤ -(Nat.ofDigitChars 10 n.whole 0 : ℤ) ∧
      -(Nat.ofDigitChars 10 n.whole 0 : ℤ) < 2 ^ 63) ↔ Nat.ofDigitChars 10 n.whole 0 ≤ 2 ^ 63 := by
    omega
  simp only [Strtod.strtoll, sign_text, hneg, unsignedText_of_isInteger hinteger, if_true, hrange,
    n.takeWhile_whole, n.dropWhile_whole, if_neg n.whole_ne]

/-! ### The token of a number -/

theorem any_isFloatChar_of_isDigit {cs : List Char} (h : ∀ c ∈ cs, c.isDigit = true) :
    cs.any isFloatChar = false := by
  rw [List.any_eq_false]
  intro c hc
  simp [isFloatChar_of_isDigit (h c hc)]

/-- The state machine calls a number a float where it is not an integer. -/
theorem any_isFloatChar_text (n : Numeral) : n.text.any isFloatChar = !n.isInteger := by
  have hminus : (minusText n.negative).any isFloatChar = false := by
    rcases n.negative with - | - <;> rfl
  rw [text, unsignedText, List.any_append, List.any_append, List.any_append, hminus,
    any_isFloatChar_of_isDigit n.whole_isDigit, isInteger]
  rcases n.fraction with - | ⟨d, ds⟩
  · rcases n.exponent with - | e
    · rfl
    · have hletter : isFloatChar e.letter = true := by
        rcases e.letter_eq with he | he <;> rw [he] <;> rfl
      simp [fractionText, exponentText, Exponent.text, hletter]
  · have hpoint : isFloatChar '.' = true := rfl
    simp [fractionText, hpoint]

/-- The conversions read the whole text, as the lexer asserts, and give the
token of the number. -/
theorem convertNumber_text (n : Numeral) :
    convertNumber (typeOf (if n.negative then .value_integer else .value_unsigned) n.text) n.text =
      .ok n.token := by
  rw [typeOf, any_isFloatChar_text, token]
  by_cases hinteger : n.isInteger = true
  · simp only [hinteger, Bool.not_true, Bool.false_eq_true, if_false, true_and]
    rcases hneg : n.negative with - | -
    · simp only [Bool.false_eq_true, if_false, convertNumber, strtoull_text hinteger hneg]
      rw [json_assert_bind trivial]
      by_cases hfits : Nat.ofDigitChars 10 n.whole 0 < 2 ^ 64
      · rw [if_pos hfits, if_pos ⟨trivial, hfits⟩]
        rfl
      · rw [if_neg hfits, if_neg (fun h => hfits h.2), if_neg (fun h => h.1)]
        exact n.convertFloat_text
    · simp only [if_true, convertNumber, strtoll_text hinteger hneg]
      rw [json_assert_bind trivial]
      by_cases hfits : Nat.ofDigitChars 10 n.whole 0 ≤ 2 ^ 63
      · rw [if_pos hfits, if_neg (fun h => Bool.noConfusion h.1), if_pos ⟨trivial, hfits⟩]
        rfl
      · rw [if_neg hfits, if_neg (fun h => Bool.noConfusion h.1), if_neg (fun h => hfits h.2)]
        exact n.convertFloat_text
  · simp [hinteger, convertNumber, convertFloat_text]

end Numeral

/-- The first character of a number tells its sign. -/
theorem typeOf_first {n : Numeral} {c : Char} {w : List Char} {state : NumberState}
    (hn : n.text = c :: w) (hstate : firstState c = some state) :
    typeOf (state.assign .value_unsigned) w =
      typeOf (if n.negative then .value_integer else .value_unsigned) (c :: w) := by
  rw [Numeral.text] at hn
  obtain ⟨d, cs, hcs, hd⟩ := n.exists_digit_cons
  rcases hneg : n.negative with - | -
  · rw [hneg, hcs] at hn
    obtain ⟨rfl, rfl⟩ := List.cons.inj hn
    have hminus := ne_of_isDigit hd (show '-'.isDigit = false by decide)
    have hassign : state.assign .value_unsigned = .value_unsigned := by
      rw [firstState, if_neg hminus] at hstate
      split_ifs at hstate <;> obtain rfl := Option.some.inj hstate <;> rfl
    simp [typeOf, hassign, isFloatChar_of_isDigit hd]
  · rw [hneg] at hn
    obtain ⟨rfl, rfl⟩ := List.cons.inj hn
    obtain rfl := Option.some.inj hstate
    have hminus : isFloatChar '-' = false := rfl
    simp [typeOf, NumberState.assign, hminus]

/-- Where nothing that belongs to a number follows, a number is read to its
end. -/
theorem scan_number_text {n : Numeral} {c : Char} {w : List Char} (hn : n.text = c :: w)
    {rest : Bytes} (hrest : Ends rest) :
    scan_number c (Utf8.encode w ++ rest) = .ok (n.token, rest) := by
  obtain ⟨state, hstate, hw⟩ := accepts_iff_numeral.mpr ⟨n, hn⟩
  have htoken := n.convertNumber_text
  rw [hn] at htoken
  rw [scan_number, hstate]
  dsimp only
  rw [scan_number_from_of_accepts hw _ _ hrest, ok_bind]
  dsimp only
  rw [typeOf_first hn hstate, List.singleton_append, htoken]
  rfl

theorem scan_number_of_from {c : Char} {state : NumberState} {input rest : Bytes}
    {result : NumberType × List Char} (hstate : firstState c = some state)
    (h : scan_number_from state (state.assign .value_unsigned) [c] input = .ok (result, rest)) :
    ∃ (n : Numeral) (w : List Char), n.text = c :: w ∧ input = Utf8.encode w ++ rest ∧
      convertNumber result.1 result.2 = .ok n.token := by
  obtain ⟨w, hw, rfl, rfl⟩ := accepts_of_scan_number_from h
  obtain ⟨n, hn⟩ := accepts_iff_numeral.mp ⟨state, hstate, hw⟩
  refine ⟨n, w, hn, rfl, ?_⟩
  have htoken := n.convertNumber_text
  rw [hn] at htoken
  rw [List.singleton_append, typeOf_first hn hstate, htoken]

/-- What is read as a number is one. -/
theorem exists_numeral_of_scan_number {c : Char} {token : Token} {input rest : Bytes}
    (h : scan_number c input = .ok (token, rest)) :
    ∃ (n : Numeral) (w : List Char), n.text = c :: w ∧ input = Utf8.encode w ++ rest ∧
      token = n.token := by
  rcases hstate : firstState c with - | state
  · rw [scan_number, hstate] at h
    cases h
  · rw [scan_number, hstate] at h
    simp only [bind_eq_ok_iff, Prod.exists] at h
    obtain ⟨number_type, token_buffer, rest', hfrom, token', htoken, hreturn⟩ := h
    obtain ⟨rfl, rfl⟩ := Prod.mk.inj (Except.ok.inj hreturn)
    obtain ⟨n, w, hn, hinput, hconvert⟩ := scan_number_of_from hstate hfrom
    exact ⟨n, w, hn, hinput, Except.ok.inj (htoken.symm.trans hconvert)⟩

theorem holds_scan_number_from {state : NumberState} {number_type : NumberType}
    {token_buffer : List Char} {input : Bytes} :
    Holds (scan_number_from state number_type token_buffer input) := by
  induction input generalizing state number_type token_buffer with
  | nil =>
      rw [scan_number_from]
      split
      · exact holds_ok _
      · exact holds_parse_error
  | cons b input ih =>
      rw [scan_number_from]
      split
      · exact ih
      · split
        · exact holds_ok _
        · exact holds_parse_error

/-- The lexer only calls `scan_number` at a character a number starts with. -/
theorem holds_scan_number {c : Char} (hc : c = '-' ∨ c.isDigit = true) {input : Bytes} :
    Holds (scan_number c input) := by
  rcases hstate : firstState c with - | state
  · rw [firstState] at hstate
    split_ifs at hstate
    simp_all
  · rw [scan_number, hstate]
    refine holds_bind holds_scan_number_from ?_
    rintro ⟨result, rest⟩ hfrom
    obtain ⟨n, w, -, -, hconvert⟩ := scan_number_of_from hstate hfrom
    dsimp only
    rw [hconvert]
    exact holds_ok _

end Lexer

end SyncServiceUi
