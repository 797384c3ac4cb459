/-
SyncServiceUi/JsonRoundTrip.lean

Writing and reading back (`serializer::dump`, `parser::parse` in
`src/dependencies/json/json.hpp`).

Everything the parser returns is well formed: names in order and without
duplicates, integers in the range of the two integer types
(`wellFormed_of_parse`).  And a well-formed value is read back from what
`dump` writes for it, with or without indentation
(`parse_dump_of_wellFormed`).  The text of a floating-point number is still a
parameter here; of the numbers in the value it is asked that they are read
back from their texts (`SpellsFloat`).
-/
import Mathlib.Data.String.Basic
import SyncServiceUi.JsonSafety
import SyncServiceUi.JsonSerializer
import SyncServiceUi.JsonText

namespace SyncServiceUi

open Binary64 Lexer

namespace Json

/-! ### Well-formed values -/

mutual

/-- What the types of the library and its ordered maps guarantee. -/
def WellFormed : Json → Prop
  | null => True
  | boolean _ => True
  | number_integer n => -2 ^ 63 ≤ n ∧ n < 2 ^ 64
  | number_float _ => True
  | string _ => True
  | array items => WellFormedItems items
  | object members => (members.map Prod.fst).Pairwise (· < ·) ∧ WellFormedMembers members

def WellFormedItems : List Json → Prop
  | [] => True
  | j :: js => WellFormed j ∧ WellFormedItems js

def WellFormedMembers : List (String × Json) → Prop
  | [] => True
  | (_, j) :: ms => WellFormed j ∧ WellFormedMembers ms

end

theorem wellFormedMembers_insertSorted {key : String} {value : Json} {ms : List (String × Json)}
    (hvalue : value.WellFormed) (hms : WellFormedMembers ms) :
    WellFormedMembers (insertSorted key value ms) := by
  induction ms with
  | nil => exact ⟨hvalue, hms⟩
  | cons m ms ih =>
      obtain ⟨k, v⟩ := m
      rw [insertSorted]
      split
      · exact ⟨hvalue, hms⟩
      · exact ⟨hms.1, ih hms.2⟩

theorem wellFormedMembers_overwrite {key : String} {value : Json} {ms : List (String × Json)}
    (hvalue : value.WellFormed) (hms : WellFormedMembers ms) :
    WellFormedMembers (overwrite key value ms) := by
  induction ms with
  | nil => exact hms
  | cons m ms ih =>
      obtain ⟨k, v⟩ := m
      rw [overwrite]
      split
      · exact ⟨hvalue, hms.2⟩
      · exact ⟨hms.1, ih hms.2⟩

theorem keys_overwrite (key : String) (value : Json) (ms : List (String × Json)) :
    (overwrite key value ms).map Prod.fst = ms.map Prod.fst := by
  induction ms with
  | nil => rfl
  | cons m ms ih =>
      obtain ⟨k, v⟩ := m
      rw [overwrite]
      split
      · rfl
      · rw [List.map_cons, List.map_cons, ih]

theorem mem_keys_insertSorted {key k : String} {value : Json} {ms : List (String × Json)} :
    k ∈ (insertSorted key value ms).map Prod.fst ↔ k = key ∨ k ∈ ms.map Prod.fst := by
  induction ms with
  | nil => simp [insertSorted]
  | cons m ms ih =>
      obtain ⟨k', v⟩ := m
      rw [insertSorted]
      split
      · simp
      · rw [List.map_cons, List.mem_cons, List.map_cons, List.mem_cons, ih, or_left_comm]

theorem lookup_eq_none_iff {key : String} {ms : List (String × Json)} :
    ms.lookup key = none ↔ key ∉ ms.map Prod.fst := by
  induction ms with
  | nil => simp
  | cons m ms ih =>
      obtain ⟨k, v⟩ := m
      rw [lookup_cons]
      by_cases hk : key = k
      · simp [hk]
      · simp [hk, ih]

theorem sorted_insertSorted {key : String} {value : Json} {ms : List (String × Json)}
    (hms : (ms.map Prod.fst).Pairwise (· < ·)) (hkey : ms.lookup key = none) :
    ((insertSorted key value ms).map Prod.fst).Pairwise (· < ·) := by
  induction ms with
  | nil => simp [insertSorted]
  | cons m ms ih =>
      obtain ⟨k, v⟩ := m
      rw [List.map_cons, List.pairwise_cons] at hms
      obtain ⟨hall, hms'⟩ := hms
      rw [lookup_eq_none_iff, List.map_cons, List.mem_cons, not_or] at hkey
      rw [insertSorted]
      split
      next hlt =>
        rw [List.map_cons, List.map_cons, List.pairwise_cons, List.pairwise_cons]
        refine ⟨?_, hall, hms'⟩
        intro k' hk'
        rcases List.mem_cons.mp hk' with rfl | hk'
        · exact hlt
        · exact hlt.trans (hall k' hk')
      next hge =>
        rw [List.map_cons, List.pairwise_cons]
        refine ⟨?_, ih hms' (lookup_eq_none_iff.mpr hkey.2)⟩
        intro k' hk'
        rcases mem_keys_insertSorted.mp hk' with rfl | hk'
        · exact lt_of_le_of_ne (not_lt.mp hge) (Ne.symm hkey.1)
        · exact hall k' hk'

/-- An assignment keeps a well-formed object well formed. -/
theorem wellFormed_put {key : String} {value : Json} {ms : List (String × Json)}
    (hvalue : value.WellFormed) (hms : (object ms).WellFormed) :
    (object (put key value ms)).WellFormed := by
  obtain ⟨hsorted, hall⟩ := hms
  have hemplace : (object (emplace key ms)).WellFormed := by
    unfold emplace
    split
    · exact ⟨hsorted, hall⟩
    next hnone => exact ⟨sorted_insertSorted hsorted hnone, wellFormedMembers_insertSorted trivial hall⟩
  refine ⟨?_, wellFormedMembers_overwrite hvalue hemplace.2⟩
  rw [put, keys_overwrite]
  exact hemplace.1

theorem wellFormed_empty : (object []).WellFormed :=
  ⟨List.Pairwise.nil, trivial⟩

end Json

/-! ### What the parser returns -/

namespace Parser

/-- The tokens are written somehow. -/
def Spelled (ts : List Token) : Prop :=
  ∀ t ∈ ts, ∃ w, Spells t w

/-- The integers a number token can hold. -/
theorem wellFormed_numeral {n : Numeral} {s : Scalar} (h : s.token = n.token) :
    s.value.WellFormed := by
  unfold Numeral.token at h
  dsimp only at h
  split_ifs at h with hunsigned hinteger
  · cases s with
    | unsigned m =>
        obtain rfl := Token.value_unsigned.inj h
        refine ⟨by omega, ?_⟩
        exact_mod_cast hunsigned.2.2
    | literal_boolean b => cases b <;> cases h
    | _ => cases h
  · cases s with
    | integer m =>
        obtain rfl := Token.value_integer.inj h
        have hle : (Nat.ofDigitChars 10 n.whole 0 : ℤ) ≤ 2 ^ 63 := by exact_mod_cast hinteger.2.2
        show -2 ^ 63 ≤ -(Nat.ofDigitChars 10 n.whole 0 : ℤ) ∧
          -(Nat.ofDigitChars 10 n.whole 0 : ℤ) < 2 ^ 64
        omega
    | literal_boolean b => cases b <;> cases h
    | _ => cases h
  · cases s with
    | float x => trivial
    | literal_boolean b => cases b <;> cases h
    | _ => cases h

theorem wellFormed_scalar {s : Scalar} (h : ∃ w, Spells s.token w) : s.value.WellFormed := by
  obtain ⟨w, hw⟩ := h
  cases s with
  | literal_null => trivial
  | literal_boolean b => trivial
  | string cs => trivial
  | unsigned m =>
      generalize ht : (Scalar.unsigned m).token = t at hw
      cases hw with
      | number n => exact wellFormed_numeral ht
      | _ => cases ht
  | integer m =>
      generalize ht : (Scalar.integer m).token = t at hw
      cases hw with
      | number n => exact wellFormed_numeral ht
      | _ => cases ht
  | float x =>
      generalize ht : (Scalar.float x).token = t at hw
      cases hw with
      | number n => exact wellFormed_numeral ht
      | _ => cases ht

theorem Spelled.left {ts ts' : List Token} (h : Spelled (ts ++ ts')) : Spelled ts := by
  intro t ht
  exact h t (List.mem_append_left _ ht)

theorem Spelled.right {ts ts' : List Token} (h : Spelled (ts ++ ts')) : Spelled ts' := by
  intro t ht
  exact h t (List.mem_append_right _ ht)

theorem Spelled.tail {t : Token} {ts : List Token} (h : Spelled (t :: ts)) : Spelled ts := by
  intro t' ht
  exact h t' (List.mem_cons_of_mem _ ht)

mutual

theorem wellFormed_value : ∀ t : Tree, Spelled t.tokens → t.value.WellFormed
  | .scalar s, h => by
      rw [Tree.value]
      rw [Tree.tokens] at h
      exact wellFormed_scalar (h _ List.mem_cons_self)
  | .array [], _ => trivial
  | .array (t :: ts), h => by
      rw [Tree.value, Tree.valueItems]
      rw [Tree.tokens] at h
      exact ⟨wellFormed_value t h.tail.left, wellFormed_valueItems ts h.tail.right.left⟩
  | .object [], _ => Json.wellFormed_empty
  | .object ((name, t) :: ms), h => by
      rw [Tree.value, Tree.valueMembers]
      rw [Tree.tokens] at h
      exact wellFormed_valueMembers ms h.tail.right.right.left
        (Json.wellFormed_put (wellFormed_value t h.tail.right.left) Json.wellFormed_empty)

theorem wellFormed_valueItems : ∀ ts : List Tree, Spelled (Tree.moreItems ts) →
    Json.WellFormedItems (Tree.valueItems ts)
  | [], _ => trivial
  | t :: ts, h => by
      rw [Tree.moreItems] at h
      rw [Tree.valueItems]
      exact ⟨wellFormed_value t h.tail.left, wellFormed_valueItems ts h.tail.right⟩

theorem wellFormed_valueMembers : ∀ (ms : List (List Char × Tree)) {members : List (String × Json)},
    Spelled (Tree.moreMembers ms) → (Json.object members).WellFormed →
    (Json.object (Tree.valueMembers members ms)).WellFormed
  | [], members, _, hmembers => by
      rw [Tree.valueMembers]
      exact hmembers
  | (name, t) :: ms, members, h, hmembers => by
      rw [Tree.moreMembers] at h
      rw [Tree.valueMembers]
      exact wellFormed_valueMembers ms h.tail.right.right
        (Json.wellFormed_put (wellFormed_value t h.tail.right.left) hmembers)

end

theorem spelled_of_reads {b : Bytes} {ts : List Token} (h : Reads b ts) : Spelled ts := by
  induction h with
  | nil =>
      intro t ht
      cases ht
  | cons _ hw _ ih =>
      intro t ht
      rcases List.mem_cons.mp ht with rfl | ht
      · exact ⟨_, hw⟩
      · exact ih t ht

/-- What the parser returns is well formed. -/
theorem wellFormed_of_parse {b : Bytes} {j : Json} (h : parse b = .ok j) : j.WellFormed := by
  obtain ⟨t, ⟨b', -, hreads⟩, rfl⟩ := parse_eq_ok_iff.mp h
  exact wellFormed_value t (spelled_of_reads hreads)

end Parser

namespace Json

open SyncServiceUi.Parser

/-! ### Strings are written as strings -/

theorem hexValue_hexDigit {n : ℕ} (hn : n < 16) : hexValue (hexDigit n) = some n := by
  have hall : ∀ n : Fin 16, hexValue (hexDigit n) = some n.val := by decide
  exact hall ⟨n, hn⟩

theorem toNat_hexDigit {n : ℕ} (hn : n < 16) : (hexDigit n).toNat < 0x80 := by
  have hall : ∀ n : Fin 16, (hexDigit n).toNat < 0x80 := by decide
  exact hall ⟨n, hn⟩

theorem stringChar_escapeChar (c : Char) : StringChar c (Utf8.encode (escapeChar c)) := by
  have hsimple : ∀ {letter : Char}, letter.toNat < 0x80 → (letter, c) ∈ escapes →
      StringChar c (Utf8.encode ['\\', letter]) := by
    intro letter hletter hmem
    have hbytes : Utf8.encode ['\\', letter] = [0x5C, UInt8.ofNat letter.toNat] := by
      rw [Utf8.encode_cons, Utf8.encode_cons, Utf8.encodeChar_ascii hletter]
      rfl
    rw [hbytes]
    exact .simple (by rwa [chr_ofNat hletter])
  unfold escapeChar
  split_ifs with h₁ h₂ h₃ h₄ h₅ h₆ h₇ h₈
  any_goals
    subst_vars
    exact hsimple (by decide) (by decide)
  · -- a control character without a letter of its own
    have hhigh : c.toNat / 16 < 16 := by omega
    have hlow : c.toNat % 16 < 16 := by omega
    have hbytes : Utf8.encode ['\\', 'u', '0', '0', hexDigit (c.toNat / 16),
        hexDigit (c.toNat % 16)] = 0x5C :: 0x75 :: [0x30, 0x30,
          UInt8.ofNat (hexDigit (c.toNat / 16)).toNat,
          UInt8.ofNat (hexDigit (c.toNat % 16)).toNat] := by
      simp only [Utf8.encode_cons, Utf8.encodeChar_ascii (toNat_hexDigit hhigh),
        Utf8.encodeChar_ascii (toNat_hexDigit hlow)]
      rfl
    have hhex : Hex4 (0 * 4096 + 0 * 256 + c.toNat / 16 * 16 + c.toNat % 16) [0x30, 0x30,
        UInt8.ofNat (hexDigit (c.toNat / 16)).toNat, UInt8.ofNat (hexDigit (c.toNat % 16)).toNat] := by
      refine .mk (by decide) (by decide) ?_ ?_
      · rw [chr_ofNat (toNat_hexDigit hhigh), hexValue_hexDigit hhigh]
      · rw [chr_ofNat (toNat_hexDigit hlow), hexValue_hexDigit hlow]
    have hvalue : 0 * 4096 + 0 * 256 + c.toNat / 16 * 16 + c.toNat % 16 = c.toNat := by omega
    rw [hvalue] at hhex
    rw [hbytes]
    exact .unicode (.single hhex)
  · rw [Utf8.encode_cons, Utf8.encode_nil, List.append_nil]
    exact .plain (by omega) h₆ h₇

theorem stringBody_escape (cs : List Char) :
    StringBody cs (Utf8.encode (cs.flatMap escapeChar)) := by
  induction cs with
  | nil => exact .nil
  | cons c cs ih =>
      rw [List.flatMap_cons, Utf8.encode_append]
      exact .cons (stringChar_escapeChar c) ih

theorem spells_dump_string (s : String) :
    Spells (.value_string (Utf8.encode s.toList)) (utf8 (dump_string s)) := by
  rw [utf8_dump_string]
  exact .string (stringBody_escape s.toList)

/-! ### Integers are written as numbers -/

/-- A number that is not zero does not start with a zero. -/
theorem toDigits_ne_zero_cons {n : ℕ} (hn : 0 < n) (ds : List Char) :
    Nat.toDigits 10 n ≠ '0' :: ds := by
  induction n using Nat.strong_induction_on generalizing ds with
  | _ n ih =>
      by_cases hlt : n < 10
      · rw [Nat.toDigits_of_lt_base hlt]
        intro h
        have hall : ∀ n : Fin 10, n.val ≠ 0 → Nat.digitChar n ≠ '0' := by decide
        exact hall ⟨n, hlt⟩ (by simp; omega) (List.cons.inj h).1
      · rw [Nat.toDigits_of_base_le (by decide) (by omega)]
        obtain ⟨d, ds', hds'⟩ := List.exists_cons_of_ne_nil (@Nat.toDigits_ne_nil (n / 10) 10)
        rw [hds', List.cons_append]
        intro h
        obtain ⟨rfl, -⟩ := List.cons.inj h
        exact ih (n / 10) (by omega) (by omega) ds' hds'

theorem isDigit_toDigits (n : ℕ) : ∀ c ∈ Nat.toDigits 10 n, c.isDigit = true := by
  intro c hc
  exact Nat.isDigit_of_mem_toDigits (by decide) (by decide) hc

/-- An integer as a number. -/
def numeral (n : ℤ) : Numeral where
  negative := decide (n < 0)
  whole := Nat.toDigits 10 n.natAbs
  fraction := []
  exponent := none
  whole_ne := Nat.toDigits_ne_nil
  whole_isDigit := isDigit_toDigits n.natAbs
  whole_zero := by
    intro ds h
    rcases Nat.eq_zero_or_pos n.natAbs with hzero | hpos
    · rw [hzero] at h
      exact (List.cons.inj (h.symm.trans (Nat.toDigits_zero 10))).2
    · exact absurd h (toDigits_ne_zero_cons hpos ds)
  fraction_isDigit := by simp

/-- The scalar an integer is read back as. -/
def integerScalar (n : ℤ) : Scalar :=
  if n < 0 then .integer n else .unsigned n.natAbs

theorem value_integerScalar (n : ℤ) : (integerScalar n).value = number_integer n := by
  unfold integerScalar
  split
  · rfl
  · show number_integer (n.natAbs : ℤ) = number_integer n
    congr 1
    omega

/-- In the range of the two integer types a number is read back as itself. -/
theorem token_numeral {n : ℤ} (h : -2 ^ 63 ≤ n ∧ n < 2 ^ 64) :
    (numeral n).token = (integerScalar n).token := by
  have hwhole : Nat.ofDigitChars 10 (numeral n).whole 0 = n.natAbs :=
    Nat.ofDigitChars_toDigits (by decide) (by decide)
  have hinteger : (numeral n).isInteger = true := rfl
  unfold Numeral.token integerScalar
  simp only [hwhole, hinteger, true_and]
  by_cases hneg : n < 0
  · have hnegative : (numeral n).negative = true := decide_eq_true hneg
    have hvalue : -(n.natAbs : ℤ) = n := by omega
    rw [if_neg (by simp [hnegative]), if_pos ⟨hnegative, by omega⟩, if_pos hneg, hvalue]
    rfl
  · have hnegative : (numeral n).negative = false := decide_eq_false hneg
    rw [if_pos ⟨hnegative, by omega⟩, if_neg hneg]
    rfl

theorem text_numeral (n : ℤ) : (numeral n).text = (dump_integer n).toList := by
  have hunsigned : (numeral n).unsignedText = Nat.toDigits 10 n.natAbs := List.append_nil _
  rw [Numeral.text, hunsigned, dump_integer]
  by_cases hneg : n < 0
  · have hnegative : (numeral n).negative = true := decide_eq_true hneg
    rw [hnegative, if_pos hneg, String.toList_append, Nat.toList_repr]
    rfl
  · have hnegative : (numeral n).negative = false := decide_eq_false hneg
    rw [hnegative, if_neg hneg, Nat.toList_repr]
    rfl

theorem spells_dump_integer {n : ℤ} (h : -2 ^ 63 ≤ n ∧ n < 2 ^ 64) :
    Spells (integerScalar n).token (utf8 (dump_integer n)) := by
  rw [← token_numeral h]
  show Spells _ (Utf8.encode (dump_integer n).toList)
  rw [← text_numeral]
  exact .number _

/-! ### Floating-point numbers -/

mutual

/-- The floating-point numbers in a value. -/
def floats : Json → List Double
  | number_float d => [d]
  | array items => floatsItems items
  | object members => floatsMembers members
  | _ => []

def floatsItems : List Json → List Double
  | [] => []
  | j :: js => floats j ++ floatsItems js

def floatsMembers : List (String × Json) → List Double
  | [] => []
  | (_, j) :: ms => floats j ++ floatsMembers ms

end

mutual

theorem floats_eq_nil : ∀ j : Json, j.floatFree = true → j.floats = []
  | null, _ => rfl
  | boolean _, _ => rfl
  | number_integer _, _ => rfl
  | number_float _, h => by cases h
  | string _, _ => rfl
  | array items, h => floatsItems_eq_nil items h
  | object members, h => floatsMembers_eq_nil members h

theorem floatsItems_eq_nil : ∀ js : List Json, floatFreeItems js = true → floatsItems js = []
  | [], _ => rfl
  | j :: js, h => by
      obtain ⟨hj, hjs⟩ := Bool.and_eq_true_iff.mp h
      rw [floatsItems, floats_eq_nil j hj, floatsItems_eq_nil js hjs]
      rfl

theorem floatsMembers_eq_nil : ∀ ms : List (String × Json), floatFreeMembers ms = true →
    floatsMembers ms = []
  | [], _ => rfl
  | (_, j) :: ms, h => by
      obtain ⟨hj, hms⟩ := Bool.and_eq_true_iff.mp h
      rw [floatsMembers, floats_eq_nil j hj, floatsMembers_eq_nil ms hms]
      rfl

end

/-- The text the library writes for the number is a number that is read back
as this one. -/
def SpellsFloat (lib : Nlohmann) (d : Double) : Prop :=
  Spells (.value_float (some d)) (utf8 (lib.dump_float d))

/-! ### Values are written as trees -/

mutual

/-- The tree `dump` writes. -/
def tree : Json → Tree
  | null => .scalar .literal_null
  | boolean b => .scalar (.literal_boolean b)
  | number_integer n => .scalar (integerScalar n)
  | number_float d => .scalar (.float d)
  | string s => .scalar (.string s.toList)
  | array items => .array (treeItems items)
  | object members => .object (treeMembers members)

def treeItems : List Json → List Tree
  | [] => []
  | j :: js => j.tree :: treeItems js

def treeMembers : List (String × Json) → List (List Char × Tree)
  | [] => []
  | (k, j) :: ms => (k.toList, j.tree) :: treeMembers ms

end

theorem reads_whitespace {ws b : Bytes} {ts : List Token} (hws : Whitespace ws) (h : Reads b ts) :
    Reads (ws ++ b) ts := by
  cases h with
  | nil hb =>
      obtain ⟨ws', tail, hws', rfl, htail⟩ := hb
      refine .nil ⟨ws ++ ws', tail, ?_, (List.append_assoc _ _ _).symm, htail⟩
      intro c hc
      rcases List.mem_append.mp hc with hc | hc
      · exact hws c hc
      · exact hws' c hc
  | @cons ws' w rest t ts hws' hw hrest =>
      rw [← List.append_assoc]
      refine .cons ?_ hw hrest
      intro c hc
      rcases List.mem_append.mp hc with hc | hc
      · exact hws c hc
      · exact hws' c hc

theorem reads_token {w b : Bytes} {t : Token} {ts : List Token} (hw : Spells t w)
    (h : Reads b ts) : Reads (w ++ b) (t :: ts) :=
  @Reads.cons [] w b t ts (by simp [Whitespace]) hw h

section Layout

variable {lib : Nlohmann} {pretty_print : Bool} {indent_step : ℕ}

theorem whitespace_lineBreak (pretty_print : Bool) :
    Whitespace (utf8 (Serializer.lineBreak pretty_print)) := by
  cases pretty_print
  · simp [Serializer.lineBreak, Whitespace, utf8]
  · intro b hb
    obtain rfl : b = 0x0A := List.mem_singleton.mp hb
    rfl

theorem whitespace_indentation (pretty_print : Bool) (indent : ℕ) :
    Whitespace (utf8 (Serializer.indentation pretty_print indent)) := by
  cases pretty_print
  · simp [Serializer.indentation, Whitespace, utf8]
  · intro b hb
    obtain ⟨c, hc, hbc⟩ := List.mem_flatMap.mp hb
    have hlist : (Serializer.indentation true indent).toList = List.replicate indent ' ' := by
      simp [Serializer.indentation]
    rw [hlist] at hc
    obtain rfl := List.eq_of_mem_replicate hc
    obtain rfl : b = 0x20 := List.mem_singleton.mp hbc
    rfl

theorem reads_colon (pretty_print : Bool) {b : Bytes} {ts : List Token} (h : Reads b ts) :
    Reads (utf8 (Serializer.colon pretty_print) ++ b) (.name_separator :: ts) := by
  cases pretty_print
  · exact reads_token .name_separator h
  · have hspace : Whitespace (utf8 " ") := by
      intro b hb
      obtain rfl : b = 0x20 := List.mem_singleton.mp hb
      rfl
    exact @reads_token (utf8 ":") _ _ _ .name_separator (reads_whitespace hspace h)

/-- A line break and the indentation behind it. -/
theorem reads_newLine (pretty_print : Bool) (indent : ℕ) {b : Bytes} {ts : List Token}
    (h : Reads b ts) :
    Reads (utf8 (Serializer.lineBreak pretty_print) ++
      (utf8 (Serializer.indentation pretty_print indent) ++ b)) ts :=
  reads_whitespace (whitespace_lineBreak _) (reads_whitespace (whitespace_indentation _ _) h)

/-- The tokens of all items. -/
def itemsTokens : List Tree → List Token
  | [] => []
  | t :: ts => t.tokens ++ Tree.moreItems ts

/-- The tokens of all members. -/
def membersTokens : List (List Char × Tree) → List Token
  | [] => []
  | (name, t) :: ms => keyTokens name ++ (t.tokens ++ Tree.moreMembers ms)

mutual

/-- What `dump` writes are the tokens of the tree. -/
theorem reads_dump : ∀ (j : Json) (indent : ℕ) {b : Bytes} {ts : List Token},
    (∀ d ∈ j.floats, SpellsFloat lib d) → j.WellFormed → Reads b ts →
    Reads (utf8 (Serializer.dump lib pretty_print indent_step j indent) ++ b) (j.tree.tokens ++ ts)
  | null, _, b, ts, _, _, h => reads_token .literal_null h
  | boolean true, _, b, ts, _, _, h => reads_token .literal_true h
  | boolean false, _, b, ts, _, _, h => reads_token .literal_false h
  | number_integer n, _, b, ts, _, hn, h => by
      rw [tree, Tree.tokens]
      exact reads_token (spells_dump_integer hn) h
  | number_float d, _, b, ts, hfloats, _, h => by
      rw [tree, Tree.tokens]
      exact reads_token (hfloats d List.mem_cons_self) h
  | string s, _, b, ts, _, _, h => by
      rw [tree, Tree.tokens]
      exact reads_token (spells_dump_string s) h
  | array [], i, b, ts, _, _, h => by
      have htext : Serializer.dump lib pretty_print indent_step (array []) i = "[" ++ "]" := by
        rw [Serializer.dump]
        rfl
      rw [tree, treeItems, Tree.tokens, htext, utf8_append, List.append_assoc]
      exact reads_token .begin_array (reads_token .end_array h)
  | array (j :: js), indent, b, ts, hfloats, hj, h => by
      have htokens : (array (j :: js)).tree.tokens ++ ts =
          .begin_array :: (itemsTokens (treeItems (j :: js)) ++ .end_array :: ts) := by
        simp [tree, treeItems, Tree.tokens, itemsTokens]
      rw [htokens, Serializer.dump, if_neg (by simp)]
      simp only [utf8_append, List.append_assoc]
      refine reads_token .begin_array (reads_whitespace (whitespace_lineBreak _) ?_)
      exact reads_dumpItems (j :: js) _ (List.cons_ne_nil _ _) hfloats hj
        (reads_newLine _ _ (reads_token .end_array h))
  | object [], i, b, ts, _, _, h => by
      have htext : Serializer.dump lib pretty_print indent_step (object []) i =
          "\x7b" ++ "\x7d" := by
        rw [Serializer.dump]
        rfl
      rw [tree, treeMembers, Tree.tokens, htext, utf8_append, List.append_assoc]
      exact reads_token .begin_object (reads_token .end_object h)
  | object (m :: ms), indent, b, ts, hfloats, hj, h => by
      have htokens : (object (m :: ms)).tree.tokens ++ ts =
          .begin_object :: (membersTokens (treeMembers (m :: ms)) ++ .end_object :: ts) := by
        simp [tree, treeMembers, Tree.tokens, membersTokens]
      rw [htokens, Serializer.dump, if_neg (by simp)]
      simp only [utf8_append, List.append_assoc]
      refine reads_token .begin_object (reads_whitespace (whitespace_lineBreak _) ?_)
      exact reads_dumpMembers (m :: ms) _ (List.cons_ne_nil _ _) hfloats hj.2
        (reads_newLine _ _ (reads_token .end_object h))

theorem reads_dumpItems : ∀ (js : List Json) (indent : ℕ) {b : Bytes} {ts : List Token}, js ≠ [] →
    (∀ d ∈ floatsItems js, SpellsFloat lib d) → WellFormedItems js → Reads b ts →
    Reads (utf8 (Serializer.dumpItems lib pretty_print indent_step js indent) ++ b)
      (itemsTokens (treeItems js) ++ ts)
  | [], _, _, _, hne, _, _, _ => absurd rfl hne
  | [j], indent, b, ts, _, hfloats, hj, h => by
      rw [Serializer.dumpItems, treeItems, treeItems, itemsTokens, Tree.moreItems, List.append_nil,
        utf8_append, List.append_assoc]
      exact reads_whitespace (whitespace_indentation _ _)
        (reads_dump j indent (List.forall_mem_append.mp hfloats).1 hj.1 h)
  | j :: j' :: js, indent, b, ts, _, hfloats, hj, h => by
      obtain ⟨hfloat, hmore⟩ := List.forall_mem_append.mp hfloats
      have hrest := reads_dumpItems (j' :: js) indent (List.cons_ne_nil _ _) hmore hj.2 h
      have htokens : itemsTokens (treeItems (j :: j' :: js)) ++ ts =
          j.tree.tokens ++ .value_separator :: (itemsTokens (treeItems (j' :: js)) ++ ts) := by
        simp [treeItems, itemsTokens, Tree.moreItems]
      rw [htokens, Serializer.dumpItems]
      · simp only [utf8_append, List.append_assoc]
        refine reads_whitespace (whitespace_indentation _ _) (reads_dump j indent hfloat hj.1 ?_)
        exact reads_token .value_separator (reads_whitespace (whitespace_lineBreak _) hrest)
      · simp

theorem reads_dumpMembers : ∀ (ms : List (String × Json)) (indent : ℕ) {b : Bytes}
    {ts : List Token}, ms ≠ [] → (∀ d ∈ floatsMembers ms, SpellsFloat lib d) →
    WellFormedMembers ms → Reads b ts →
    Reads (utf8 (Serializer.dumpMembers lib pretty_print indent_step ms indent) ++ b)
      (membersTokens (treeMembers ms) ++ ts)
  | [], _, _, _, hne, _, _, _ => absurd rfl hne
  | [(k, j)], indent, b, ts, _, hfloats, hj, h => by
      have htokens : membersTokens (treeMembers [(k, j)]) ++ ts =
          .value_string (Utf8.encode k.toList) :: .name_separator :: (j.tree.tokens ++ ts) := by
        simp [treeMembers, membersTokens, Tree.moreMembers, keyTokens]
      rw [htokens, Serializer.dumpMembers]
      simp only [utf8_append, List.append_assoc]
      refine reads_whitespace (whitespace_indentation _ _) (reads_token (spells_dump_string k) ?_)
      exact reads_colon _ (reads_dump j indent (List.forall_mem_append.mp hfloats).1 hj.1 h)
  | (k, j) :: m :: ms, indent, b, ts, _, hfloats, hj, h => by
      obtain ⟨hfloat, hmore⟩ := List.forall_mem_append.mp hfloats
      have hrest := reads_dumpMembers (m :: ms) indent (List.cons_ne_nil _ _) hmore hj.2 h
      have htokens : membersTokens (treeMembers ((k, j) :: m :: ms)) ++ ts =
          .value_string (Utf8.encode k.toList) :: .name_separator :: (j.tree.tokens ++
            .value_separator :: (membersTokens (treeMembers (m :: ms)) ++ ts)) := by
        simp [treeMembers, membersTokens, Tree.moreMembers, keyTokens]
      rw [htokens, Serializer.dumpMembers]
      · simp only [utf8_append, List.append_assoc]
        refine reads_whitespace (whitespace_indentation _ _) (reads_token (spells_dump_string k) ?_)
        refine reads_colon _ (reads_dump j indent hfloat hj.1 ?_)
        exact reads_token .value_separator (reads_whitespace (whitespace_lineBreak _) hrest)
      · simp

end

end Layout

/-! ### The value of the tree -/

/-- A name behind all others is put at the end. -/
theorem put_of_lt {key : String} {value : Json} {ms : List (String × Json)}
    (h : ∀ k ∈ ms.map Prod.fst, k < key) : put key value ms = ms ++ [(key, value)] := by
  have hnotMem : key ∉ ms.map Prod.fst := fun hmem => lt_irrefl key (h key hmem)
  have hemplace : emplace key ms = insertSorted key null ms := by
    rw [emplace, lookup_eq_none_iff.mpr hnotMem]
  rw [put, hemplace]
  clear hemplace hnotMem
  induction ms with
  | nil => simp [insertSorted, overwrite]
  | cons m ms ih =>
      obtain ⟨k, v⟩ := m
      have hk : k < key := h k (by simp)
      have hrest : ∀ k' ∈ ms.map Prod.fst, k' < key := by
        intro k' hk'
        exact h k' (List.mem_cons_of_mem _ hk')
      rw [insertSorted, if_neg (lt_asymm hk), overwrite, if_neg (ne_of_gt hk), ih hrest]
      rfl

mutual

/-- The tree `dump` writes means the value. -/
theorem value_tree : ∀ j : Json, j.WellFormed → j.tree.value = j
  | null, _ => rfl
  | boolean _, _ => rfl
  | number_integer n, _ => by
      rw [tree, Tree.value]
      exact value_integerScalar n
  | number_float _, _ => rfl
  | string s, _ => by
      rw [tree, Tree.value, Scalar.value, String.ofList_toList]
  | array items, h => by
      rw [tree, Tree.value, value_treeItems items h]
  | object members, ⟨hsorted, hall⟩ => by
      rw [tree, Tree.value, value_treeMembers members [] hall hsorted]
      rfl

theorem value_treeItems : ∀ js : List Json, WellFormedItems js →
    Tree.valueItems (treeItems js) = js
  | [], _ => rfl
  | j :: js, ⟨hj, hjs⟩ => by
      rw [treeItems, Tree.valueItems, value_tree j hj, value_treeItems js hjs]

/-- Names in order are put in order. -/
theorem value_treeMembers : ∀ ms before : List (String × Json), WellFormedMembers ms →
    ((before ++ ms).map Prod.fst).Pairwise (· < ·) →
    Tree.valueMembers before (treeMembers ms) = before ++ ms
  | [], before, _, _ => by
      rw [treeMembers, Tree.valueMembers, List.append_nil]
  | (k, j) :: ms, before, ⟨hj, hms⟩, hsorted => by
      have hkey : ∀ k' ∈ before.map Prod.fst, k' < k := by
        intro k' hk'
        rw [List.map_append, List.pairwise_append] at hsorted
        exact hsorted.2.2 k' hk' k (by simp)
      have hmore : ((before ++ [(k, j)] ++ ms).map Prod.fst).Pairwise (· < ·) := by
        rwa [List.append_assoc]
      rw [treeMembers, Tree.valueMembers, String.ofList_toList, value_tree j hj, put_of_lt hkey,
        value_treeMembers ms (before ++ [(k, j)]) hms hmore, List.append_assoc]
      rfl

end

/-- What `dump` writes is a text of the value, with any layout. -/
theorem writes_dump (lib : Nlohmann) (pretty_print : Bool) (indent_step : ℕ) {j : Json}
    (hfloats : ∀ d ∈ j.floats, SpellsFloat lib d) (hj : j.WellFormed) :
    Writes (utf8 (Serializer.dump lib pretty_print indent_step j 0)) j.tree := by
  have hend : Reads [] [] := .nil ⟨[], [], by simp [Whitespace], rfl, .inl rfl⟩
  have hreads := @reads_dump lib pretty_print indent_step j 0 [] [] hfloats hj hend
  rw [List.append_nil, List.append_nil] at hreads
  exact ⟨_, .inl rfl, hreads⟩

theorem parse_dump_of_wellFormed (lib : Nlohmann) (pretty_print : Bool) (indent_step : ℕ) {j : Json}
    (hfloats : ∀ d ∈ j.floats, SpellsFloat lib d) (hj : j.WellFormed) :
    parse (utf8 (Serializer.dump lib pretty_print indent_step j 0)) = .ok j :=
  parse_eq_ok_iff.mpr ⟨j.tree, writes_dump lib _ _ hfloats hj, value_tree j hj⟩

/-- A well-formed value without floating-point numbers is read back from what
`dump()` writes, whatever else the library does. -/
theorem parse_dump (lib : Nlohmann) {j : Json} (hfloat : j.floatFree = true) (hj : j.WellFormed) :
    parse (utf8 (j.dump lib)) = .ok j := by
  rw [← Serializer.dump_compact lib 0 j 0]
  refine parse_dump_of_wellFormed lib false 0 ?_ hj
  rw [floats_eq_nil j hfloat]
  simp

end Json

end SyncServiceUi
