/-
SyncServiceUi/Strtod.lean

Decimal text to binary64, as `std::stod` and the functions of C read it.

`strtod` skips white space, reads the longest decimal prefix and rounds it;
`stod` is the same with exceptions.  What it returns goes into a cell, where
a negative zero is no other number, so `stod` gives the value alone.  The
spellings no JSON writer produces (hexadecimal, infinities, NaN) are left
out, so a text that starts with one of them reads as no number at all.
-/
import Mathlib.Data.List.TakeWhile
import SyncServiceUi.Binary64

namespace Strtod

open Binary64

/-! ### Reading -/

/-- The two exceptions of `std::stod`. -/
inductive Error where
  | invalid_argument
  | out_of_range
  deriving DecidableEq, Repr

/-- `isspace` in the C locale. -/
def isSpace (c : Char) : Bool :=
  c = ' ' || (9 ≤ c.toNat && c.toNat ≤ 13)

/-- An optional sign, and what follows it. -/
def sign : List Char → Bool × List Char
  | '-' :: cs => (true, cs)
  | '+' :: cs => (false, cs)
  | cs => (false, cs)

/-- The exponent part, zero where there is none. -/
def scanExponent : List Char → ℤ
  | [] => 0
  | c :: cs =>
      if c = 'e' ∨ c = 'E' then
        let (neg, ds) := sign cs
        let n : ℤ := Nat.ofDigitChars 10 (ds.takeWhile Char.isDigit) 0
        if neg then -n else n
      else 0

/-- Digits, fraction and exponent; `none` when there is no digit. -/
def scanDecimal (cs : List Char) : Option ℚ :=
  let whole := cs.takeWhile Char.isDigit
  let (fraction, tail) :=
    match cs.dropWhile Char.isDigit with
    | '.' :: ds => (ds.takeWhile Char.isDigit, ds.dropWhile Char.isDigit)
    | ds => ([], ds)
  if whole ++ fraction = [] then none
  else some (Nat.ofDigitChars 10 (whole ++ fraction) 0 *
    10 ^ (scanExponent tail - fraction.length))

/-- The C library reports a range error where a result that is not exact is
smaller than every normal number. -/
def Underflows (q v : ℚ) : Prop :=
  |v| < 2 ^ (-1022 : ℤ) ∧ v ≠ q

instance (q v : ℚ) : Decidable (Underflows q v) :=
  inferInstanceAs (Decidable (_ ∧ _))

def stod (s : String) : Except Error ℚ :=
  let (neg, cs) := sign (s.toList.dropWhile isSpace)
  match scanDecimal cs with
  | none => .error .invalid_argument
  | some q =>
      let q := if neg then -q else q
      match toDouble q with
      | none => .error .out_of_range
      | some v => if Underflows q v then .error .out_of_range else .ok v

/-! ### The functions of C -/

/-- The tail of a text behind its exponent part. -/
def afterExponent : List Char → List Char
  | [] => []
  | c :: cs =>
      if c = 'e' ∨ c = 'E' then
        -- without a digit the letter is not part of the number
        if ((sign cs).2.takeWhile Char.isDigit) = [] then c :: cs
        else (sign cs).2.dropWhile Char.isDigit
      else c :: cs

/-- The tail of a text behind what `scanDecimal` reads. -/
def afterDecimal (cs : List Char) : List Char :=
  match cs.dropWhile Char.isDigit with
  | '.' :: ds => afterExponent (ds.dropWhile Char.isDigit)
  | ds => afterExponent ds

/-- `strtod`: the number, `none` where it is infinite, and what `endptr`
points to. -/
def strtod (cs : List Char) : Option Double × List Char :=
  let (neg, ds) := sign (cs.dropWhile isSpace)
  match scanDecimal ds with
  | none => (some (.ofRat false 0), cs)
  | some q => ((toDouble q).map (.ofRat neg), afterDecimal ds)

/-- `strtoull` of a text without a sign; `none` where `errno` is set. -/
def strtoull (cs : List Char) : Option ℕ × List Char :=
  let ds := cs.dropWhile isSpace
  let digits := ds.takeWhile Char.isDigit
  if digits = [] then (some 0, cs)
  else
    let n := Nat.ofDigitChars 10 digits 0
    (if n < 2 ^ 64 then some n else none, ds.dropWhile Char.isDigit)

/-- `strtoll`; `none` where `errno` is set. -/
def strtoll (cs : List Char) : Option ℤ × List Char :=
  let (neg, ds) := sign (cs.dropWhile isSpace)
  let digits := ds.takeWhile Char.isDigit
  if digits = [] then (some 0, cs)
  else
    let n : ℤ := Nat.ofDigitChars 10 digits 0
    let x := if neg then -n else n
    (if -2 ^ 63 ≤ x ∧ x < 2 ^ 63 then some x else none, ds.dropWhile Char.isDigit)

/-- Characters a number may start with. -/
def startsNumber (c : Char) : Bool :=
  isSpace c || c.isDigit || c = '-' || c = '+' || c = '.'

theorem scanDecimal_cons_of_not_startsNumber {c : Char} (hc : startsNumber c = false)
    (cs : List Char) : scanDecimal (c :: cs) = none := by
  simp only [startsNumber, Bool.or_eq_false_iff, decide_eq_false_iff_not] at hc
  obtain ⟨⟨⟨⟨-, hdigit⟩, -⟩, -⟩, hdot⟩ := hc
  rw [scanDecimal, List.takeWhile_cons_of_neg (by simp [hdigit]),
    List.dropWhile_cons_of_neg (by simp [hdigit])]
  split
  next fraction tail h =>
    split at h
    next ds heq => exact absurd (List.cons.inj heq).1 hdot
    next => simp_all

/-- A text that starts with no number character is not a number. -/
theorem stod_of_not_startsNumber {s : String} {c : Char} {cs : List Char}
    (hs : s.toList = c :: cs) (hc : startsNumber c = false) :
    stod s = .error .invalid_argument := by
  have hspace : isSpace c = false := by
    simp only [startsNumber, Bool.or_eq_false_iff] at hc
    exact hc.1.1.1.1
  have hsign : sign (c :: cs) = (false, c :: cs) := by
    unfold sign
    split
    next h => simp [startsNumber, (List.cons.inj h).1] at hc
    next h => simp [startsNumber, (List.cons.inj h).1] at hc
    next => rfl
  simp [stod, hs, hspace, hsign, scanDecimal_cons_of_not_startsNumber hc]

/-! ### Integers -/

/-- A text of digits reads as their value. -/
theorem scanDecimal_toDigits (n : ℕ) : scanDecimal (Nat.toDigits 10 n) = some (n : ℚ) := by
  have hdigits : ∀ c ∈ Nat.toDigits 10 n, c.isDigit = true := by
    intro c hc
    exact Nat.isDigit_of_mem_toDigits (by decide) (by decide) hc
  have htake : (Nat.toDigits 10 n).takeWhile Char.isDigit = Nat.toDigits 10 n :=
    List.takeWhile_eq_self_iff.mpr hdigits
  have hdrop : (Nat.toDigits 10 n).dropWhile Char.isDigit = [] :=
    List.dropWhile_eq_nil_iff.mpr hdigits
  simp [scanDecimal, htake, hdrop, scanExponent, Nat.toDigits_ne_nil]

/-- A digit is neither white space nor a sign. -/
theorem sign_dropWhile_isSpace {c : Char} (hc : c.isDigit = true) (cs : List Char) :
    sign ((c :: cs).dropWhile isSpace) = (false, c :: cs) := by
  obtain ⟨hlow, hhigh⟩ := Char.isDigit_iff_toNat.mp hc
  have hzero : '0'.toNat = 48 := rfl
  have hspace : isSpace c = false := by
    have hblank : c ≠ ' ' := by
      rintro rfl
      exact absurd hlow (by decide)
    simp only [isSpace, hblank, decide_false, Bool.false_or, Bool.and_eq_false_iff,
      decide_eq_false_iff_not]
    omega
  rw [List.dropWhile_cons_of_neg (by simp [hspace])]
  unfold sign
  split
  next h =>
    rw [(List.cons.inj h).1] at hc
    exact absurd hc (by decide)
  next h =>
    rw [(List.cons.inj h).1] at hc
    exact absurd hc (by decide)
  next => rfl

/-- Digits, with a minus in front or not, read as the double nearest to their
value. -/
theorem stod_of_toDigits {s : String} {n : ℕ} {neg : Bool} {x : ℚ}
    (hs : s.toList = (if neg then ['-'] else []) ++ Nat.toDigits 10 n)
    (hx : toDouble (if neg then -n else n) = some x) : stod s = .ok x := by
  have hsign : sign (s.toList.dropWhile isSpace) = (neg, Nat.toDigits 10 n) := by
    rcases neg with - | -
    · obtain ⟨c, cs, hcs⟩ := List.exists_cons_of_ne_nil (@Nat.toDigits_ne_nil n 10)
      have hc : c ∈ Nat.toDigits 10 n := hcs ▸ List.mem_cons_self
      have hdigit : c.isDigit = true := Nat.isDigit_of_mem_toDigits (by decide) (by decide) hc
      have hlist : s.toList = c :: cs := hs.trans hcs
      rw [hlist, hcs]
      exact sign_dropWhile_isSpace hdigit cs
    · have hlist : s.toList = '-' :: Nat.toDigits 10 n := hs
      rw [hlist]
      rfl
  have hunder : ¬ Underflows (if neg then -(n : ℚ) else n) x := by
    rcases Nat.eq_zero_or_pos n with rfl | hpos
    · -- zero is exact
      have hnat : (if neg then -((0 : ℕ) : ℚ) else (0 : ℕ)) = 0 := by cases neg <;> simp
      have hzero : toDouble 0 = some 0 := by decide +kernel
      rw [hnat, hzero] at hx
      rw [hnat]
      exact fun h => h.2 (Option.some.inj hx).symm
    · have hone : (1 : ℚ) ≤ n := by exact_mod_cast hpos
      have habs : 1 ≤ |if neg then -(n : ℚ) else n| := by
        split
        · rw [abs_neg]
          exact hone.trans (le_abs_self _)
        · exact hone.trans (le_abs_self _)
      have hsmall : (2 : ℚ) ^ (-1022 : ℤ) ≤ 1 := zpow_le_one_of_nonpos₀ (by norm_num) (by norm_num)
      exact fun h => absurd h.1 (not_lt.mpr (normal_of_toDouble (hsmall.trans habs) hx))
  simp only [stod, hsign, scanDecimal_toDigits, hx]
  rw [if_neg hunder]

example : stod "0.5" = .ok (1 / 2) := by decide +kernel

example : stod "1e400" = .error .out_of_range ∧ stod "5e-324" = .error .out_of_range := by
  decide +kernel

end Strtod
