/-
SyncServiceUi/Binary64.lean

Rounding to binary64, and finite doubles as bits.

`toDouble` rounds a rational to the nearest value (ties to even, subnormals
included) and gives `none` where the magnitude overflows.  A `Double` is a
pattern of bits; `Double.value` is what they stand for.  Between two
neighbours lies a midpoint; `minus` and `plus` are the midpoints below and
above a positive double, the lower one twice as close where the double is the
first of its binade.  Whatever lies strictly between them is rounded to the
double (`toDouble_of_between`), however ties are broken.  In the other
direction, every value rounding can have is that of some double, which
`ofRat` finds, and a double is determined by its sign and its magnitude
(`ofRat_eq`).
-/
import Mathlib.Algebra.Order.Field.Power
import Mathlib.Data.Int.Log
import Mathlib.Data.Rat.Floor
import Mathlib.Tactic.Common
import Mathlib.Tactic.FieldSimp
import Mathlib.Tactic.Positivity

namespace Binary64

/-! ### Rounding -/

/-- Nearest integer, ties to even. -/
def roundHalfEven (q : ℚ) : ℤ :=
  let f := ⌊q⌋
  if q - f < 1 / 2 then f
  else if 1 / 2 < q - f then f + 1
  else if f % 2 = 0 then f else f + 1

/-- Nearest binary64 value; `none` when it would be infinite. -/
def toDouble (q : ℚ) : Option ℚ :=
  -- 53 significant bits, but never finer than the subnormal quantum
  let k := max (Int.log 2 |q| - 52) (-1074)
  let v : ℚ := roundHalfEven (q / 2 ^ k) * 2 ^ k
  if 2 ^ 1024 ≤ |v| then none else some v

/-- Rounding does not step over an integer. -/
theorem le_abs_roundHalfEven {q : ℚ} {m : ℕ} (h : m ≤ |q|) : (m : ℤ) ≤ |roundHalfEven q| := by
  have hle : (⌊q⌋ : ℚ) ≤ q := Int.floor_le q
  have hcast : ((m : ℤ) : ℚ) = m := Int.cast_natCast m
  rcases le_abs.mp h with hpos | hneg
  · have hfloor : (m : ℤ) ≤ ⌊q⌋ := Int.le_floor.mpr (hcast.trans_le hpos)
    refine le_abs.mpr (.inl ?_)
    unfold roundHalfEven
    dsimp only
    split_ifs <;> omega
  · have hfloor : ⌊q⌋ ≤ -m := by
      have : (⌊q⌋ : ℚ) ≤ -m := hle.trans (by linarith)
      exact_mod_cast this
    -- rounding up from there would take a fraction of one half at least
    have hminus : ⌊q⌋ = -m → q - ⌊q⌋ < 1 / 2 := by
      intro he
      rw [he]
      push_cast
      linarith
    refine le_abs.mpr (.inr ?_)
    unfold roundHalfEven
    dsimp only
    split_ifs with h₁ h₂ h₃
    · omega
    · have : ⌊q⌋ ≠ -m := fun he => h₁ (hminus he)
      omega
    · omega
    · have : ⌊q⌋ ≠ -m := fun he => h₁ (hminus he)
      omega

/-- A number that is not below the normal ones is not rounded to one that
is. -/
theorem normal_of_toDouble {q v : ℚ} (h : 2 ^ (-1022 : ℤ) ≤ |q|) (hv : toDouble q = some v) :
    2 ^ (-1022 : ℤ) ≤ |v| := by
  have htwo : (2 : ℚ) ≠ 0 := by norm_num
  have hqpos : 0 < |q| := lt_of_lt_of_le (zpow_pos (by norm_num) _) h
  have hlog : -1022 ≤ Int.log 2 |q| :=
    (Int.zpow_le_iff_le_log (by decide) hqpos).mp (by exact_mod_cast h)
  have hgrid : max (Int.log 2 |q| - 52) (-1074) = Int.log 2 |q| - 52 := by omega
  have hunit : (0 : ℚ) < 2 ^ (Int.log 2 |q| - 52) := zpow_pos (by norm_num) _
  have hscaled : ((2 ^ 52 : ℕ) : ℚ) ≤ |q / 2 ^ (Int.log 2 |q| - 52)| := by
    have hpow : ((2 : ℕ) : ℚ) ^ Int.log 2 |q| ≤ |q| := Int.zpow_log_le_self (by decide) hqpos
    rw [abs_div, abs_of_pos hunit, le_div_iff₀ hunit, zpow_sub₀ htwo]
    refine le_of_eq_of_le ?_ hpow
    push_cast
    ring
  rw [toDouble, hgrid] at hv
  split at hv
  · cases hv
  · obtain rfl := Option.some.inj hv
    have hround := le_abs_roundHalfEven hscaled
    have hcast : (2 : ℚ) ^ (52 : ℤ) ≤ |(roundHalfEven (q / 2 ^ (Int.log 2 |q| - 52)) : ℚ)| := by
      exact_mod_cast hround
    calc (2 : ℚ) ^ (-1022 : ℤ) ≤ 2 ^ Int.log 2 |q| := zpow_le_zpow_right₀ (by norm_num) hlog
      _ = 2 ^ (52 : ℤ) * 2 ^ (Int.log 2 |q| - 52) := by
          rw [← zpow_add₀ htwo]
          congr 1
          omega
      _ ≤ |(roundHalfEven (q / 2 ^ (Int.log 2 |q| - 52)) : ℚ)| * 2 ^ (Int.log 2 |q| - 52) :=
          mul_le_mul_of_nonneg_right hcast hunit.le
      _ = |(roundHalfEven (q / 2 ^ (Int.log 2 |q| - 52)) : ℚ) * 2 ^ (Int.log 2 |q| - 52)| := by
          rw [abs_mul, abs_of_pos hunit]

/-! ### Rounding near an integer -/

theorem roundHalfEven_eq {q : ℚ} {n : ℤ} (h : |q - n| < 1 / 2) : roundHalfEven q = n := by
  obtain ⟨hlow, hhigh⟩ := abs_lt.mp h
  unfold roundHalfEven
  dsimp only
  rcases le_or_gt (n : ℚ) q with hle | hlt
  · have hfloor : ⌊q⌋ = n := Int.floor_eq_iff.mpr ⟨hle, by linarith⟩
    rw [hfloor, if_pos (by linarith)]
  · have hfloor : ⌊q⌋ = n - 1 := by
      refine Int.floor_eq_iff.mpr ⟨?_, ?_⟩
      · push_cast
        linarith
      · push_cast
        linarith
    have hcast : ((n - 1 : ℤ) : ℚ) = n - 1 := by push_cast; rfl
    rw [hfloor, hcast, if_neg (by linarith), if_pos (by linarith), sub_add_cancel]

/-- On a grid of this step, the number nearest to `x`, or to `-x`. -/
theorem toDouble_eq {x : ℚ} {n k : ℤ} (hk : max (Int.log 2 |x| - 52) (-1074) = k)
    (hn : |x / 2 ^ k - n| < 1 / 2) (hfinite : |(n : ℚ) * 2 ^ k| < 2 ^ 1024) (negative : Bool) :
    toDouble (if negative then -x else x) =
      some (if negative then -((n : ℚ) * 2 ^ k) else (n : ℚ) * 2 ^ k) := by
  cases negative with
  | false =>
      rw [if_neg Bool.false_ne_true, if_neg Bool.false_ne_true, toDouble]
      rw [hk, roundHalfEven_eq hn, if_neg hfinite.not_ge]
  | true =>
      have hminus : |-x / 2 ^ k - (-n : ℤ)| < 1 / 2 := by
        have heq : -x / 2 ^ k - ((-n : ℤ) : ℚ) = -(x / 2 ^ k - n) := by
          push_cast
          ring
        rwa [heq, abs_neg]
      have hcast : ((-n : ℤ) : ℚ) * 2 ^ k = -(n * 2 ^ k) := by
        push_cast
        ring
      rw [if_pos rfl, if_pos rfl, toDouble]
      rw [abs_neg, hk, roundHalfEven_eq hminus, hcast, abs_neg, if_neg hfinite.not_ge]

/-! ### Doubles -/

/-- A finite double: the exponent field is not all ones. -/
structure Double where
  bits : UInt64
  finite : bits.toNat / 2 ^ 52 % 2 ^ 11 ≠ 2 ^ 11 - 1
  deriving DecidableEq, Repr

namespace Double

def signbit (d : Double) : Bool :=
  2 ^ 63 ≤ d.bits.toNat

/-- The exponent field. -/
def biased (d : Double) : ℕ :=
  d.bits.toNat / 2 ^ 52 % 2 ^ 11

/-- The fraction field. -/
def fraction (d : Double) : ℕ :=
  d.bits.toNat % 2 ^ 52

/-- The hidden bit belongs to it, unless the number is subnormal. -/
def significand (d : Double) : ℕ :=
  if d.biased = 0 then d.fraction else 2 ^ 52 + d.fraction

def exponent (d : Double) : ℤ :=
  if d.biased = 0 then -1074 else d.biased - 1075

def magnitude (d : Double) : ℚ :=
  d.significand * 2 ^ d.exponent

def value (d : Double) : ℚ :=
  if d.signbit then -d.magnitude else d.magnitude

/-- How many quarters of a step the midpoint below is away. -/
def lowerGap (d : Double) : ℕ :=
  if d.fraction = 0 ∧ 1 < d.biased then 1 else 2

/-- The midpoint below the magnitude. -/
def minus (d : Double) : ℚ :=
  (4 * d.significand - d.lowerGap) * 2 ^ (d.exponent - 2)

/-- The midpoint above. -/
def plus (d : Double) : ℚ :=
  (4 * d.significand + 2) * 2 ^ (d.exponent - 2)

theorem biased_lt (d : Double) : d.biased < 2 ^ 11 - 1 := by
  have hfinite := d.finite
  have hmod : d.bits.toNat / 2 ^ 52 % 2 ^ 11 < 2 ^ 11 := Nat.mod_lt _ (by decide)
  unfold biased
  omega

theorem fraction_lt (d : Double) : d.fraction < 2 ^ 52 :=
  Nat.mod_lt _ (by decide)

theorem significand_lt (d : Double) : d.significand < 2 ^ 53 := by
  have hfraction := d.fraction_lt
  unfold significand
  split <;> omega

theorem le_exponent (d : Double) : -1074 ≤ d.exponent := by
  unfold exponent
  split <;> omega

theorem exponent_le (d : Double) : d.exponent ≤ 971 := by
  have hbiased := d.biased_lt
  unfold exponent
  split <;> omega

/-- Normal, or at the bottom of the range. -/
theorem normal_or_least (d : Double) : 2 ^ 52 ≤ d.significand ∨ d.exponent = -1074 := by
  unfold significand exponent
  split
  · exact .inr rfl
  · exact .inl (Nat.le_add_right _ _)

/-- The lower midpoint is closer only below the first number of a binade. -/
theorem lowerGap_cases (d : Double) :
    d.lowerGap = 2 ∨ d.lowerGap = 1 ∧ d.significand = 2 ^ 52 := by
  unfold lowerGap
  by_cases h : d.fraction = 0 ∧ 1 < d.biased
  · right
    rw [if_pos h, significand, if_neg (by omega), h.1]
    exact ⟨rfl, rfl⟩
  · left
    rw [if_neg h]

theorem magnitude_lt (d : Double) : d.magnitude < 2 ^ 1024 := by
  have hpow : (0 : ℚ) < 2 ^ d.exponent := zpow_pos (by norm_num) _
  have hsignificand : (d.significand : ℚ) < 2 ^ 53 := by exact_mod_cast d.significand_lt
  calc d.magnitude < 2 ^ 53 * 2 ^ d.exponent := by
        exact mul_lt_mul_of_pos_right hsignificand hpow
    _ ≤ 2 ^ 53 * 2 ^ (971 : ℤ) := by
        gcongr
        · norm_num
        · exact d.exponent_le
    _ = 2 ^ 1024 := by
        have hcast : (971 : ℤ) = (971 : ℕ) := rfl
        rw [hcast, zpow_natCast, ← pow_add]

theorem magnitude_nonneg (d : Double) : 0 ≤ d.magnitude := by
  unfold magnitude
  positivity

/-! ### What is rounded to a double -/

/-- The step of the grid on which a number is rounded, from its place in the
grid of step `2 ^ e`. -/
theorem grid_eq {x : ℚ} {e : ℤ} (hx : 0 < x) (he : -1074 ≤ e) (hhigh : x < 2 ^ 53 * 2 ^ e)
    (hlow : 2 ^ 52 * 2 ^ e ≤ x ∨ e = -1074) : max (Int.log 2 |x| - 52) (-1074) = e := by
  have htwo : (2 : ℚ) ≠ 0 := by norm_num
  have hbelow : Int.log 2 x < e + 53 := by
    refine (Int.lt_zpow_iff_log_lt (by decide) hx).mp (hhigh.trans_eq ?_)
    rw [Nat.cast_ofNat, zpow_add₀ htwo, mul_comm]
    norm_num
  rw [abs_of_pos hx]
  rcases hlow with hle | rfl
  · have habove : e + 52 ≤ Int.log 2 x := by
      refine (Int.zpow_le_iff_le_log (by decide) hx).mp (le_of_eq_of_le ?_ hle)
      rw [Nat.cast_ofNat, zpow_add₀ htwo, mul_comm]
      norm_num
    omega
  · omega

/-- Every number strictly between the midpoints of a double that is not zero
is rounded to it, and so with the signs changed. -/
theorem toDouble_of_between {d : Double} (hd : 0 < d.significand) {x : ℚ} (hlow : d.minus < x)
    (hhigh : x < d.plus) (negative : Bool) :
    toDouble (if negative then -x else x) =
      some (if negative then -d.magnitude else d.magnitude) := by
  have htwo : (2 : ℚ) ≠ 0 := by norm_num
  have hpow : (0 : ℚ) < 2 ^ d.exponent := zpow_pos (by norm_num) _
  have hquarter : (2 : ℚ) ^ (d.exponent - 2) = 2 ^ d.exponent / 4 := by
    rw [zpow_sub₀ htwo]
    norm_num
  have hgap : (d.lowerGap : ℚ) ≤ 2 := by
    have hcases := d.lowerGap_cases
    exact_mod_cast (by omega : d.lowerGap ≤ 2)
  have hone : (1 : ℚ) ≤ d.significand := by exact_mod_cast hd
  have htop : (d.significand : ℚ) + 1 ≤ 2 ^ 53 := by exact_mod_cast d.significand_lt
  -- the place of `x` in the grid of the double
  obtain ⟨y, rfl⟩ : ∃ y, x = y * 2 ^ d.exponent := ⟨x / 2 ^ d.exponent, by field_simp⟩
  have hylow : d.significand - (d.lowerGap : ℚ) / 4 < y := by
    rw [minus, hquarter] at hlow
    have h : (d.significand - (d.lowerGap : ℚ) / 4) * 2 ^ d.exponent < y * 2 ^ d.exponent := by
      linarith
    exact lt_of_mul_lt_mul_right h hpow.le
  have hyhigh : y < d.significand + 1 / 2 := by
    rw [plus, hquarter] at hhigh
    have h : y * 2 ^ d.exponent < (d.significand + 1 / 2) * 2 ^ d.exponent := by linarith
    exact lt_of_mul_lt_mul_right h hpow.le
  have hxpos : 0 < y * 2 ^ d.exponent := mul_pos (by linarith) hpow
  have hfinite : |((d.significand : ℤ) : ℚ) * 2 ^ d.exponent| < 2 ^ 1024 := by
    rw [Int.cast_natCast, abs_of_nonneg (by positivity)]
    exact d.magnitude_lt
  have hmagnitude : d.magnitude = ((d.significand : ℤ) : ℚ) * 2 ^ d.exponent := by
    rw [Int.cast_natCast]
    rfl
  by_cases hgrid : 2 ^ 52 ≤ y ∨ d.exponent = -1074
  · rw [hmagnitude]
    refine toDouble_eq (grid_eq hxpos d.le_exponent ?_ ?_) ?_ hfinite _
    · exact mul_lt_mul_of_pos_right (by linarith) hpow
    · exact hgrid.imp (fun h => mul_le_mul_of_nonneg_right h hpow.le) id
    · rw [mul_div_cancel_right₀ _ hpow.ne', Int.cast_natCast, abs_lt]
      exact ⟨by linarith, by linarith⟩
  · -- below the first number of the binade, where the grid is finer
    rw [not_or, not_le] at hgrid
    obtain ⟨hy, hleast⟩ := hgrid
    have hnormal := d.normal_or_least.resolve_right hleast
    have hfirst : d.significand = 2 ^ 52 := by
      have : (d.significand : ℚ) < 2 ^ 52 + 1 := by linarith
      have : d.significand < 2 ^ 52 + 1 := by exact_mod_cast this
      omega
    have hone_gap : d.lowerGap = 1 := by
      unfold lowerGap
      unfold significand at hfirst
      unfold exponent at hleast
      have hfraction := d.fraction_lt
      split at hfirst
      · omega
      · rw [if_neg (by assumption)] at hleast
        rw [if_pos ⟨by omega, by omega⟩]
    have hexponent : -1073 ≤ d.exponent := by
      have hle := d.le_exponent
      omega
    rw [hone_gap, Nat.cast_one] at hylow
    have hfirst' : (d.significand : ℚ) = 2 ^ 52 := by exact_mod_cast hfirst
    have hhalf : (2 : ℚ) ^ (d.exponent - 1) = 2 ^ d.exponent / 2 := by
      rw [zpow_sub_one₀ htwo]
      rfl
    have hdouble : ((2 * d.significand : ℤ) : ℚ) * 2 ^ (d.exponent - 1) =
        ((d.significand : ℤ) : ℚ) * 2 ^ d.exponent := by
      rw [hhalf]
      push_cast
      ring
    rw [hmagnitude, ← hdouble]
    rw [← hdouble] at hfinite
    refine toDouble_eq (grid_eq hxpos (by omega) ?_ (.inl ?_)) ?_ hfinite _
    · rw [hhalf]
      nlinarith
    · rw [hhalf]
      nlinarith
    · rw [hhalf]
      have heq : y * 2 ^ d.exponent / (2 ^ d.exponent / 2) = 2 * y := by field_simp
      rw [heq, abs_lt]
      push_cast
      exact ⟨by linarith, by linarith⟩

/-! ### The double of a value -/

/-- The double with these bits, when they are those of one. -/
def ofBits (bits : UInt64) : Double :=
  if h : bits.toNat / 2 ^ 52 % 2 ^ 11 ≠ 2 ^ 11 - 1 then ⟨bits, h⟩ else ⟨0, by decide⟩

/-- The double of this sign and of the magnitude of `q`. -/
def ofRat (negative : Bool) (q : ℚ) : Double :=
  let k := max (Int.log 2 |q| - 52) (-1074)
  let n := (|q| / 2 ^ k).num.toNat
  let sign := if negative then 2 ^ 63 else 0
  -- the hidden bit of a normal number adds one to its exponent field
  ofBits (.ofNat (sign + if n < 2 ^ 52 then n else (k + 1074).toNat * 2 ^ 52 + n))

theorem ofBits_ofNat {negative : Bool} {biased fraction : ℕ} (hbiased : biased < 2 ^ 11 - 1)
    (hfraction : fraction < 2 ^ 52) :
    (ofBits (.ofNat ((if negative then 2 ^ 63 else 0) + (biased * 2 ^ 52 + fraction)))).signbit =
        negative ∧
      (ofBits (.ofNat ((if negative then 2 ^ 63 else 0) +
        (biased * 2 ^ 52 + fraction)))).biased = biased ∧
      (ofBits (.ofNat ((if negative then 2 ^ 63 else 0) +
        (biased * 2 ^ 52 + fraction)))).fraction = fraction := by
  obtain ⟨sign, hsign⟩ : ∃ sign, (if negative then 2 ^ 63 else 0) = sign := ⟨_, rfl⟩
  have hcases : negative = true ∧ sign = 2 ^ 63 ∨ negative = false ∧ sign = 0 := by
    cases negative with
    | false => exact .inr ⟨rfl, hsign.symm⟩
    | true => exact .inl ⟨rfl, hsign.symm⟩
  have hbits : (UInt64.ofNat (sign + (biased * 2 ^ 52 + fraction))).toNat =
      sign + (biased * 2 ^ 52 + fraction) := UInt64.toNat_ofNat_of_lt' (by
    rw [UInt64.size]
    omega)
  have hfinite : (UInt64.ofNat (sign + (biased * 2 ^ 52 + fraction))).toNat / 2 ^ 52 % 2 ^ 11 ≠
      2 ^ 11 - 1 := by
    rw [hbits]
    omega
  rw [hsign, ofBits, dif_pos hfinite, signbit, Double.biased, Double.fraction, hbits]
  refine ⟨?_, ?_, ?_⟩
  · rcases hcases with ⟨rfl, rfl⟩ | ⟨rfl, rfl⟩
    · exact decide_eq_true (by omega)
    · exact decide_eq_false (by omega)
  · omega
  · omega

/-- What `ofRat` looks for: a significand of 53 bits on the grid the number is
rounded on. -/
theorem exists_significand {q : ℚ} {n : ℕ} {k : ℤ} (hq : |q| = n * 2 ^ k) (hpos : 0 < n)
    (hn : n ≤ 2 ^ 53) (hk : -1074 ≤ k) :
    ∃ m : ℕ, |q| = m * 2 ^ max (Int.log 2 |q| - 52) (-1074) := by
  have htwo : (2 : ℚ) ≠ 0 := by norm_num
  have hpow : (0 : ℚ) < 2 ^ k := zpow_pos (by norm_num) _
  have hqpos : 0 < |q| := by
    rw [hq]
    positivity
  rcases hn.lt_or_eq with hlt | rfl
  · -- the grid is the same or finer
    have hlog : Int.log 2 |q| < k + 53 := by
      refine (Int.lt_zpow_iff_log_lt (by decide) hqpos).mp ?_
      rw [hq, Nat.cast_ofNat, zpow_add₀ htwo, mul_comm]
      have hcast : (n : ℚ) < 2 ^ (53 : ℤ) := by exact_mod_cast hlt
      exact mul_lt_mul_of_pos_left hcast hpow
    obtain ⟨j, hj⟩ := Int.eq_ofNat_of_zero_le
      (show 0 ≤ k - max (Int.log 2 |q| - 52) (-1074) by omega)
    refine ⟨n * 2 ^ j, ?_⟩
    push_cast
    rw [mul_assoc, ← zpow_natCast (2 : ℚ) j, ← zpow_add₀ htwo, ← hj, sub_add_cancel]
    exact hq
  · -- the significand is a power of two itself
    have hq' : |q| = ((2 : ℕ) : ℚ) ^ (k + 53) := by
      rw [hq, Nat.cast_ofNat, zpow_add₀ htwo, mul_comm]
      norm_num
    have hlog : Int.log 2 |q| = k + 53 := by
      rw [hq']
      exact Int.log_zpow (by decide) _
    have hgrid : max (Int.log 2 |q| - 52) (-1074) = k + 1 := by omega
    refine ⟨2 ^ 52, ?_⟩
    rw [hgrid, hq, zpow_add_one₀ htwo]
    push_cast
    ring

/-- On its own grid a number that is no multiple of less than `2 ^ 52` steps
is so because the grid is the finest. -/
theorem significand_bounds {q : ℚ} {m : ℕ} (hpos : 0 < |q|)
    (hq : |q| = m * 2 ^ max (Int.log 2 |q| - 52) (-1074)) :
    m < 2 ^ 53 ∧ (2 ^ 52 ≤ m ∨ max (Int.log 2 |q| - 52) (-1074) = -1074) := by
  have htwo : (2 : ℚ) ≠ 0 := by norm_num
  obtain ⟨k, hk⟩ : ∃ k, max (Int.log 2 |q| - 52) (-1074) = k := ⟨_, rfl⟩
  have hpow : (0 : ℚ) < 2 ^ k := zpow_pos (by norm_num) _
  rw [hk] at hq ⊢
  refine ⟨?_, ?_⟩
  · have hlt : |q| < ((2 : ℕ) : ℚ) ^ (k + 53) :=
      (Int.lt_zpow_iff_log_lt (by decide) hpos).mpr (by omega)
    rw [hq, Nat.cast_ofNat, zpow_add₀ htwo, mul_comm] at hlt
    have hcast : (m : ℚ) < 2 ^ (53 : ℤ) := lt_of_mul_lt_mul_left hlt hpow.le
    exact_mod_cast hcast
  · rcases eq_or_ne k (-1074) with rfl | hne
    · exact .inr rfl
    · left
      have hle : ((2 : ℕ) : ℚ) ^ (k + 52) ≤ |q| :=
        (Int.zpow_le_iff_le_log (by decide) hpos).mpr (by omega)
      rw [hq, Nat.cast_ofNat, zpow_add₀ htwo, mul_comm (m : ℚ)] at hle
      have hcast : (2 : ℚ) ^ (52 : ℤ) ≤ m := le_of_mul_le_mul_left hle hpow
      exact_mod_cast hcast

/-- Bits put together from a sign, a significand and a place in the range. -/
theorem magnitude_ofBits {m : ℕ} {k : ℤ} (negative : Bool) (hm : m < 2 ^ 53) (hk : -1074 ≤ k)
    (hk' : k ≤ 971) (hnormal : 2 ^ 52 ≤ m ∨ k = -1074) :
    (ofBits (.ofNat ((if negative then 2 ^ 63 else 0) +
        if m < 2 ^ 52 then m else (k + 1074).toNat * 2 ^ 52 + m))).signbit = negative ∧
      (ofBits (.ofNat ((if negative then 2 ^ 63 else 0) +
        if m < 2 ^ 52 then m else (k + 1074).toNat * 2 ^ 52 + m))).magnitude = m * 2 ^ k := by
  -- the fields
  obtain ⟨biased, fraction, hbits, hbiased, hfraction, hsignificand, hexponent⟩ :
      ∃ biased fraction : ℕ,
        (if m < 2 ^ 52 then m else (k + 1074).toNat * 2 ^ 52 + m) = biased * 2 ^ 52 + fraction ∧
        biased < 2 ^ 11 - 1 ∧ fraction < 2 ^ 52 ∧
        (if biased = 0 then fraction else 2 ^ 52 + fraction) = m ∧
        (if biased = 0 then -1074 else (biased : ℤ) - 1075) = k := by
    rcases Nat.lt_or_ge m (2 ^ 52) with hlt | hle
    · refine ⟨0, m, ?_, by decide, hlt, by simp, ?_⟩
      · rw [if_pos hlt, Nat.zero_mul, Nat.zero_add]
      · rw [if_pos rfl]
        omega
    · refine ⟨(k + 1075).toNat, m - 2 ^ 52, ?_, by omega, by omega, ?_, ?_⟩
      · rw [if_neg hle.not_gt]
        omega
      · rw [if_neg (by omega)]
        omega
      · rw [if_neg (by omega)]
        omega
  obtain ⟨hs, hb, hf⟩ := @ofBits_ofNat negative _ _ hbiased hfraction
  rw [hbits]
  refine ⟨hs, ?_⟩
  rw [magnitude, Double.significand, Double.exponent, hb, hf, hsignificand, hexponent]

/-- What rounding gives is a multiple of the step it rounds to. -/
theorem exists_of_toDouble {x q : ℚ} (h : toDouble x = some q) :
    ∃ (n : ℕ) (k : ℤ), |q| = n * 2 ^ k ∧ n ≤ 2 ^ 53 ∧ -1074 ≤ k ∧ |q| < 2 ^ 1024 := by
  have htwo : (2 : ℚ) ≠ 0 := by norm_num
  obtain ⟨k, hk⟩ : ∃ k, max (Int.log 2 |x| - 52) (-1074) = k := ⟨_, rfl⟩
  have hpow : (0 : ℚ) < 2 ^ k := zpow_pos (by norm_num) _
  rw [toDouble, hk] at h
  split at h
  · cases h
  next hfinite =>
    obtain rfl := Option.some.inj h
    refine ⟨(roundHalfEven (x / 2 ^ k)).natAbs, k, ?_, ?_, by omega, not_le.mp hfinite⟩
    · rw [abs_mul, abs_of_pos hpow, Nat.cast_natAbs, Int.cast_abs]
    · have hx : |x| < 2 ^ (53 : ℤ) * 2 ^ k := by
        rw [← zpow_add₀ htwo]
        rcases eq_or_ne x 0 with rfl | hne
        · rw [abs_zero]
          exact zpow_pos (by norm_num) _
        · have hlt := (Int.lt_zpow_iff_log_lt (b := 2) (x := 53 + k) (by decide)
            (abs_pos.mpr hne)).mpr (by omega)
          rwa [Nat.cast_ofNat] at hlt
      have hy : |x / 2 ^ k| < 2 ^ (53 : ℤ) := by
        rw [abs_div, abs_of_pos hpow]
        exact (div_lt_iff₀ hpow).mpr hx
      obtain ⟨hlow, hhigh⟩ := abs_lt.mp hy
      have hfloor : ⌊x / 2 ^ k⌋ < 2 ^ 53 := Int.floor_lt.mpr (by exact_mod_cast hhigh)
      have hfloor' : -2 ^ 53 ≤ ⌊x / 2 ^ k⌋ := Int.le_floor.mpr (by
        push_cast
        exact_mod_cast hlow.le)
      unfold roundHalfEven
      dsimp only
      split_ifs <;> omega

/-- Every value rounding can have is that of a double, with either sign. -/
theorem ofRat_spec {x q : ℚ} (h : toDouble x = some q) (negative : Bool) :
    (ofRat negative q).signbit = negative ∧ (ofRat negative q).magnitude = |q| := by
  obtain ⟨n, k, hq, hn, hk, hfinite⟩ := exists_of_toDouble h
  rcases eq_or_ne q 0 with rfl | hne
  · cases negative <;> decide +kernel
  · have hpos : 0 < |q| := abs_pos.mpr hne
    have hnpos : 0 < n := by
      rcases Nat.eq_zero_or_pos n with rfl | hpos'
      · rw [Nat.cast_zero, zero_mul] at hq
        exact absurd hq hpos.ne'
      · exact hpos'
    obtain ⟨m, hm⟩ := exists_significand hq hnpos hn hk
    obtain ⟨hlt, hnormal⟩ := significand_bounds hpos hm
    have hlog : Int.log 2 |q| < 1024 := by
      refine (Int.lt_zpow_iff_log_lt (by decide) hpos).mp ?_
      exact_mod_cast hfinite
    have hnum : (|q| / 2 ^ max (Int.log 2 |q| - 52) (-1074)).num.toNat = m := by
      have hdiv : |q| / 2 ^ max (Int.log 2 |q| - 52) (-1074) = (m : ℚ) :=
        (div_eq_iff (zpow_pos (by norm_num) _).ne').mpr hm
      rw [hdiv, Rat.num_natCast, Int.toNat_natCast]
    rw [ofRat, hnum]
    obtain ⟨hsign, hmagnitude⟩ :=
      magnitude_ofBits negative hlt (by omega) (by omega) hnormal
    exact ⟨hsign, hmagnitude.trans hm.symm⟩

/-! ### Sign and magnitude -/

/-- The three fields are all there is. -/
theorem ext_fields {d d' : Double} (hsign : d.signbit = d'.signbit)
    (hbiased : d.biased = d'.biased) (hfraction : d.fraction = d'.fraction) : d = d' := by
  obtain ⟨bits, hfinite⟩ := d
  obtain ⟨bits', hfinite'⟩ := d'
  have hlt := bits.toNat_lt
  have hlt' := bits'.toNat_lt
  have hiff : 2 ^ 63 ≤ bits.toNat ↔ 2 ^ 63 ≤ bits'.toNat := decide_eq_decide.mp hsign
  simp only [biased, fraction] at hbiased hfraction
  have hbits : bits = bits' := by
    rw [← UInt64.toNat_inj]
    omega
  subst hbits
  rfl

/-- A larger exponent would need a significand that is too small. -/
theorem exponent_le_of_magnitude_eq {d d' : Double} (h : d.magnitude = d'.magnitude) :
    d'.exponent ≤ d.exponent := by
  by_contra hlt
  rw [not_le] at hlt
  have htwo : (2 : ℚ) ≠ 0 := by norm_num
  have hpow : (0 : ℚ) < 2 ^ d.exponent := zpow_pos (by norm_num) _
  have hnormal := d'.normal_or_least.resolve_right (by
    have hle := d.le_exponent
    omega)
  obtain ⟨i, hi⟩ := Int.eq_ofNat_of_zero_le (show 0 ≤ d'.exponent - d.exponent - 1 by omega)
  have hexponent : d'.exponent = d.exponent + ((i + 1 : ℕ) : ℤ) := by
    push_cast
    omega
  have hsignificand : d.significand = d'.significand * 2 ^ (i + 1) := by
    have heq : (d.significand : ℚ) * 2 ^ d.exponent =
        (d'.significand * 2 ^ (i + 1) : ℕ) * 2 ^ d.exponent := by
      rw [magnitude, magnitude, hexponent, zpow_add₀ htwo, zpow_natCast] at h
      push_cast
      linarith
    exact_mod_cast mul_right_cancel₀ hpow.ne' heq
  have hlt' := d.significand_lt
  rw [hsignificand, pow_succ] at hlt'
  have hone : 0 < 2 ^ i := Nat.two_pow_pos i
  nlinarith

/-- Sign and magnitude determine a double. -/
theorem ext_magnitude {d d' : Double} (hsign : d.signbit = d'.signbit)
    (h : d.magnitude = d'.magnitude) : d = d' := by
  have hexponent : d.exponent = d'.exponent :=
    le_antisymm (exponent_le_of_magnitude_eq h.symm) (exponent_le_of_magnitude_eq h)
  have hpow : (2 : ℚ) ^ d'.exponent ≠ 0 := (zpow_pos (by norm_num) _).ne'
  have hsignificand : d.significand = d'.significand := by
    rw [magnitude, magnitude, hexponent] at h
    exact_mod_cast mul_right_cancel₀ hpow h
  have hfraction := d.fraction_lt
  have hfraction' := d'.fraction_lt
  unfold exponent at hexponent
  unfold significand at hsignificand
  -- only the least exponent has two fields, told apart by the hidden bit
  refine ext_fields hsign ?_ ?_
  · split_ifs at hexponent hsignificand <;> omega
  · split_ifs at hexponent hsignificand <;> omega

/-- Only the two zeros have no significand. -/
theorem significand_pos_iff (d : Double) : 0 < d.significand ↔ d.magnitude ≠ 0 := by
  have hpow : (2 : ℚ) ^ d.exponent ≠ 0 := (zpow_pos (by norm_num) _).ne'
  rw [magnitude, mul_ne_zero_iff, and_iff_left hpow, Nat.cast_ne_zero, Nat.pos_iff_ne_zero]

theorem abs_value (d : Double) : |d.value| = d.magnitude := by
  unfold value
  split
  · rw [abs_neg, abs_of_nonneg d.magnitude_nonneg]
  · rw [abs_of_nonneg d.magnitude_nonneg]

/-- A double is found from its sign and its magnitude. -/
theorem ofRat_eq {d : Double} {x : ℚ} (h : toDouble x = some d.magnitude) :
    ofRat d.signbit d.magnitude = d := by
  obtain ⟨hsign, hmagnitude⟩ := ofRat_spec h d.signbit
  exact ext_magnitude hsign (hmagnitude.trans (abs_of_nonneg d.magnitude_nonneg))

/-! ### The sign changed -/

/-- `-d`: adding the sign bit flips it. -/
def neg (d : Double) : Double where
  bits := d.bits + 0x8000000000000000
  finite := by
    have hfinite := d.finite
    rw [UInt64.toNat_add]
    simp only [UInt64.reduceToNat]
    omega

theorem toNat_neg (d : Double) : d.neg.bits.toNat = (d.bits.toNat + 2 ^ 63) % 2 ^ 64 :=
  UInt64.toNat_add ..

theorem signbit_neg (d : Double) : d.neg.signbit = !d.signbit := by
  have hlt := d.bits.toNat_lt
  rw [signbit, signbit, toNat_neg, ← decide_not, decide_eq_decide]
  omega

theorem biased_neg (d : Double) : d.neg.biased = d.biased := by
  rw [biased, biased, toNat_neg]
  omega

theorem fraction_neg (d : Double) : d.neg.fraction = d.fraction := by
  rw [fraction, fraction, toNat_neg]
  omega

theorem significand_neg (d : Double) : d.neg.significand = d.significand := by
  rw [significand, significand, biased_neg, fraction_neg]

theorem exponent_neg (d : Double) : d.neg.exponent = d.exponent := by
  rw [exponent, exponent, biased_neg]

theorem magnitude_neg (d : Double) : d.neg.magnitude = d.magnitude := by
  rw [magnitude, magnitude, significand_neg, exponent_neg]

theorem minus_neg (d : Double) : d.neg.minus = d.minus := by
  rw [minus, minus, lowerGap, lowerGap, biased_neg, fraction_neg, significand_neg, exponent_neg]

theorem plus_neg (d : Double) : d.neg.plus = d.plus := by
  rw [plus, plus, significand_neg, exponent_neg]

end Double

end Binary64
