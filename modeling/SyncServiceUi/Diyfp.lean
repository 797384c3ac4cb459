/-
SyncServiceUi/Diyfp.lean

`dtoa_impl::diyfp` and `compute_boundaries` (`src/dependencies/json/json.hpp`):
numbers `f * 2 ^ e` with a significand of 64 bits, and a double with the
midpoints around it in this form.

A product keeps the upper 64 bits, rounded; the source puts it together from
four products of 32 bits, and `toNat_mul` says that nothing overflows on the
way.  The three numbers of `compute_boundaries` are normalized to one
exponent, in which the double is four times its significand and the midpoints
are a few quarters away (`compute_boundaries_eq`).
-/
import SyncServiceUi.Binary64
import SyncServiceUi.Utf8Decoder

namespace SyncServiceUi

namespace DtoaImpl

open Binary64 Serializer
open Completion (ok_bind)

/-! ### Words -/

theorem toNat_lo (x : UInt64) : (x &&& 0xFFFFFFFF).toNat = x.toNat % 2 ^ 32 := by
  rw [UInt64.toNat_and]
  exact Nat.and_two_pow_sub_one_eq_mod x.toNat 32

theorem toNat_hi (x : UInt64) : (x >>> 32).toNat = x.toNat / 2 ^ 32 := by
  rw [UInt64.toNat_shiftRight]
  exact Nat.shiftRight_eq_div_pow x.toNat 32

theorem toNat_shiftRight_ofNat (x : UInt64) {n : ℕ} (hn : n < 64) :
    (x >>> UInt64.ofNat n).toNat = x.toNat / 2 ^ n := by
  have hlt : n < UInt64.size := hn.trans (by decide)
  rw [UInt64.toNat_shiftRight, UInt64.toNat_ofNat_of_lt' hlt, Nat.mod_eq_of_lt hn]
  exact Nat.shiftRight_eq_div_pow x.toNat n

theorem toNat_shiftLeft_ofNat (x : UInt64) {n : ℕ} (hn : n < 64) (hx : x.toNat * 2 ^ n < 2 ^ 64) :
    (x <<< UInt64.ofNat n).toNat = x.toNat * 2 ^ n := by
  have hlt : n < UInt64.size := hn.trans (by decide)
  rw [UInt64.toNat_shiftLeft, UInt64.toNat_ofNat_of_lt' hlt, Nat.mod_eq_of_lt hn,
    Nat.shiftLeft_eq]
  exact Nat.mod_eq_of_lt hx

theorem shiftRight_63_eq_zero_iff (x : UInt64) : x >>> 63 = 0 ↔ x.toNat < 2 ^ 63 := by
  have h := @toNat_shiftRight_ofNat x 63 (by decide)
  have hlt := x.toNat_lt
  rw [← UInt64.toNat_inj]
  change (x >>> UInt64.ofNat 63).toNat = 0 ↔ _
  rw [h]
  omega

theorem toNat_shiftLeft_1 {x : UInt64} (h : x >>> 63 = 0) : (x <<< 1).toNat = x.toNat * 2 := by
  rw [shiftRight_63_eq_zero_iff] at h
  exact @toNat_shiftLeft_ofNat x 1 (by decide) (by omega)

theorem toNat_pos {x : UInt64} (h : x ≠ 0) : 0 < x.toNat := by
  rw [← UInt64.toNat_inj.ne] at h
  exact Nat.pos_of_ne_zero h

theorem shiftLeft_1_ne_zero {x : UInt64} (hx : x ≠ 0) (h : x >>> 63 = 0) : x <<< 1 ≠ 0 := by
  have hpos := toNat_pos hx
  rw [← UInt64.toNat_inj.ne, toNat_shiftLeft_1 h]
  exact Nat.ne_of_gt (Nat.mul_pos hpos (by decide))

/-! ### The code -/

/-- `f * 2 ^ e`. -/
structure Diyfp where
  f : UInt64
  e : ℤ
  deriving DecidableEq

namespace Diyfp

def sub (x y : Diyfp) : Except Error Diyfp := do
  json_assert (x.e = y.e)
  json_assert (y.f ≤ x.f)
  return ⟨x.f - y.f, x.e⟩

def mul (x y : Diyfp) : Diyfp :=
  let u_lo := x.f &&& 0xFFFFFFFF
  let u_hi := x.f >>> 32
  let v_lo := y.f &&& 0xFFFFFFFF
  let v_hi := y.f >>> 32
  let p0 := u_lo * v_lo
  let p1 := u_lo * v_hi
  let p2 := u_hi * v_lo
  let p3 := u_hi * v_hi
  let p0_hi := p0 >>> 32
  let p1_lo := p1 &&& 0xFFFFFFFF
  let p1_hi := p1 >>> 32
  let p2_lo := p2 &&& 0xFFFFFFFF
  let p2_hi := p2 >>> 32
  -- round, ties up
  let Q := p0_hi + p1_lo + p2_lo + 0x80000000
  ⟨p3 + p2_hi + p1_hi + (Q >>> 32), x.e + y.e + 64⟩

/-- The loop of `normalize`. -/
def normalize_loop (x : Diyfp) (hx : x.f ≠ 0) : Diyfp :=
  if h : x.f >>> 63 = 0 then
    normalize_loop ⟨x.f <<< 1, x.e - 1⟩ (shiftLeft_1_ne_zero hx h)
  else x
termination_by 2 ^ 64 - x.f.toNat
decreasing_by
  have hpos := toNat_pos hx
  have hlt := x.f.toNat_lt
  rw [toNat_shiftLeft_1 h]
  omega

def normalize (x : Diyfp) : Except Error Diyfp :=
  if hx : x.f ≠ 0 then .ok (normalize_loop x hx) else .error .json_assert

def normalize_to (x : Diyfp) (target_exponent : ℤ) : Except Error Diyfp := do
  let delta := x.e - target_exponent
  json_assert (0 ≤ delta)
  let shift := UInt64.ofNat delta.toNat
  json_assert ((x.f <<< shift) >>> shift = x.f)
  return ⟨x.f <<< shift, target_exponent⟩

end Diyfp

structure Boundaries where
  w : Diyfp
  minus : Diyfp
  plus : Diyfp

def kBias : ℤ := 1024 - 1 + (53 - 1)

def kMinExp : ℤ := 1 - kBias

def kHiddenBit : UInt64 := (1 : UInt64) <<< 52

/-- Of a double; that it is finite is part of its type. -/
def compute_boundaries (value : Double) : Except Error Boundaries := do
  json_assert (value.signbit = false ∧ value.bits ≠ 0)
  let bits := value.bits
  let E := bits >>> 52
  let F := bits &&& (kHiddenBit - 1)
  let is_denormal := E = 0
  let v : Diyfp := if is_denormal then ⟨F, kMinExp⟩ else ⟨F + kHiddenBit, E.toNat - kBias⟩
  let lower_boundary_is_closer := F = 0 ∧ 1 < E
  let m_plus : Diyfp := ⟨2 * v.f + 1, v.e - 1⟩
  let m_minus : Diyfp :=
    if lower_boundary_is_closer then ⟨4 * v.f - 1, v.e - 2⟩ else ⟨2 * v.f - 1, v.e - 1⟩
  let w_plus ← m_plus.normalize
  let w_minus ← m_minus.normalize_to w_plus.e
  let w ← v.normalize
  return ⟨w, w_minus, w_plus⟩

/-! ### The product -/

/-- The upper half of a product, rounded, from the products of the halves. -/
theorem mul_halves (u_lo u_hi v_lo v_hi : ℕ) :
    ((u_lo + 2 ^ 32 * u_hi) * (v_lo + 2 ^ 32 * v_hi) + 2 ^ 63) / 2 ^ 64 =
      u_hi * v_hi + u_hi * v_lo / 2 ^ 32 + u_lo * v_hi / 2 ^ 32 +
        (u_lo * v_lo / 2 ^ 32 + u_lo * v_hi % 2 ^ 32 + u_hi * v_lo % 2 ^ 32 + 2 ^ 31) / 2 ^ 32 := by
  have hexpand : (u_lo + 2 ^ 32 * u_hi) * (v_lo + 2 ^ 32 * v_hi) =
      u_lo * v_lo + 2 ^ 32 * (u_lo * v_hi + u_hi * v_lo) + 2 ^ 64 * (u_hi * v_hi) := by ring
  rw [hexpand]
  omega

theorem mul_lt_of_lt {a b : ℕ} (ha : a < 2 ^ 32) (hb : b < 2 ^ 32) : a * b < 2 ^ 64 :=
  (Nat.mul_le_mul (Nat.le_sub_one_of_lt ha) (Nat.le_sub_one_of_lt hb)).trans_lt (by decide)

theorem mul_div_lt {a b : ℕ} (ha : a < 2 ^ 64) (hb : b < 2 ^ 64) :
    (a * b + 2 ^ 63) / 2 ^ 64 < 2 ^ 64 := by
  have hle : a * b ≤ (2 ^ 64 - 1) * (2 ^ 64 - 1) :=
    Nat.mul_le_mul (Nat.le_sub_one_of_lt ha) (Nat.le_sub_one_of_lt hb)
  omega

namespace Diyfp

theorem toNat_mul (x y : Diyfp) :
    (x.mul y).f.toNat = (x.f.toNat * y.f.toNat + 2 ^ 63) / 2 ^ 64 := by
  have hx := x.f.toNat_lt
  have hy := y.f.toNat_lt
  obtain ⟨u_lo, hu_lo⟩ : ∃ n, x.f.toNat % 2 ^ 32 = n := ⟨_, rfl⟩
  obtain ⟨u_hi, hu_hi⟩ : ∃ n, x.f.toNat / 2 ^ 32 = n := ⟨_, rfl⟩
  obtain ⟨v_lo, hv_lo⟩ : ∃ n, y.f.toNat % 2 ^ 32 = n := ⟨_, rfl⟩
  obtain ⟨v_hi, hv_hi⟩ : ∃ n, y.f.toNat / 2 ^ 32 = n := ⟨_, rfl⟩
  have hsplit := mul_halves u_lo u_hi v_lo v_hi
  have hwhole := mul_div_lt hx hy
  have hxeq : x.f.toNat = u_lo + 2 ^ 32 * u_hi := by omega
  have hyeq : y.f.toNat = v_lo + 2 ^ 32 * v_hi := by omega
  have h0 : u_lo * v_lo < 2 ^ 64 := mul_lt_of_lt (by omega) (by omega)
  have h1 : u_lo * v_hi < 2 ^ 64 := mul_lt_of_lt (by omega) (by omega)
  have h2 : u_hi * v_lo < 2 ^ 64 := mul_lt_of_lt (by omega) (by omega)
  have h3 : u_hi * v_hi < 2 ^ 64 := mul_lt_of_lt (by omega) (by omega)
  rw [hxeq, hyeq] at hwhole ⊢
  rw [hsplit] at hwhole ⊢
  simp only [mul, UInt64.toNat_add, toNat_hi, toNat_lo, UInt64.toNat_mul, hu_lo, hu_hi, hv_lo,
    hv_hi, Nat.mod_eq_of_lt h0, Nat.mod_eq_of_lt h1, Nat.mod_eq_of_lt h2, Nat.mod_eq_of_lt h3,
    UInt64.reduceToNat]
  omega

theorem mul_e (x y : Diyfp) : (x.mul y).e = x.e + y.e + 64 := rfl

/-! ### Normalizing -/

theorem normalize_loop_eq {x : Diyfp} (hx : x.f ≠ 0) {s : ℕ} (hlow : 2 ^ 63 ≤ x.f.toNat * 2 ^ s)
    (hhigh : x.f.toNat * 2 ^ s < 2 ^ 64) :
    x.normalize_loop hx = ⟨.ofNat (x.f.toNat * 2 ^ s), x.e - s⟩ := by
  induction s generalizing x with
  | zero =>
      rw [pow_zero, Nat.mul_one] at hlow hhigh ⊢
      have hstop : ¬ x.f >>> 63 = 0 := by
        rw [shiftRight_63_eq_zero_iff]
        omega
      rw [normalize_loop, dif_neg hstop, UInt64.ofNat_toNat]
      simp
  | succ s ih =>
      have hgo : x.f >>> 63 = 0 := by
        have hpow : 1 ≤ 2 ^ s := Nat.one_le_two_pow
        rw [shiftRight_63_eq_zero_iff]
        rw [pow_succ] at hhigh
        nlinarith
      have heq : (x.f <<< 1).toNat * 2 ^ s = x.f.toNat * 2 ^ (s + 1) := by
        rw [toNat_shiftLeft_1 hgo, pow_succ']
        ring
      rw [normalize_loop, dif_pos hgo, ih _ (by rwa [heq]) (by rwa [heq])]
      dsimp only
      rw [heq]
      congr 1
      push_cast
      ring

theorem normalize_eq {x : Diyfp} {s : ℕ} (hlow : 2 ^ 63 ≤ x.f.toNat * 2 ^ s)
    (hhigh : x.f.toNat * 2 ^ s < 2 ^ 64) :
    x.normalize = .ok ⟨.ofNat (x.f.toNat * 2 ^ s), x.e - s⟩ := by
  have hx : x.f ≠ 0 := by
    intro h
    rw [h] at hlow
    simp at hlow
  rw [normalize, dif_pos hx, normalize_loop_eq hx hlow hhigh]

theorem normalize_to_eq {x : Diyfp} {s : ℕ} (hs : s < 64) (hhigh : x.f.toNat * 2 ^ s < 2 ^ 64) :
    x.normalize_to (x.e - s) = .ok ⟨.ofNat (x.f.toNat * 2 ^ s), x.e - s⟩ := by
  have hdelta : (x.e - (x.e - s)).toNat = s := by omega
  have hleft := toNat_shiftLeft_ofNat x.f hs hhigh
  have hback : (x.f <<< UInt64.ofNat s) >>> UInt64.ofNat s = x.f := by
    rw [← UInt64.toNat_inj, toNat_shiftRight_ofNat _ hs, hleft]
    exact Nat.mul_div_cancel _ (Nat.two_pow_pos s)
  have hofNat : x.f <<< UInt64.ofNat s = .ofNat (x.f.toNat * 2 ^ s) := by
    rw [← UInt64.toNat_inj, hleft, UInt64.toNat_ofNat_of_lt' hhigh]
  rw [normalize_to, hdelta, json_assert_bind (by omega)]
  dsimp only
  rw [json_assert_bind hback, hofNat]
  rfl

end Diyfp

/-! ### The boundaries -/

/-- How far a quarter of the step of a double is moved up to have the
significands below normalized. -/
def quarterShift (d : Double) : ℕ :=
  61 - Nat.log2 d.significand

theorem quarterShift_bounds {d : Double} (hd : 0 < d.significand) :
    9 ≤ quarterShift d ∧ quarterShift d ≤ 61 ∧
      2 ^ 63 ≤ 4 * d.significand * 2 ^ quarterShift d ∧
      (4 * d.significand + 4) * 2 ^ quarterShift d ≤ 2 ^ 64 := by
  obtain ⟨l, hl⟩ : ∃ l, Nat.log2 d.significand = l := ⟨_, rfl⟩
  have hle : 2 ^ l ≤ d.significand := hl ▸ Nat.log2_self_le hd.ne'
  have hlt : d.significand < 2 ^ (l + 1) := hl ▸ Nat.lt_log2_self
  have hl52 : l < 53 := (Nat.pow_lt_pow_iff_right (by decide)).mp (hle.trans_lt d.significand_lt)
  have hpow : 2 ^ l * 2 ^ (61 - l) = 2 ^ 61 := by
    rw [← pow_add]
    congr 1
    omega
  rw [quarterShift, hl]
  refine ⟨by omega, by omega, ?_, ?_⟩
  · calc 2 ^ 63 = 4 * (2 ^ l * 2 ^ (61 - l)) := by rw [hpow, ← Nat.pow_add 2 2 61]
      _ ≤ 4 * (d.significand * 2 ^ (61 - l)) := by gcongr
      _ = 4 * d.significand * 2 ^ (61 - l) := (Nat.mul_assoc ..).symm
  · calc (4 * d.significand + 4) * 2 ^ (61 - l) = 4 * ((d.significand + 1) * 2 ^ (61 - l)) := by
          ring
      _ ≤ 4 * (2 ^ (l + 1) * 2 ^ (61 - l)) := by
          gcongr
          exact hlt
      _ = 8 * (2 ^ l * 2 ^ (61 - l)) := by ring
      _ = 2 ^ 64 := by rw [hpow, ← Nat.pow_add 2 3 61]

/-- The exponent of all three numbers. -/
def scaledExponent (d : Double) : ℤ :=
  d.exponent - 2 - quarterShift d

/-- A positive double, and the midpoints around it, on one scale. -/
def scaledBoundaries (d : Double) : Boundaries where
  w := ⟨.ofNat (4 * d.significand * 2 ^ quarterShift d), scaledExponent d⟩
  minus := ⟨.ofNat ((4 * d.significand - d.lowerGap) * 2 ^ quarterShift d), scaledExponent d⟩
  plus := ⟨.ofNat ((4 * d.significand + 2) * 2 ^ quarterShift d), scaledExponent d⟩

/-- All three fit into a word. -/
theorem toNat_scaledBoundaries {d : Double} (hd : 0 < d.significand) :
    (scaledBoundaries d).w.f.toNat = 4 * d.significand * 2 ^ quarterShift d ∧
      (scaledBoundaries d).minus.f.toNat =
        (4 * d.significand - d.lowerGap) * 2 ^ quarterShift d ∧
      (scaledBoundaries d).plus.f.toNat = (4 * d.significand + 2) * 2 ^ quarterShift d := by
  obtain ⟨-, -, -, hhigh⟩ := quarterShift_bounds hd
  have hword : ∀ n ≤ 4 * d.significand + 2, (UInt64.ofNat (n * 2 ^ quarterShift d)).toNat =
      n * 2 ^ quarterShift d := by
    intro n hn
    exact UInt64.toNat_ofNat_of_lt' (lt_of_lt_of_le
      (Nat.mul_lt_mul_of_pos_right (by omega) (Nat.two_pow_pos _)) hhigh)
  exact ⟨hword _ (by omega), hword _ (by omega), hword _ (le_refl _)⟩

theorem toNat_biased {d : Double} (hsign : d.signbit = false) :
    (d.bits >>> 52).toNat = d.biased := by
  have hlt : ¬ 2 ^ 63 ≤ d.bits.toNat := of_decide_eq_false hsign
  have hshift := @toNat_shiftRight_ofNat d.bits 52 (by decide)
  unfold Double.biased
  change (d.bits >>> UInt64.ofNat 52).toNat = _
  omega

theorem toNat_fraction (d : Double) : (d.bits &&& (kHiddenBit - 1)).toNat = d.fraction := by
  rw [UInt64.toNat_and]
  exact Nat.and_two_pow_sub_one_eq_mod d.bits.toNat 52

theorem bits_ne_zero {d : Double} (hd : 0 < d.significand) : d.bits ≠ 0 := by
  intro h
  have hbiased : d.biased = 0 := by
    rw [Double.biased, h]
    rfl
  rw [Double.significand, if_pos hbiased, Double.fraction, h] at hd
  exact absurd hd (by decide)

/-- The double as a `diyfp`, from its fields. -/
theorem unpack_eq {d : Double} (hsign : d.signbit = false) :
    (if d.bits >>> 52 = 0 then (⟨d.bits &&& (kHiddenBit - 1), kMinExp⟩ : Diyfp)
      else ⟨(d.bits &&& (kHiddenBit - 1)) + kHiddenBit, (d.bits >>> 52).toNat - kBias⟩) =
        ⟨.ofNat d.significand, d.exponent⟩ := by
  have hbiased := toNat_biased hsign
  have hfraction := toNat_fraction d
  have hfraction_lt := d.fraction_lt
  have hzero : d.bits >>> 52 = 0 ↔ d.biased = 0 := by
    rw [← UInt64.toNat_inj, hbiased]
    rfl
  rw [Double.significand, Double.exponent]
  by_cases h : d.biased = 0
  · rw [if_pos (hzero.mpr h), if_pos h, if_pos h, ← hfraction, UInt64.ofNat_toNat]
    rfl
  · have hadd : ((d.bits &&& (kHiddenBit - 1)) + kHiddenBit) = .ofNat (2 ^ 52 + d.fraction) := by
      rw [← UInt64.toNat_inj, UInt64.toNat_add, hfraction, UInt64.toNat_ofNat_of_lt' (by
        rw [UInt64.size]
        omega)]
      have hhidden : kHiddenBit.toNat = 2 ^ 52 := by decide
      omega
    rw [if_neg (hzero.not.mpr h), if_neg h, if_neg h, hadd, hbiased]
    rfl

section Scaling

variable {f s : ℕ} {e : ℤ}

theorem toNat_ofNat_significand (hf : f < 2 ^ 53) : (UInt64.ofNat f).toNat = f :=
  UInt64.toNat_ofNat_of_lt' (hf.trans (by decide))

theorem normalize_double (hf : f < 2 ^ 53) (hlow : 2 ^ 63 ≤ 4 * f * 2 ^ s)
    (hhigh : (4 * f + 4) * 2 ^ s ≤ 2 ^ 64) :
    (⟨.ofNat f, e⟩ : Diyfp).normalize = .ok ⟨.ofNat (4 * f * 2 ^ s), e - 2 - s⟩ := by
  have hpow := Nat.two_pow_pos s
  have heq : f * 2 ^ (s + 2) = 4 * f * 2 ^ s := by ring
  have he : e - (s + 2 : ℕ) = e - 2 - s := by
    push_cast
    ring
  rw [@Diyfp.normalize_eq _ (s + 2), toNat_ofNat_significand hf, heq, he]
  · rwa [toNat_ofNat_significand hf, heq]
  · rw [toNat_ofNat_significand hf, heq]
    nlinarith

theorem normalize_plus (hf : f < 2 ^ 53) (hlow : 2 ^ 63 ≤ 4 * f * 2 ^ s)
    (hhigh : (4 * f + 4) * 2 ^ s ≤ 2 ^ 64) :
    (⟨2 * .ofNat f + 1, e - 1⟩ : Diyfp).normalize =
      .ok ⟨.ofNat ((4 * f + 2) * 2 ^ s), e - 2 - s⟩ := by
  have hpow := Nat.two_pow_pos s
  have hnat : (2 * UInt64.ofNat f + 1).toNat = 2 * f + 1 := by
    rw [UInt64.toNat_add, UInt64.toNat_mul, toNat_ofNat_significand hf]
    simp only [UInt64.reduceToNat]
    omega
  have heq : (2 * f + 1) * 2 ^ (s + 1) = (4 * f + 2) * 2 ^ s := by ring
  have he : e - 1 - (s + 1 : ℕ) = e - 2 - s := by
    push_cast
    ring
  rw [@Diyfp.normalize_eq _ (s + 1), hnat, heq, he]
  · rw [hnat, heq]
    nlinarith
  · rw [hnat, heq]
    nlinarith

theorem normalize_to_minus {d : Double} (hd : 0 < d.significand) (hs : s ≤ 61)
    (hhigh : (4 * d.significand + 4) * 2 ^ s ≤ 2 ^ 64) :
    (if d.fraction = 0 ∧ 1 < d.biased then (⟨4 * .ofNat d.significand - 1, e - 2⟩ : Diyfp)
      else ⟨2 * .ofNat d.significand - 1, e - 1⟩).normalize_to (e - 2 - s) =
        .ok ⟨.ofNat ((4 * d.significand - d.lowerGap) * 2 ^ s), e - 2 - s⟩ := by
  have hf := d.significand_lt
  have hnat := toNat_ofNat_significand hf
  have hpow := Nat.two_pow_pos s
  unfold Double.lowerGap
  split
  · have hclose : (4 * UInt64.ofNat d.significand - 1).toNat = 4 * d.significand - 1 := by
      rw [UInt64.toNat_sub, UInt64.toNat_mul, hnat]
      simp only [UInt64.reduceToNat]
      omega
    rw [Diyfp.normalize_to_eq (by omega), hclose]
    rw [hclose]
    exact lt_of_lt_of_le (Nat.mul_lt_mul_of_pos_right (by omega) hpow) hhigh
  · have hhalf : (2 * UInt64.ofNat d.significand - 1).toNat = 2 * d.significand - 1 := by
      rw [UInt64.toNat_sub, UInt64.toNat_mul, hnat]
      simp only [UInt64.reduceToNat]
      omega
    have heq : (2 * d.significand - 1) * 2 ^ (s + 1) = (4 * d.significand - 2) * 2 ^ s := by
      have hdouble : 4 * d.significand - 2 = (2 * d.significand - 1) * 2 := by omega
      rw [hdouble, pow_succ']
      ring
    have he : e - 2 - s = e - 1 - (s + 1 : ℕ) := by
      push_cast
      ring
    rw [he, Diyfp.normalize_to_eq (by omega), hhalf, heq]
    rw [hhalf, heq]
    exact lt_of_lt_of_le (Nat.mul_lt_mul_of_pos_right (by omega) hpow) hhigh

end Scaling

theorem compute_boundaries_eq {d : Double} (hsign : d.signbit = false) (hd : 0 < d.significand) :
    compute_boundaries d = .ok (scaledBoundaries d) := by
  obtain ⟨-, hs, hlow, hhigh⟩ := quarterShift_bounds hd
  have hlt := d.significand_lt
  have hone : (1 : UInt64) < d.bits >>> 52 ↔ 1 < d.biased := by
    rw [UInt64.lt_iff_toNat_lt, toNat_biased hsign]
    rfl
  have hzero : d.bits &&& (kHiddenBit - 1) = 0 ↔ d.fraction = 0 := by
    rw [← UInt64.toNat_inj, toNat_fraction]
    rfl
  rw [scaledBoundaries, scaledExponent, compute_boundaries, json_assert_bind ⟨hsign, bits_ne_zero hd⟩]
  dsimp only
  rw [unpack_eq hsign, normalize_plus hlt hlow hhigh, ok_bind]
  simp only [hzero, hone]
  rw [normalize_to_minus hd hs hhigh, ok_bind, normalize_double hlt hlow hhigh]
  rfl

end DtoaImpl

end SyncServiceUi
