/-
SyncServiceUi/Grisu.lean

The digits of a double: `grisu2` (`src/dependencies/json/json.hpp`).

The double and the midpoints around it are multiplied by a power of ten from
the table, so that the exponent is between -60 and -32, and the interval is
made smaller by a unit at each end for what rounding and the table may have
added.  The digits of the upper end are then written to the buffer one by
one, first those of the part before the binary point, with divisions, then
those behind it, with multiplications, until what is left is within the
interval.

Both loops are cuts of one number (`DigitGeneration.Cut`), so they have one
argument.  It gives what the source asserts on the way, at most 17 digits
(`grisu2_digit_gen_spec`), and for the whole a number strictly between the
midpoints (`grisu2_spec`).
-/
import SyncServiceUi.CachedPowers
import SyncServiceUi.DigitGeneration
import SyncServiceUi.IntegerBuffer

namespace SyncServiceUi

namespace DtoaImpl

open Binary64 Serializer DigitGeneration
open Completion (ok_bind)

/-! ### The code -/

/-- `number_buffer[i] = c`. -/
def put (number_buffer : Vector UInt8 64) (i : ℕ) (c : UInt8) : Except Error (Vector UInt8 64) :=
  if h : i < 64 then .ok (number_buffer.set i c) else .error .overflow

/-- The buffer, and how many digits have been written. -/
structure Generated where
  number_buffer : Vector UInt8 64
  length : ℕ

/-- `buffer[length++]`, where `buffer` points into the number buffer. -/
def Generated.push (g : Generated) (buffer d : ℕ) : Except Error Generated := do
  let number_buffer ← put g.number_buffer (buffer + g.length) (digit d)
  return ⟨number_buffer, g.length + 1⟩

theorem Generated.of_push {g g' : Generated} {buffer d : ℕ} (h : g.push buffer d = .ok g') :
    buffer + g.length < 64 ∧ g'.length = g.length + 1 := by
  rw [push, put] at h
  split at h
  next hlt =>
    obtain rfl := Except.ok.inj h
    exact ⟨hlt, rfl⟩
  next => cases h

def find_largest_pow10 (n : UInt32) : ℕ × UInt32 :=
  if 1000000000 ≤ n then (10, 1000000000)
  else if 100000000 ≤ n then (9, 100000000)
  else if 10000000 ≤ n then (8, 10000000)
  else if 1000000 ≤ n then (7, 1000000)
  else if 100000 ≤ n then (6, 100000)
  else if 10000 ≤ n then (5, 10000)
  else if 1000 ≤ n then (4, 1000)
  else if 100 ≤ n then (3, 100)
  else if 10 ≤ n then (2, 10)
  else (1, 1)

/-- The loop of `grisu2_round` on the last digit.  It stops at `'0'` if not
before. -/
def round_loop (dist delta ten_k rest : UInt64) (c : UInt8) : Except Error UInt8 :=
  if rest < dist ∧ ten_k ≤ delta - rest ∧
      (rest + ten_k < dist ∨ rest + ten_k - dist < dist - rest) then
    if c = 0x30 then .error .json_assert
    else round_loop dist delta ten_k (rest + ten_k) (c - 1)
  else .ok c
termination_by (c - 0x30).toNat
decreasing_by
  have hc : c.toNat ≠ 0x30 := fun h => by
    have : c = 0x30 := UInt8.toNat_inj.mp h
    contradiction
  have hlt := c.toNat_lt
  simp only [UInt8.toNat_sub, UInt8.reduceToNat]
  omega

def grisu2_round (g : Generated) (buf : ℕ) (dist delta rest ten_k : UInt64) :
    Except Error Generated := do
  json_assert (1 ≤ g.length)
  json_assert (dist ≤ delta)
  json_assert (rest ≤ delta)
  json_assert (0 < ten_k)
  if h : buf + g.length - 1 < 64 then
    let c ← round_loop dist delta ten_k rest g.number_buffer[buf + g.length - 1]
    return { g with number_buffer := g.number_buffer.set (buf + g.length - 1) c }
  else .error .overflow

/-- `-one.e`, by which a number is shifted to have it in units of `one`. -/
def Diyfp.shift (one : Diyfp) : UInt64 :=
  .ofNat (-one.e).toNat

/-- The digits of the integral part, of which `n` are to come; with the
exponent when they are enough. -/
def integral_loop (buffer : ℕ) (one : Diyfp) (p2 delta dist : UInt64) :
    ℕ → UInt32 → UInt32 → Generated → Except Error (Generated × Option ℕ)
  | 0, _, _, g => .ok (g, none)
  | n + 1, p1, pow10, g => do
      let d := p1 / pow10
      let r := p1 % pow10
      json_assert (d ≤ 9)
      let g ← g.push buffer d.toNat
      let rest := (r.toUInt64 <<< one.shift) + p2
      if rest ≤ delta then
        let g ← grisu2_round g buffer dist delta rest (pow10.toUInt64 <<< one.shift)
        return (g, some n)
      else integral_loop buffer one p2 delta dist n r (pow10 / 10) g

/-- The digits of the fractional part, until they are enough, and the rounding
behind the loop. -/
def fraction_loop (buffer : ℕ) (one : Diyfp) (p2 delta dist : UInt64) (m : ℕ) (g : Generated) :
    Except Error (Generated × ℕ) := do
  json_assert (p2 ≤ 0xFFFFFFFFFFFFFFFF / 10)
  let p2 := p2 * 10
  let d := p2 >>> one.shift
  let r := p2 &&& (one.f - 1)
  json_assert (d ≤ 9)
  match h : g.push buffer d.toNat with
  | .error e => .error e
  | .ok g' =>
      let delta := delta * 10
      let dist := dist * 10
      if r ≤ delta then do
        let g' ← grisu2_round g' buffer dist delta r one.f
        return (g', m + 1)
      else fraction_loop buffer one r delta dist (m + 1) g'
termination_by 64 - (buffer + g.length)
decreasing_by
  obtain ⟨hlt, hlength⟩ := g.of_push h
  omega

/-- `grisu2_digit_gen` with its numbers in units of `one`: `f` is the upper end
of the interval. -/
def generate (g : Generated) (buffer : ℕ) (decimal_exponent : ℤ) (one : Diyfp)
    (f delta dist : UInt64) : Except Error (Generated × ℤ) := do
  let p1 := (f >>> one.shift).toUInt32
  let p2 := f &&& (one.f - 1)
  json_assert (0 < p1)
  let (k, pow10) := find_largest_pow10 p1
  match ← integral_loop buffer one p2 delta dist k p1 pow10 g with
  | (g, some n) => return (g, decimal_exponent + n)
  | (g, none) => do
      json_assert (delta < p2)
      let (g, m) ← fraction_loop buffer one p2 delta dist 0 g
      return (g, decimal_exponent - m)

def grisu2_digit_gen (g : Generated) (buffer : ℕ) (decimal_exponent : ℤ) (M_minus w M_plus : Diyfp) :
    Except Error (Generated × ℤ) := do
  json_assert (kAlpha ≤ M_plus.e)
  json_assert (M_plus.e ≤ kGamma)
  let delta ← M_plus.sub M_minus
  let dist ← M_plus.sub w
  let one : Diyfp := ⟨(1 : UInt64) <<< UInt64.ofNat (-M_plus.e).toNat, M_plus.e⟩
  generate g buffer decimal_exponent one M_plus.f delta.f dist.f

/-- `grisu2` of a double and the midpoints around it. -/
def grisu2_scaled (g : Generated) (buf : ℕ) (b : Boundaries) : Except Error (Generated × ℤ) := do
  json_assert (b.plus.e = b.minus.e)
  json_assert (b.plus.e = b.w.e)
  let cached ← get_cached_power_for_binary_exponent b.plus.e
  let c_minus_k : Diyfp := ⟨cached.f, cached.e⟩
  let w := b.w.mul c_minus_k
  let w_minus := b.minus.mul c_minus_k
  let w_plus := b.plus.mul c_minus_k
  grisu2_digit_gen g buf (-cached.k) ⟨w_minus.f + 1, w_minus.e⟩ w ⟨w_plus.f - 1, w_plus.e⟩

/-- `grisu2` of a double; that it is finite is part of its type. -/
def grisu2 (g : Generated) (buf : ℕ) (value : Double) : Except Error (Generated × ℤ) := do
  json_assert (value.signbit = false ∧ value.bits ≠ 0)
  let b ← compute_boundaries value
  grisu2_scaled g buf b

/-! ### The buffer -/

/-- Behind the bytes `pre`, the buffer holds these digits. -/
structure Generated.Holds (g : Generated) (pre : Bytes) (ds : List ℕ) : Prop where
  length : g.length = ds.length
  text : pre ++ ds.map digit <+: g.number_buffer.toList

theorem prefix_set {text l : Bytes} {c : UInt8} (h : text <+: l) (hlt : text.length < l.length) :
    text ++ [c] <+: l.set text.length c := by
  obtain ⟨rest, rfl⟩ := h
  rcases rest with - | ⟨c', rest⟩
  · simp at hlt
  · refine ⟨rest, ?_⟩
    rw [List.set_append_right _ _ (le_refl _), Nat.sub_self]
    simp

/-- From a buffer with the digits `ds` the code returns, with the digits `ds'`
in the buffer it leaves and with `r` of that. -/
def Takes {β : Type} (pre : Bytes) (ds ds' : List ℕ) (run : Generated → Except Error β)
    (r : Generated → β) : Prop :=
  ∀ g, g.Holds pre ds → ∃ g', run g = .ok (r g') ∧ g'.Holds pre ds'

section Takes

variable {β : Type} {pre : Bytes} {ds ds₁ ds₂ : List ℕ} {run run' : Generated → Except Error β}
  {r : Generated → β}

theorem takes_ok : Takes pre ds ds (fun g => .ok (r g)) r := by
  intro g hg
  exact ⟨g, rfl, hg⟩

theorem Takes.bind {first : Generated → Except Error Generated} (h : Takes pre ds ds₁ first id)
    (h' : Takes pre ds₁ ds₂ run r) : Takes pre ds ds₂ (fun g => first g >>= run) r := by
  intro g hg
  obtain ⟨g₁, hfirst, hg₁⟩ := h g hg
  obtain ⟨g₂, hrun, hg₂⟩ := h' g₁ hg₁
  refine ⟨g₂, ?_, hg₂⟩
  dsimp only
  rw [hfirst]
  exact hrun

theorem Takes.of_eq (h : Takes pre ds ds₁ run r) (heq : ∀ g, run' g = run g) :
    Takes pre ds ds₁ run' r := by
  rwa [← funext heq] at h

theorem takes_push {d : ℕ} (hroom : pre.length + ds.length < 64) :
    Takes pre ds (ds ++ [d]) (fun g => g.push pre.length d) id := by
  intro g hg
  have hlt : pre.length + g.length < 64 := by
    rw [hg.length]
    exact hroom
  refine ⟨⟨g.number_buffer.set (pre.length + g.length) (digit d), g.length + 1⟩, ?_, ?_, ?_⟩
  · dsimp only
    rw [Generated.push, put, dif_pos hlt]
    rfl
  · show g.length + 1 = (ds ++ [d]).length
    rw [List.length_append, List.length_singleton, hg.length]
  · have hset := @prefix_set _ _ (digit d) hg.text (by
      rw [Vector.length_toList, List.length_append, List.length_map]
      exact hroom)
    rw [List.length_append, List.length_map, ← hg.length] at hset
    rw [Vector.toList_set, List.map_append, ← List.append_assoc]
    exact hset

end Takes

/-! ### Rounding -/

theorem toNat_digit {d : ℕ} (hd : d < 10) : (digit d).toNat = 0x30 + d := by
  rw [digit, UInt8.toNat_ofNat']
  exact Nat.mod_eq_of_lt (by omega)

/-- The loop takes some units off the last digit, and leaves the interval by
no more than it may. -/
theorem round_loop_spec {dist delta ten_k : UInt64} (d : ℕ) {rest : UInt64} (hd : d < 10)
    (hrest : rest.toNat ≤ delta.toNat) (hopen : delta.toNat < d * ten_k.toNat + rest.toNat) :
    ∃ j < d, round_loop dist delta ten_k rest (digit d) = .ok (digit (d - j)) ∧
      rest.toNat + j * ten_k.toNat ≤ delta.toNat := by
  induction d generalizing rest with
  | zero => omega
  | succ d ih =>
      rw [round_loop]
      split
      next hcond =>
        have hten := UInt64.le_iff_toNat_le.mp hcond.2.1
        rw [UInt64.toNat_sub_of_le _ _ (UInt64.le_iff_toNat_le.mpr hrest)] at hten
        have hdelta := delta.toNat_lt
        have hadd : (rest + ten_k).toNat = rest.toNat + ten_k.toNat := by
          rw [UInt64.toNat_add]
          exact Nat.mod_eq_of_lt (by omega)
        have hchar : digit (d + 1) ≠ 0x30 := by
          rw [← UInt8.toNat_inj.ne, toNat_digit hd]
          simp
        have hpred : digit (d + 1) - 1 = digit d := by
          rw [← UInt8.toNat_inj, UInt8.toNat_sub, toNat_digit hd, toNat_digit (by omega)]
          simp only [UInt8.reduceToNat]
          omega
        rw [add_mul, one_mul] at hopen
        obtain ⟨j, hj, hloop, hle⟩ := @ih (rest + ten_k) (by omega) (by omega) (by omega)
        refine ⟨j + 1, by omega, ?_, ?_⟩
        · rw [if_neg hchar, hpred, hloop, Nat.succ_sub_succ]
        · rw [add_mul, one_mul]
          omega
      next => exact ⟨0, by omega, rfl, by omega⟩

theorem grisu2_round_spec {pre : Bytes} {ds : List ℕ} {d : ℕ} {dist delta rest ten_k : UInt64}
    (hd : d < 10) (hdist : dist ≤ delta) (hrest : rest ≤ delta) (hten : 0 < ten_k)
    (hopen : delta.toNat < d * ten_k.toNat + rest.toNat) :
    ∃ j < d, Takes pre (ds ++ [d]) (ds ++ [d - j])
        (fun g => grisu2_round g pre.length dist delta rest ten_k) id ∧
      rest.toNat + j * ten_k.toNat ≤ delta.toNat := by
  obtain ⟨j, hj, hloop, hle⟩ :=
    @round_loop_spec dist delta ten_k d rest hd (UInt64.le_iff_toNat_le.mp hrest) hopen
  refine ⟨j, hj, ?_, hle⟩
  intro g h
  have hlength : g.length = ds.length + 1 := by
    rw [h.length, List.length_append, List.length_singleton]
  have htext := h.text
  rw [List.map_append, ← List.append_assoc] at htext
  have hbound := htext.length_le
  rw [Vector.length_toList, List.length_append, List.length_append, List.length_map,
    List.length_map, List.length_singleton] at hbound
  have hindex : pre.length + g.length - 1 = (pre ++ ds.map digit).length := by
    rw [hlength, List.length_append, List.length_map]
    rfl
  have hlt : pre.length + g.length - 1 < 64 := by omega
  have hget : g.number_buffer[pre.length + g.length - 1] = digit d := by
    obtain ⟨more, hmore⟩ := htext
    have hlist := @Vector.getElem_toList _ _ g.number_buffer (pre.length + g.length - 1) (by
      rw [Vector.length_toList]
      exact hlt)
    rw [← hlist]
    simp only [← hmore, hindex]
    simp
  obtain ⟨number_buffer, hbuffer⟩ :
      ∃ b, g.number_buffer.set (pre.length + g.length - 1) (digit (d - j)) = b := ⟨_, rfl⟩
  refine ⟨⟨number_buffer, g.length⟩, ?_, ?_, ?_⟩
  · dsimp only
    rw [grisu2_round, json_assert_bind (by omega), json_assert_bind hdist, json_assert_bind hrest,
      json_assert_bind hten, dif_pos hlt, hget, hloop, ← hbuffer]
    rfl
  · rw [List.length_append, List.length_singleton]
    exact hlength
  · have hset := @prefix_set (pre ++ ds.map digit) g.number_buffer.toList (digit (d - j))
      ((List.prefix_append _ _).trans htext) (by
        rw [Vector.length_toList, List.length_append, List.length_map]
        omega)
    rw [← hbuffer, Vector.toList_set, List.map_append, ← List.append_assoc, hindex]
    exact hset

/-! ### The integral part -/

/-- `one` is `2 ^ sh` in the units of the significands. -/
structure Diyfp.IsOne (one : Diyfp) (sh : ℕ) : Prop where
  f : one.f.toNat = 2 ^ sh
  shift : one.shift = .ofNat sh
  le : 32 ≤ sh
  ge : sh ≤ 60

namespace Diyfp.IsOne

variable {one : Diyfp} {sh : ℕ}

theorem toNat_div (h : one.IsOne sh) (x : UInt64) : (x >>> one.shift).toNat = x.toNat / 2 ^ sh := by
  have hge := h.ge
  rw [h.shift]
  exact toNat_shiftRight_ofNat x (by omega)

theorem toNat_mod (h : one.IsOne sh) (x : UInt64) :
    (x &&& (one.f - 1)).toNat = x.toNat % 2 ^ sh := by
  have hpow := Nat.two_pow_pos sh
  have hsub : (one.f - 1).toNat = 2 ^ sh - 1 := by
    rw [UInt64.toNat_sub_of_le _ _ (by
      rw [UInt64.le_iff_toNat_le, h.f]
      exact hpow), h.f]
    rfl
  rw [UInt64.toNat_and, hsub]
  exact Nat.and_two_pow_sub_one_eq_mod x.toNat sh

theorem toNat_shift (h : one.IsOne sh) {x : UInt32} (hx : x.toNat * 2 ^ sh < 2 ^ 64) :
    (x.toUInt64 <<< one.shift).toNat = x.toNat * 2 ^ sh := by
  have hge := h.ge
  rw [h.shift, toNat_shiftLeft_ofNat _ (by omega) (by rwa [UInt32.toNat_toUInt64]),
    UInt32.toNat_toUInt64]

end Diyfp.IsOne

section Loops

variable {pre : Bytes} {one : Diyfp} {sh : ℕ}

/-- One digit of the integral part. -/
theorem Cut.integral {M : ℚ} {P n p2 : ℕ} {ds : List ℕ} (hp2 : p2 < 2 ^ sh)
    (h : Cut M (10 ^ (n + 1) * 2 ^ sh) (P * 2 ^ sh + p2) ds) :
    Cut M (10 ^ n * 2 ^ sh) ((P % 10 ^ n : ℕ) * 2 ^ sh + p2) (ds ++ [P / 10 ^ n]) := by
  have hunit : (10 : ℚ) ^ (n + 1) * 2 ^ sh = 10 * (10 ^ n * 2 ^ sh) := by ring
  rw [hunit] at h
  refine h.push ?_ (by positivity) ?_
  · have hsplit : (P : ℚ) = (P / 10 ^ n : ℕ) * 10 ^ n + (P % 10 ^ n : ℕ) := by
      have hnat := Nat.div_add_mod' P (10 ^ n)
      exact_mod_cast hnat.symm
    rw [hsplit]
    ring
  · have hmod : P % 10 ^ n < 10 ^ n := Nat.mod_lt _ (by positivity)
    have hle := Nat.mul_le_mul_right (2 ^ sh) (Nat.succ_le_of_lt hmod)
    rw [Nat.succ_mul] at hle
    have hlt : P % 10 ^ n * 2 ^ sh + p2 < 10 ^ n * 2 ^ sh := by omega
    exact_mod_cast hlt

/-- The digits of the integral part: all of them are written and more is left
than the tolerance, or the number is close enough before. -/
theorem integral_loop_spec (hone : one.IsOne sh) (hpre : pre.length + 17 ≤ 64) {M : ℕ}
    {p2 delta dist : UInt64} (hM : M < 2 ^ 64) (hp2 : p2.toNat < 2 ^ sh) (hdist : dist ≤ delta)
    (htol : (M : ℚ) ≤ 10 ^ 16 * delta.toNat) (n : ℕ) {p1 pow10 : UInt32} {ds : List ℕ}
    (hpow10 : pow10.toNat = 10 ^ n / 10)
    (hcut : Cut (M : ℚ) (10 ^ n * 2 ^ sh) (p1.toNat * 2 ^ sh + p2.toNat) ds)
    (hopen : delta.toNat < p1.toNat * 2 ^ sh + p2.toNat) :
    ∃ ds', Takes pre ds ds' (integral_loop pre.length one p2 delta dist n p1 pow10) (·, none) ∧
        Cut (M : ℚ) (2 ^ sh) p2.toNat ds' ∧ delta.toNat < p2.toNat ∨
      ∃ z < n, Takes pre ds ds' (integral_loop pre.length one p2 delta dist n p1 pow10)
          (·, some z) ∧
        ds'.length ≤ 17 ∧ Written (M - delta.toNat : ℚ) M (10 ^ z * 2 ^ sh) ds' := by
  induction n generalizing p1 pow10 ds with
  | zero =>
      rw [pow_zero, one_mul] at hcut
      have hlt := hcut.lt
      norm_cast at hlt
      have hzero : p1.toNat = 0 := by
        rcases Nat.eq_zero_or_pos p1.toNat with h | h
        · exact h
        · have := Nat.le_mul_of_pos_left (2 ^ sh) h
          omega
      rw [hzero, Nat.zero_mul, Nat.zero_add] at hopen
      rw [hzero, Nat.cast_zero, zero_mul, zero_add] at hcut
      exact ⟨ds, .inl ⟨takes_ok, hcut, hopen⟩⟩
  | succ n ih =>
      rw [pow_succ, Nat.mul_div_cancel _ (by decide)] at hpow10
      obtain ⟨d, hd⟩ : ∃ d, p1.toNat / 10 ^ n = d := ⟨_, rfl⟩
      obtain ⟨r, hr⟩ : ∃ r, p1.toNat % 10 ^ n = r := ⟨_, rfl⟩
      have hsplit : p1.toNat = d * 10 ^ n + r := by
        rw [← hd, ← hr]
        exact (Nat.div_add_mod' _ _).symm
      have hcut' := Cut.integral hp2 hcut
      rw [hd, hr] at hcut'
      have hd9 : d < 10 := hcut'.digit d (List.mem_append_right _ (List.mem_singleton_self d))
      have hlength : ds.length ≤ 16 := hcut.length_le (by exact_mod_cast hopen) htol
      -- what is left fits into a word, and so does a unit
      have hrest_le : r * 2 ^ sh + p2.toNat ≤ M := by exact_mod_cast hcut'.rest_le
      have hunit_le : 10 ^ n * 2 ^ sh ≤ M := by exact_mod_cast hcut'.unit_le
      have hdn : (p1 / pow10).toNat = d := by
        rw [UInt32.toNat_div, hpow10, hd]
      have hrn : (p1 % pow10).toNat = r := by
        rw [UInt32.toNat_mod, hpow10, hr]
      have hrest : ((p1 % pow10).toUInt64 <<< one.shift + p2).toNat = r * 2 ^ sh + p2.toNat := by
        rw [UInt64.toNat_add, hone.toNat_shift (by rw [hrn]; omega), hrn]
        exact Nat.mod_eq_of_lt (by omega)
      have hten : (pow10.toUInt64 <<< one.shift).toNat = 10 ^ n * 2 ^ sh := by
        rw [hone.toNat_shift (by rw [hpow10]; omega), hpow10]
      have hassert : p1 / pow10 ≤ 9 := by
        rw [UInt32.le_iff_toNat_le, hdn]
        exact Nat.le_of_lt_succ hd9
      have hpush : Takes pre ds (ds ++ [d]) (fun g => g.push pre.length d) id :=
        takes_push (by omega)
      have hround : ∀ g, integral_loop pre.length one p2 delta dist (n + 1) p1 pow10 g =
          g.push pre.length d >>= fun g =>
            if (p1 % pow10).toUInt64 <<< one.shift + p2 ≤ delta then
              grisu2_round g pre.length dist delta ((p1 % pow10).toUInt64 <<< one.shift + p2)
                (pow10.toUInt64 <<< one.shift) >>= fun g => .ok (g, some n)
            else integral_loop pre.length one p2 delta dist n (p1 % pow10) (pow10 / 10) g := by
        intro g
        rw [integral_loop, json_assert_bind hassert, hdn]
        rfl
      by_cases hstop : (p1 % pow10).toUInt64 <<< one.shift + p2 ≤ delta
      · simp only [if_pos hstop] at hround
        obtain ⟨j, hj, htakes, hle⟩ := @grisu2_round_spec pre ds d dist delta _ _ hd9 hdist hstop
          (by
            rw [UInt64.lt_iff_toNat_lt, hten]
            exact Nat.mul_pos (by positivity) (by positivity))
          (by
            rw [hten, hrest]
            rw [hsplit, Nat.add_mul, Nat.mul_assoc] at hopen
            omega)
        rw [hten, hrest] at hle
        refine ⟨_, .inr ⟨n, n.lt_succ_self, (hpush.bind (htakes.bind takes_ok)).of_eq hround,
          ?_, ?_⟩⟩
        · rw [List.length_append, List.length_singleton]
          omega
        · exact hcut'.lower hj (by exact_mod_cast hle)
      · simp only [if_neg hstop] at hround
        rw [UInt64.le_iff_toNat_le, hrest, not_le] at hstop
        obtain ⟨ds', ⟨hall, hrest'⟩ | ⟨z, hz, hsome, hrest'⟩⟩ :=
          @ih (p1 % pow10) (pow10 / 10) _ (by rw [UInt32.toNat_div, hpow10]; rfl)
            (by rwa [hrn]) (by rwa [hrn])
        · exact ⟨ds', .inl ⟨(hpush.bind hall).of_eq hround, hrest'⟩⟩
        · exact ⟨ds', .inr ⟨z, Nat.lt_succ_of_lt hz, (hpush.bind hsome).of_eq hround, hrest'⟩⟩

/-! ### The fractional part -/

/-- One digit of the fractional part; all is counted in a unit ten times
smaller. -/
theorem Cut.fraction {M : ℚ} {p2 : ℕ} {ds : List ℕ} (h : Cut M (2 ^ sh) p2 ds) :
    Cut (10 * M) (2 ^ sh) (p2 * 10 % 2 ^ sh : ℕ) (ds ++ [p2 * 10 / 2 ^ sh]) := by
  refine (h.scale (by norm_num)).push ?_ (Nat.cast_nonneg _) ?_
  · have hnat := Nat.div_add_mod' (p2 * 10) (2 ^ sh)
    rw [mul_comm]
    exact_mod_cast hnat.symm
  · have hmod : p2 * 10 % 2 ^ sh < 2 ^ sh := Nat.mod_lt _ (Nat.two_pow_pos sh)
    exact_mod_cast hmod

/-- The digits of the fractional part.  `i` more of them are enough, and with
so many the number and the tolerance have become `10 ^ i` times as large. -/
theorem fraction_loop_spec (hone : one.IsOne sh) (hpre : pre.length + 17 ≤ 64) (k : ℕ) {M : ℚ}
    {p2 delta dist : UInt64} {m : ℕ} {ds : List ℕ} (hk : ds.length + k = 17)
    (hcut : Cut M (2 ^ sh) p2.toNat ds) (hdist : dist ≤ delta)
    (htol : M ≤ 10 ^ 16 * delta.toNat) (hopen : delta.toNat < p2.toNat) :
    ∃ ds' i, Takes pre ds ds' (fraction_loop pre.length one p2 delta dist m) (·, m + i) ∧
      i ≤ k ∧ ds'.length ≤ 17 ∧
      Written (10 ^ i * (M - delta.toNat)) (10 ^ i * M) (2 ^ sh) ds' := by
  induction k generalizing M p2 delta dist m ds with
  | zero =>
      have hlength : ds.length ≤ 16 := hcut.length_le (by exact_mod_cast hopen) htol
      omega
  | succ k ih =>
      obtain ⟨d, hd⟩ : ∃ d, p2.toNat * 10 / 2 ^ sh = d := ⟨_, rfl⟩
      obtain ⟨r, hr⟩ : ∃ r, p2.toNat * 10 % 2 ^ sh = r := ⟨_, rfl⟩
      have hsplit : p2.toNat * 10 = d * 2 ^ sh + r := by
        rw [← hd, ← hr]
        exact (Nat.div_add_mod' _ _).symm
      have hcut' := Cut.fraction hcut
      rw [hd, hr] at hcut'
      have hd9 : d < 10 := hcut'.digit d (List.mem_append_right _ (List.mem_singleton_self d))
      -- nothing overflows: the unit is not above `2 ^ 60`
      have hp2 : p2.toNat < 2 ^ 60 := by
        have hlt : p2.toNat < 2 ^ sh := by exact_mod_cast hcut.lt
        exact hlt.trans_le (Nat.pow_le_pow_right (by decide) hone.ge)
      have hdist' := UInt64.le_iff_toNat_le.mp hdist
      have hp10 : (p2 * 10).toNat = p2.toNat * 10 := by
        rw [UInt64.toNat_mul]
        exact Nat.mod_eq_of_lt (by simp only [UInt64.reduceToNat]; omega)
      have hdelta10 : (delta * 10).toNat = delta.toNat * 10 := by
        rw [UInt64.toNat_mul]
        exact Nat.mod_eq_of_lt (by simp only [UInt64.reduceToNat]; omega)
      have hdist10 : (dist * 10).toNat = dist.toNat * 10 := by
        rw [UInt64.toNat_mul]
        exact Nat.mod_eq_of_lt (by simp only [UInt64.reduceToNat]; omega)
      have hdn : ((p2 * 10) >>> one.shift).toNat = d := by
        rw [hone.toNat_div, hp10, hd]
      have hrn : (p2 * 10 &&& (one.f - 1)).toNat = r := by
        rw [hone.toNat_mod, hp10, hr]
      have hmax : p2 ≤ 0xFFFFFFFFFFFFFFFF / 10 := by
        rw [UInt64.le_iff_toNat_le]
        simp only [UInt64.toNat_div, UInt64.reduceToNat]
        omega
      have hassert : (p2 * 10) >>> one.shift ≤ 9 := by
        rw [UInt64.le_iff_toNat_le, hdn]
        exact Nat.le_of_lt_succ hd9
      have hdist'' : dist * 10 ≤ delta * 10 := by
        rw [UInt64.le_iff_toNat_le, hdist10, hdelta10]
        omega
      have hpush : Takes pre ds (ds ++ [d]) (fun g => g.push pre.length d) id :=
        takes_push (by omega)
      have hround : ∀ g, fraction_loop pre.length one p2 delta dist m g =
          g.push pre.length d >>= fun g =>
            if p2 * 10 &&& (one.f - 1) ≤ delta * 10 then
              grisu2_round g pre.length (dist * 10) (delta * 10) (p2 * 10 &&& (one.f - 1)) one.f >>=
                fun g => .ok (g, m + 1)
            else
              fraction_loop pre.length one (p2 * 10 &&& (one.f - 1)) (delta * 10) (dist * 10)
                (m + 1) g := by
        intro g
        rw [fraction_loop, json_assert_bind hmax]
        dsimp only
        rw [json_assert_bind hassert, hdn]
        split
        next e he =>
          rw [he]
          rfl
        next g' he =>
          rw [he]
          rfl
      by_cases hstop : p2 * 10 &&& (one.f - 1) ≤ delta * 10
      · simp only [if_pos hstop] at hround
        obtain ⟨j, hj, htakes, hle⟩ := @grisu2_round_spec pre ds d _ _ _ _ hd9 hdist'' hstop
          (by
            rw [UInt64.lt_iff_toNat_lt, hone.f]
            exact Nat.two_pow_pos sh)
          (by
            rw [hone.f, hrn, hdelta10]
            omega)
        rw [hone.f, hrn, hdelta10] at hle
        refine ⟨_, 1, (hpush.bind (htakes.bind takes_ok)).of_eq hround, Nat.le_add_left 1 k, ?_, ?_⟩
        · rw [List.length_append, List.length_singleton]
          omega
        · have hle' : (r : ℚ) + j * 2 ^ sh ≤ 10 * delta.toNat := by
            rw [mul_comm (10 : ℚ)]
            exact_mod_cast hle
          rw [pow_one, mul_sub]
          exact hcut'.lower hj hle'
      · simp only [if_neg hstop] at hround
        rw [UInt64.le_iff_toNat_le, hrn, not_le] at hstop
        obtain ⟨ds', i, hloop, hi, hlen, hwritten⟩ :=
          @ih (10 * M) (p2 * 10 &&& (one.f - 1)) (delta * 10) (dist * 10) (m + 1) (ds ++ [d]) (by
            rw [List.length_append, List.length_singleton]
            omega) (by rwa [hrn]) hdist'' (by
            rw [hdelta10]
            push_cast
            linarith) (by rwa [hrn])
        rw [Nat.add_assoc, Nat.add_comm 1 i] at hloop
        refine ⟨ds', i + 1, (hpush.bind hloop).of_eq hround, Nat.succ_le_succ hi, hlen, ?_⟩
        rw [hdelta10, Nat.cast_mul] at hwritten
        have hlow : (10 : ℚ) ^ i * (10 * M - delta.toNat * (10 : ℕ)) =
            10 ^ (i + 1) * (M - delta.toNat) := by
          push_cast
          ring
        have hhigh : (10 : ℚ) ^ i * (10 * M) = 10 ^ (i + 1) * M := by ring
        rwa [hlow, hhigh] at hwritten

/-! ### All the digits -/

theorem find_largest_pow10_spec {n : UInt32} (hn : 0 < n.toNat) :
    ∃ k pow10, find_largest_pow10 n = (k, pow10) ∧ k ≤ 10 ∧ pow10.toNat = 10 ^ k / 10 ∧
      10 ^ k ≤ n.toNat * 10 ∧ n.toNat < 10 ^ k := by
  have hlt := n.toNat_lt
  unfold find_largest_pow10
  simp only [UInt32.le_iff_toNat_le, UInt32.reduceToNat]
  split_ifs <;> refine ⟨_, _, rfl, by decide, by decide, ?_, ?_⟩ <;> norm_num <;> omega

theorem sub_eq {x y : Diyfp} (he : x.e = y.e) (hle : y.f ≤ x.f) :
    ∃ z, x.sub y = .ok z ∧ z.f.toNat = x.f.toNat - y.f.toNat := by
  refine ⟨⟨x.f - y.f, x.e⟩, ?_, UInt64.toNat_sub_of_le _ _ hle⟩
  rw [Diyfp.sub, json_assert_bind he, json_assert_bind hle]
  rfl

theorem isOne_one {sh : ℕ} {e : ℤ} (he : e = -sh) (hle : 32 ≤ sh) (hge : sh ≤ 60) :
    (⟨(1 : UInt64) <<< UInt64.ofNat (-e).toNat, e⟩ : Diyfp).IsOne sh := by
  have hneg : (-e).toNat = sh := by omega
  have hpow : 2 ^ sh ≤ 2 ^ 60 := Nat.pow_le_pow_right (by decide) hge
  refine ⟨?_, by rw [Diyfp.shift, hneg], hle, hge⟩
  dsimp only
  rw [hneg, toNat_shiftLeft_ofNat _ (by omega)]
  · exact Nat.one_mul _
  · have hone : (1 : UInt64).toNat = 1 := rfl
    rw [hone]
    omega

/-- The digits of a number, as many as it takes to come within the tolerance:
17 at most, and no assertion fails. -/
theorem generate_spec (hone : one.IsOne sh) (hpre : pre.length + 17 ≤ 64) (decimal_exponent : ℤ)
    {f delta dist : UInt64} (hdist : dist ≤ delta) (hdelta : delta < f) (hlarge : 2 ^ 60 ≤ f.toNat)
    (htol : f.toNat ≤ 10 ^ 16 * delta.toNat) :
    ∃ ds z, Takes pre [] ds (generate · pre.length decimal_exponent one f delta dist)
        (·, decimal_exponent + z) ∧ ds.length ≤ 17 ∧ -17 ≤ z ∧ z ≤ 9 ∧
      Written (f.toNat - delta.toNat : ℚ) f.toNat (10 ^ z * 2 ^ sh) ds := by
  obtain ⟨M, hM⟩ : ∃ M, f.toNat = M := ⟨_, rfl⟩
  have hM64 : M < 2 ^ 64 := hM ▸ f.toNat_lt
  rw [UInt64.lt_iff_toNat_lt] at hdelta
  rw [hM] at hdelta hlarge htol ⊢
  have htol' : (M : ℚ) ≤ 10 ^ 16 * delta.toNat := by exact_mod_cast htol
  -- the two parts
  have hpow32 : 2 ^ 32 ≤ 2 ^ sh := Nat.pow_le_pow_right (by decide) hone.le
  have hpow60 : 2 ^ sh ≤ 2 ^ 60 := Nat.pow_le_pow_right (by decide) hone.ge
  have hdiv : M / 2 ^ sh < 2 ^ 32 := by
    rw [Nat.div_lt_iff_lt_mul (by positivity)]
    omega
  have hp1 : (f >>> one.shift).toUInt32.toNat = M / 2 ^ sh := by
    rw [UInt64.toNat_toUInt32, hone.toNat_div, hM]
    exact Nat.mod_eq_of_lt hdiv
  have hp2 : (f &&& (one.f - 1)).toNat = M % 2 ^ sh := by
    rw [hone.toNat_mod, hM]
  have hp2_lt : M % 2 ^ sh < 2 ^ sh := Nat.mod_lt _ (Nat.two_pow_pos sh)
  have hp1_pos : 0 < M / 2 ^ sh := Nat.div_pos (by omega) (Nat.two_pow_pos sh)
  have hsplit := Nat.div_add_mod' M (2 ^ sh)
  obtain ⟨k, pow10, hfind, hk, hpow10, hk_low, hk_high⟩ :=
    find_largest_pow10_spec (hp1 ▸ hp1_pos)
  rw [hp1] at hk_low hk_high
  have hcut : Cut (M : ℚ) (10 ^ k * 2 ^ sh) ((M / 2 ^ sh : ℕ) * 2 ^ sh + (M % 2 ^ sh : ℕ)) [] := by
    have hsum : ((M / 2 ^ sh : ℕ) : ℚ) * 2 ^ sh + (M % 2 ^ sh : ℕ) = M := by exact_mod_cast hsplit
    rw [hsum]
    refine Cut.start (Nat.cast_nonneg _) ?_ ?_
    · have hnat : M < 10 ^ k * 2 ^ sh := by
        rw [← Nat.div_lt_iff_lt_mul (Nat.two_pow_pos sh)]
        exact hk_high
      exact_mod_cast hnat
    · have hnat : 10 ^ k * 2 ^ sh ≤ 10 * M := by
        have hmul := Nat.mul_le_mul_right (2 ^ sh) hk_low
        rw [Nat.mul_right_comm] at hmul
        omega
      exact_mod_cast hnat
  have hopen : delta.toNat < M / 2 ^ sh * 2 ^ sh + M % 2 ^ sh := by
    rw [hsplit]
    exact hdelta
  rw [← hp1, ← hp2] at hcut hopen
  have hgenerate : ∀ g, generate g pre.length decimal_exponent one f delta dist =
      integral_loop pre.length one (f &&& (one.f - 1)) delta dist k (f >>> one.shift).toUInt32
        pow10 g >>= fun p =>
          match p with
          | (g, some n) => .ok (g, decimal_exponent + n)
          | (g, none) => do
              json_assert (delta < f &&& (one.f - 1))
              let (g, m) ← fraction_loop pre.length one (f &&& (one.f - 1)) delta dist 0 g
              return (g, decimal_exponent - m) := by
    intro g
    rw [generate]
    dsimp only
    rw [json_assert_bind (by rw [UInt32.lt_iff_toNat_lt, hp1]; exact hp1_pos), hfind]
    rfl
  obtain ⟨ds, ⟨hloop, hcut', hopen'⟩ | ⟨z, hz, hloop, hlength, hwritten⟩⟩ :=
    integral_loop_spec hone hpre hM64 (by rw [hp2]; exact hp2_lt) hdist htol' k hpow10 hcut hopen
  · have hlength : ds.length ≤ 16 := hcut'.length_le (by exact_mod_cast hopen') htol'
    obtain ⟨ds', i, hloop', hi, hlength', hwritten⟩ :=
      @fraction_loop_spec _ _ _ hone hpre (17 - ds.length) M _ _ _ 0 _ (by omega) hcut' hdist
        htol' hopen'
    refine ⟨ds', -i, ?_, hlength', by omega, by omega, ?_⟩
    · intro g hg
      obtain ⟨g', hintegral, hg'⟩ := hloop g hg
      obtain ⟨g'', hfraction, hg''⟩ := hloop' g' hg'
      refine ⟨g'', ?_, hg''⟩
      dsimp only
      rw [hgenerate, hintegral, ok_bind]
      dsimp only
      rw [json_assert_bind (UInt64.lt_iff_toNat_lt.mpr hopen'), hfraction, ok_bind, Nat.zero_add]
      rfl
    · have hscaled := hwritten.scale (show (0 : ℚ) < (10 ^ i)⁻¹ by positivity)
      have hten : (10 : ℚ) ^ i ≠ 0 := by positivity
      rw [inv_mul_cancel_left₀ hten, inv_mul_cancel_left₀ hten] at hscaled
      rw [zpow_neg, zpow_natCast]
      exact hscaled
  · refine ⟨ds, z, ?_, hlength, by omega, by omega, ?_⟩
    · intro g hg
      obtain ⟨g', hintegral, hg'⟩ := hloop g hg
      refine ⟨g', ?_, hg'⟩
      dsimp only
      rw [hgenerate, hintegral, ok_bind]
    · rw [zpow_natCast]
      exact hwritten

/-- The digits of `M_plus`, as many as it takes to stay above `M_minus`. -/
theorem grisu2_digit_gen_spec (hpre : pre.length + 17 ≤ 64) (decimal_exponent : ℤ) {M_minus w M_plus : Diyfp} (he : M_plus.e = -sh) (hle : 32 ≤ sh)
    (hge : sh ≤ 60) (he_minus : M_plus.e = M_minus.e) (he_w : M_plus.e = w.e)
    (hpos : 0 < M_minus.f.toNat) (hlow : M_minus.f ≤ w.f) (hhigh : w.f ≤ M_plus.f)
    (hlarge : 2 ^ 60 ≤ M_plus.f.toNat)
    (htol : M_plus.f.toNat ≤ 10 ^ 16 * (M_plus.f.toNat - M_minus.f.toNat)) :
    ∃ ds z, Takes pre [] ds (grisu2_digit_gen · pre.length decimal_exponent M_minus w M_plus)
        (·, decimal_exponent + z) ∧ ds.length ≤ 17 ∧ -17 ≤ z ∧ z ≤ 9 ∧
      Written (M_minus.f.toNat : ℚ) M_plus.f.toNat (10 ^ z * 2 ^ sh) ds := by
  obtain ⟨delta, hdelta, hdelta_f⟩ := sub_eq he_minus (UInt64.le_trans hlow hhigh)
  obtain ⟨dist, hdist, hdist_f⟩ := sub_eq he_w hhigh
  have hlow' := UInt64.le_iff_toNat_le.mp hlow
  have hhigh' := UInt64.le_iff_toNat_le.mp hhigh
  obtain ⟨ds, z, hgenerate, hrest⟩ := @generate_spec _ _ _ (isOne_one he hle hge) hpre
    decimal_exponent M_plus.f delta.f dist.f
    (by
      rw [UInt64.le_iff_toNat_le, hdelta_f, hdist_f]
      omega)
    (by
      rw [UInt64.lt_iff_toNat_lt, hdelta_f]
      omega)
    hlarge (by rwa [hdelta_f])
  refine ⟨ds, z, hgenerate.of_eq ?_, ?_⟩
  · intro g
    rw [grisu2_digit_gen, json_assert_bind (by rw [he, kAlpha]; omega),
      json_assert_bind (by rw [he, kGamma]; omega), hdelta, ok_bind, hdist, ok_bind]
  · rw [hdelta_f, Nat.cast_sub (hlow'.trans hhigh'), sub_sub_cancel] at hrest
    exact hrest

end Loops

/-! ### The interval -/

/-- The upper 64 bits of a product, rounded. -/
def rounded (x c : ℕ) : ℕ :=
  (x * c + 2 ^ 63) / 2 ^ 64

section Interval

variable {x c : ℕ}

/-- A unit below the product is below the exact one, however the factor was
rounded. -/
theorem rounded_upper (hx : x < 2 ^ 64) : 2 ^ 65 * rounded x c + x < 2 * (x * c) + 2 ^ 65 := by
  unfold rounded
  omega

/-- A unit above it is above. -/
theorem rounded_lower (hx : x < 2 ^ 64) : 2 * (x * c) + x < 2 ^ 65 * (rounded x c + 1) := by
  unfold rounded
  omega

theorem rounded_add_le {y n : ℕ} (h : x * c + n * 2 ^ 64 ≤ y * c) :
    rounded x c + n ≤ rounded y c := by
  unfold rounded
  omega

/-- The interval is wide enough for 17 digits: the case of a midpoint below
that is as far away as the one above. -/
theorem tolerance_regular {f a p q : ℕ} (hf : f < 2 ^ 53) (ha : 2 ^ 72 ≤ a)
    (hp : p = (4 * f + 2) * a) (hq : q + 4 * a = p) :
    (p + 2 ^ 63) / 2 ^ 64 - 1 ≤
      10 ^ 16 * ((p + 2 ^ 63) / 2 ^ 64 - 1 - ((q + 2 ^ 63) / 2 ^ 64 + 1)) := by
  have hle : p ≤ (2 ^ 55 - 2) * a := by
    rw [hp]
    exact Nat.mul_le_mul_right a (by omega)
  omega

/-- The case of the first number of a binade. -/
theorem tolerance_first {a p q : ℕ} (ha : 2 ^ 72 ≤ a) (hp : p = (4 * 2 ^ 52 + 2) * a)
    (hq : q + 3 * a = p) :
    (p + 2 ^ 63) / 2 ^ 64 - 1 ≤
      10 ^ 16 * ((p + 2 ^ 63) / 2 ^ 64 - 1 - ((q + 2 ^ 63) / 2 ^ 64 + 1)) := by
  omega

/-- What digit generation starts from: the scaled double lies in an interval
that is not empty and not too narrow. -/
theorem interval_spec {d : Double} (hd : 0 < d.significand) (hc : 2 ^ 63 ≤ c) (hc' : c < 2 ^ 64)
    {s : ℕ} (hs : 9 ≤ s) (hlow : 2 ^ 63 ≤ 4 * d.significand * 2 ^ s)
    (hhigh : (4 * d.significand + 4) * 2 ^ s ≤ 2 ^ 64) :
    rounded ((4 * d.significand - d.lowerGap) * 2 ^ s) c + 1 ≤
        rounded (4 * d.significand * 2 ^ s) c ∧
      rounded (4 * d.significand * 2 ^ s) c + 1 ≤
        rounded ((4 * d.significand + 2) * 2 ^ s) c ∧
      2 ^ 60 < rounded (4 * d.significand * 2 ^ s) c ∧
      rounded ((4 * d.significand + 2) * 2 ^ s) c < 2 ^ 64 ∧
      rounded ((4 * d.significand + 2) * 2 ^ s) c - 1 ≤
        10 ^ 16 * (rounded ((4 * d.significand + 2) * 2 ^ s) c - 1 -
          (rounded ((4 * d.significand - d.lowerGap) * 2 ^ s) c + 1)) := by
  obtain ⟨f, hf⟩ : ∃ f, d.significand = f := ⟨_, rfl⟩
  obtain ⟨gap, hgap⟩ : ∃ gap, d.lowerGap = gap := ⟨_, rfl⟩
  have hcases := d.lowerGap_cases
  have hf53 := d.significand_lt
  rw [hf] at hd hlow hhigh hcases hf53
  rw [hgap] at hcases
  rw [hf, hgap]
  obtain ⟨a, ha⟩ : ∃ a, 2 ^ s * c = a := ⟨_, rfl⟩
  have ha72 : 2 ^ 72 ≤ a := by
    calc 2 ^ 72 = 2 ^ 9 * 2 ^ 63 := by rw [← pow_add]
      _ ≤ 2 ^ s * c := Nat.mul_le_mul (Nat.pow_le_pow_right (by decide) hs) hc
      _ = a := ha
  have hmul : ∀ x, x * 2 ^ s * c = x * a := by
    intro x
    rw [Nat.mul_assoc, ha]
  have hminus : (4 * f - gap) * a + gap * a = 4 * f * a := by
    rw [← Nat.add_mul]
    congr 1
    omega
  have hplus : (4 * f + 2) * a = 4 * f * a + 2 * a := Nat.add_mul ..
  have hgap_a : a ≤ gap * a := Nat.le_mul_of_pos_left a (by omega)
  have hfa : 2 ^ 63 * 2 ^ 63 ≤ 4 * f * a := by
    calc 2 ^ 63 * 2 ^ 63 ≤ 4 * f * 2 ^ s * c := Nat.mul_le_mul hlow hc
      _ = 4 * f * a := hmul _
  refine ⟨?_, ?_, ?_, ?_, ?_⟩
  · apply rounded_add_le
    rw [hmul, hmul]
    omega
  · apply rounded_add_le
    rw [hmul, hmul]
    omega
  · rw [rounded, hmul]
    omega
  · exact mul_div_lt (lt_of_lt_of_le (Nat.mul_lt_mul_of_pos_right (by omega) (Nat.two_pow_pos s))
      hhigh) hc'
  · rw [rounded, rounded, hmul, hmul]
    rcases hcases with rfl | ⟨rfl, rfl⟩
    · exact tolerance_regular hf53 ha72 rfl (by omega)
    · exact tolerance_first ha72 rfl (by omega)

/-- What a number of the interval is below and above, exactly: the product with
the power of ten `p` that `c` stands for. -/
theorem lt_of_le_rounded {N A B p : ℚ} (hA : 0 < A) (hB : 0 < B) (hx : x < 2 ^ 64)
    (hp : |c * A - p| ≤ A / 2) (hN : N * (A * B * 2 ^ 64)⁻¹ ≤ rounded x c - 1) :
    N < x * B * p := by
  have hAB : 0 < A * B * 2 ^ 64 := by positivity
  have hupper : (2 : ℚ) ^ 65 * rounded x c + x < 2 * (x * c) + 2 ^ 65 := by
    exact_mod_cast @rounded_upper x c hx
  rw [mul_inv_le_iff₀ hAB] at hN
  calc N ≤ (rounded x c - 1) * (A * B * 2 ^ 64) := hN
    _ = (2 ^ 65 * rounded x c - 2 ^ 65) * (A * B / 2) := by ring
    _ < (2 * (x * c) - x) * (A * B / 2) := by
        exact mul_lt_mul_of_pos_right (by linarith) (by positivity)
    _ = x * B * (c * A - A / 2) := by ring
    _ ≤ x * B * p := by
        have hle := (abs_le.mp hp).2
        exact mul_le_mul_of_nonneg_left (by linarith) (by positivity)

theorem lt_of_rounded_le {N A B p : ℚ} (hA : 0 < A) (hB : 0 < B) (hx : x < 2 ^ 64)
    (hp : |c * A - p| ≤ A / 2) (hN : rounded x c + 1 ≤ N * (A * B * 2 ^ 64)⁻¹) :
    x * B * p < N := by
  have hAB : 0 < A * B * 2 ^ 64 := by positivity
  have hlower : 2 * (x * c : ℚ) + x < 2 ^ 65 * (rounded x c + 1) := by
    exact_mod_cast @rounded_lower x c hx
  rw [le_mul_inv_iff₀ hAB] at hN
  calc x * B * p ≤ x * B * (c * A + A / 2) := by
        have hle := (abs_le.mp hp).1
        exact mul_le_mul_of_nonneg_left (by linarith) (by positivity)
    _ = (2 * (x * c) + x) * (A * B / 2) := by ring
    _ < 2 ^ 65 * (rounded x c + 1) * (A * B / 2) := by
        exact mul_lt_mul_of_pos_right hlower (by positivity)
    _ = (rounded x c + 1) * (A * B * 2 ^ 64) := by ring
    _ ≤ N := hN

end Interval

/-! ### The double -/

/-- Digits of a number between two others, from the three and a power of ten
close enough to the one in the table. -/
theorem grisu2_scaled_spec {pre : Bytes} (hpre : pre.length + 17 ≤ 64) {b : Boundaries}
    (hminus_e : b.plus.e = b.minus.e) (hw_e : b.plus.e = b.w.e) {c : CachedPower} (hc : c ∈ kCachedPowers)
    (hget : get_cached_power_for_binary_exponent b.plus.e = .ok c)
    (hlow : -60 ≤ c.e + b.plus.e + 64) (hhigh : c.e + b.plus.e + 64 ≤ -32)
    (hminus : rounded b.minus.f.toNat c.f.toNat + 1 ≤ rounded b.w.f.toNat c.f.toNat)
    (hplus : rounded b.w.f.toNat c.f.toNat + 1 ≤ rounded b.plus.f.toNat c.f.toNat)
    (hlarge : 2 ^ 60 < rounded b.w.f.toNat c.f.toNat)
    (htol : rounded b.plus.f.toNat c.f.toNat - 1 ≤ 10 ^ 16 *
      (rounded b.plus.f.toNat c.f.toNat - 1 - (rounded b.minus.f.toNat c.f.toNat + 1))) :
    ∃ ds e, Takes pre [] ds (grisu2_scaled · pre.length b) (·, e) ∧ ds ≠ [] ∧ ds.length ≤ 17 ∧ (∀ d ∈ ds, d < 10) ∧ (∀ t, ds ≠ 0 :: t) ∧ -400 ≤ e ∧ e ≤ 400 ∧
      b.minus.f.toNat * 2 ^ b.plus.e < (number ds * 10 ^ e : ℚ) ∧
      (number ds * 10 ^ e : ℚ) < b.plus.f.toNat * 2 ^ b.plus.e := by
  obtain ⟨hnormal, hnear⟩ := cached_near hc
  obtain ⟨hk_low, hk_high⟩ := cached_k_bounds hc
  obtain ⟨sh, hsh⟩ := Int.eq_ofNat_of_zero_le (show 0 ≤ -(c.e + b.plus.e + 64) by omega)
  -- the ends of the interval
  have hw := (b.w.toNat_mul ⟨c.f, c.e⟩)
  have hm := (b.minus.toNat_mul ⟨c.f, c.e⟩)
  have hp := (b.plus.toNat_mul ⟨c.f, c.e⟩)
  change _ = rounded b.w.f.toNat c.f.toNat at hw
  change _ = rounded b.minus.f.toNat c.f.toNat at hm
  change _ = rounded b.plus.f.toNat c.f.toNat at hp
  have hw64 := (b.w.mul ⟨c.f, c.e⟩).f.toNat_lt
  have hm1 : ((b.minus.mul ⟨c.f, c.e⟩).f + 1).toNat = rounded b.minus.f.toNat c.f.toNat + 1 := by
    rw [UInt64.toNat_add, hm]
    exact Nat.mod_eq_of_lt (by simp only [UInt64.reduceToNat]; omega)
  have hp1 : ((b.plus.mul ⟨c.f, c.e⟩).f - 1).toNat = rounded b.plus.f.toNat c.f.toNat - 1 := by
    rw [UInt64.toNat_sub_of_le _ _ (by
      rw [UInt64.le_iff_toNat_le, hp]
      simp only [UInt64.reduceToNat]
      omega), hp]
    rfl
  obtain ⟨ds, z, hgen, hlength, hz_low, hz_high, hwritten⟩ :=
    @grisu2_digit_gen_spec _ sh hpre (-c.k)
      ⟨(b.minus.mul ⟨c.f, c.e⟩).f + 1, (b.minus.mul ⟨c.f, c.e⟩).e⟩ (b.w.mul ⟨c.f, c.e⟩)
      ⟨(b.plus.mul ⟨c.f, c.e⟩).f - 1, (b.plus.mul ⟨c.f, c.e⟩).e⟩
      (by
        dsimp only
        rw [Diyfp.mul_e]
        dsimp only
        omega) (by omega) (by omega)
      (by
        dsimp only
        rw [Diyfp.mul_e, Diyfp.mul_e, hminus_e])
      (by
        dsimp only
        rw [Diyfp.mul_e, Diyfp.mul_e, hw_e])
      (by rw [hm1]; omega)
      (by
        rw [UInt64.le_iff_toNat_le, hm1, hw]
        exact hminus)
      (by
        rw [UInt64.le_iff_toNat_le, hp1, hw]
        omega)
      (by rw [hp1]; omega)
      (by
        rw [hp1, hm1]
        exact htol)
  -- the scale of the interval
  have hA : (0 : ℚ) < 2 ^ c.e := zpow_pos (by norm_num) _
  have hB : (0 : ℚ) < 2 ^ b.plus.e := zpow_pos (by norm_num) _
  have hpower : (0 : ℚ) < 10 ^ c.k := zpow_pos (by norm_num) _
  have hunit : (2 : ℚ) ^ sh = (2 ^ c.e * 2 ^ b.plus.e * 2 ^ 64)⁻¹ := by
    have hcast : (2 : ℚ) ^ 64 = 2 ^ (64 : ℤ) := rfl
    rw [← zpow_natCast, ← hsh, hcast, ← zpow_add₀ two_ne_zero, ← zpow_add₀ two_ne_zero, zpow_neg]
  have hten : (number ds * 10 ^ (-c.k + z) : ℚ) = number ds * 10 ^ z / 10 ^ c.k := by
    rw [zpow_add₀ (by norm_num), zpow_neg]
    field_simp
  refine ⟨ds, -c.k + z, hgen.of_eq ?_, hwritten.ne, hlength, hwritten.digit, hwritten.first,
    by omega, by omega, ?_, ?_⟩
  · intro g
    rw [grisu2_scaled, json_assert_bind hminus_e, json_assert_bind hw_e, hget, ok_bind]
  · rw [hten, lt_div_iff₀ hpower]
    refine lt_of_rounded_le hA hB b.minus.f.toNat_lt hnear ?_
    have hle := hwritten.le
    rw [hm1, hunit] at hle
    push_cast at hle
    linarith
  · rw [hten, div_lt_iff₀ hpower]
    refine lt_of_le_rounded hA hB b.plus.f.toNat_lt hnear ?_
    have hge := hwritten.ge
    rw [hp1, hunit, Nat.cast_sub (by omega)] at hge
    push_cast at hge
    linarith

theorem plus_eq (d : Double) : d.plus =
    (((4 * d.significand + 2) * 2 ^ quarterShift d : ℕ) : ℚ) * 2 ^ scaledExponent d := by
  rw [Double.plus, scaledExponent, zpow_sub₀ two_ne_zero _ (quarterShift d : ℤ), zpow_natCast]
  push_cast
  field_simp

theorem minus_eq {d : Double} (hgap : d.lowerGap ≤ 4 * d.significand) : d.minus =
    (((4 * d.significand - d.lowerGap) * 2 ^ quarterShift d : ℕ) : ℚ) * 2 ^ scaledExponent d := by
  rw [Double.minus, scaledExponent, zpow_sub₀ two_ne_zero _ (quarterShift d : ℤ), zpow_natCast,
    Nat.cast_mul, Nat.cast_sub hgap]
  push_cast
  field_simp

/-- The digits of a positive double: 17 at most, without a leading zero, and a
number strictly between the midpoints. -/
theorem grisu2_spec {pre : Bytes} (hpre : pre.length + 17 ≤ 64) {d : Double}
    (hsign : d.signbit = false) (hd : 0 < d.significand) :
    ∃ ds e, Takes pre [] ds (grisu2 · pre.length d) (·, e) ∧ ds ≠ [] ∧ ds.length ≤ 17 ∧ (∀ d ∈ ds, d < 10) ∧ (∀ t, ds ≠ 0 :: t) ∧ -400 ≤ e ∧ e ≤ 400 ∧
      d.minus < number ds * 10 ^ e ∧ number ds * 10 ^ e < d.plus := by
  obtain ⟨hs, hs61, hlow, hhigh⟩ := quarterShift_bounds hd
  have he_low := d.le_exponent
  have he_high := d.exponent_le
  obtain ⟨c, hc, hget, hce_low, hce_high⟩ :=
    @get_cached_power_spec (scaledExponent d) (by unfold scaledExponent; omega)
      (by unfold scaledExponent; omega)
  obtain ⟨hminus, hplus, hlarge, -, htol⟩ :=
    interval_spec hd (cached_near hc).1 c.f.toNat_lt hs hlow hhigh
  have hgap : d.lowerGap ≤ 4 * d.significand := by
    have hcases := d.lowerGap_cases
    omega
  obtain ⟨hw, hm, hp⟩ := toNat_scaledBoundaries hd
  rw [← hm, ← hw] at hminus
  rw [← hw, ← hp] at hplus
  rw [← hw] at hlarge
  rw [← hp, ← hm] at htol
  obtain ⟨ds, e, hgrisu, hspec⟩ := @grisu2_scaled_spec pre hpre (scaledBoundaries d) rfl rfl c hc hget hce_low hce_high hminus hplus hlarge htol
  rw [hm, hp] at hspec
  rw [minus_eq hgap, plus_eq]
  refine ⟨ds, e, hgrisu.of_eq ?_, hspec⟩
  intro g
  rw [grisu2, json_assert_bind ⟨hsign, bits_ne_zero hd⟩, compute_boundaries_eq hsign hd, ok_bind]

end DtoaImpl

end SyncServiceUi
