/-
SyncServiceUi/CachedPowers.lean

`get_cached_power_for_binary_exponent` (`src/dependencies/json/json.hpp`): a
power of ten for every binary exponent, from a table of every eighth one.

Two things matter of the table.  Each entry is the power of ten rounded to 64
bits (`cached_near`), and for every exponent a double can have, the entry
found brings the product into the range the digits are generated in, with no
assertion failing (`get_cached_power_spec`).  Of the entries themselves both
are computed.
-/
import SyncServiceUi.Diyfp

namespace SyncServiceUi

namespace DtoaImpl

open Serializer
open Completion (ok_bind)

/-! ### The code -/

/-- `f * 2 ^ e`, close to `10 ^ k`. -/
structure CachedPower where
  f : UInt64
  e : ℤ
  k : ℤ
  deriving DecidableEq

def kAlpha : ℤ := -60

def kGamma : ℤ := -32

def kCachedPowersMinDecExp : ℤ := -300

def kCachedPowersDecStep : ℤ := 8

def kCachedPowers : Array CachedPower := #[
  ⟨0xAB70FE17C79AC6CA, -1060, -300⟩, ⟨0xFF77B1FCBEBCDC4F, -1034, -292⟩,
  ⟨0xBE5691EF416BD60C, -1007, -284⟩, ⟨0x8DD01FAD907FFC3C, -980, -276⟩,
  ⟨0xD3515C2831559A83, -954, -268⟩, ⟨0x9D71AC8FADA6C9B5, -927, -260⟩,
  ⟨0xEA9C227723EE8BCB, -901, -252⟩, ⟨0xAECC49914078536D, -874, -244⟩,
  ⟨0x823C12795DB6CE57, -847, -236⟩, ⟨0xC21094364DFB5637, -821, -228⟩,
  ⟨0x9096EA6F3848984F, -794, -220⟩, ⟨0xD77485CB25823AC7, -768, -212⟩,
  ⟨0xA086CFCD97BF97F4, -741, -204⟩, ⟨0xEF340A98172AACE5, -715, -196⟩,
  ⟨0xB23867FB2A35B28E, -688, -188⟩, ⟨0x84C8D4DFD2C63F3B, -661, -180⟩,
  ⟨0xC5DD44271AD3CDBA, -635, -172⟩, ⟨0x936B9FCEBB25C996, -608, -164⟩,
  ⟨0xDBAC6C247D62A584, -582, -156⟩, ⟨0xA3AB66580D5FDAF6, -555, -148⟩,
  ⟨0xF3E2F893DEC3F126, -529, -140⟩, ⟨0xB5B5ADA8AAFF80B8, -502, -132⟩,
  ⟨0x87625F056C7C4A8B, -475, -124⟩, ⟨0xC9BCFF6034C13053, -449, -116⟩,
  ⟨0x964E858C91BA2655, -422, -108⟩, ⟨0xDFF9772470297EBD, -396, -100⟩,
  ⟨0xA6DFBD9FB8E5B88F, -369, -92⟩, ⟨0xF8A95FCF88747D94, -343, -84⟩,
  ⟨0xB94470938FA89BCF, -316, -76⟩, ⟨0x8A08F0F8BF0F156B, -289, -68⟩,
  ⟨0xCDB02555653131B6, -263, -60⟩, ⟨0x993FE2C6D07B7FAC, -236, -52⟩,
  ⟨0xE45C10C42A2B3B06, -210, -44⟩, ⟨0xAA242499697392D3, -183, -36⟩,
  ⟨0xFD87B5F28300CA0E, -157, -28⟩, ⟨0xBCE5086492111AEB, -130, -20⟩,
  ⟨0x8CBCCC096F5088CC, -103, -12⟩, ⟨0xD1B71758E219652C, -77, -4⟩,
  ⟨0x9C40000000000000, -50, 4⟩, ⟨0xE8D4A51000000000, -24, 12⟩,
  ⟨0xAD78EBC5AC620000, 3, 20⟩, ⟨0x813F3978F8940984, 30, 28⟩,
  ⟨0xC097CE7BC90715B3, 56, 36⟩, ⟨0x8F7E32CE7BEA5C70, 83, 44⟩,
  ⟨0xD5D238A4ABE98068, 109, 52⟩, ⟨0x9F4F2726179A2245, 136, 60⟩,
  ⟨0xED63A231D4C4FB27, 162, 68⟩, ⟨0xB0DE65388CC8ADA8, 189, 76⟩,
  ⟨0x83C7088E1AAB65DB, 216, 84⟩, ⟨0xC45D1DF942711D9A, 242, 92⟩,
  ⟨0x924D692CA61BE758, 269, 100⟩, ⟨0xDA01EE641A708DEA, 295, 108⟩,
  ⟨0xA26DA3999AEF774A, 322, 116⟩, ⟨0xF209787BB47D6B85, 348, 124⟩,
  ⟨0xB454E4A179DD1877, 375, 132⟩, ⟨0x865B86925B9BC5C2, 402, 140⟩,
  ⟨0xC83553C5C8965D3D, 428, 148⟩, ⟨0x952AB45CFA97A0B3, 455, 156⟩,
  ⟨0xDE469FBD99A05FE3, 481, 164⟩, ⟨0xA59BC234DB398C25, 508, 172⟩,
  ⟨0xF6C69A72A3989F5C, 534, 180⟩, ⟨0xB7DCBF5354E9BECE, 561, 188⟩,
  ⟨0x88FCF317F22241E2, 588, 196⟩, ⟨0xCC20CE9BD35C78A5, 614, 204⟩,
  ⟨0x98165AF37B2153DF, 641, 212⟩, ⟨0xE2A0B5DC971F303A, 667, 220⟩,
  ⟨0xA8D9D1535CE3B396, 694, 228⟩, ⟨0xFB9B7CD9A4A7443C, 720, 236⟩,
  ⟨0xBB764C4CA7A44410, 747, 244⟩, ⟨0x8BAB8EEFB6409C1A, 774, 252⟩,
  ⟨0xD01FEF10A657842C, 800, 260⟩, ⟨0x9B10A4E5E9913129, 827, 268⟩,
  ⟨0xE7109BFBA19C0C9D, 853, 276⟩, ⟨0xAC2820D9623BF429, 880, 284⟩,
  ⟨0x80444B5E7AA7CF85, 907, 292⟩, ⟨0xBF21E44003ACDD2D, 933, 300⟩,
  ⟨0x8E679C2F5E44FF8F, 960, 308⟩, ⟨0xD433179D9C8CB841, 986, 316⟩,
  ⟨0x9E19DB92B4E31BA9, 1013, 324⟩]

/-- The entry at an index, behind the two assertions that there is one. -/
def cachedPower (index : ℤ) : Except Error CachedPower := do
  json_assert (0 ≤ index)
  match kCachedPowers[index.toNat]? with
  | some cached => .ok cached
  | none => .error .json_assert

def get_cached_power_for_binary_exponent (e : ℤ) : Except Error CachedPower := do
  json_assert (-1500 ≤ e)
  json_assert (e ≤ 1500)
  let f := kAlpha - e - 1
  let k := (f * 78913).tdiv (2 ^ 18) + if 0 < f then 1 else 0
  let index := (-kCachedPowersMinDecExp + k + (kCachedPowersDecStep - 1)).tdiv kCachedPowersDecStep
  let cached ← cachedPower index
  json_assert (kAlpha ≤ cached.e + e + 64)
  json_assert (cached.e + e + 64 ≤ kGamma)
  return cached

/-! ### The table -/

/-- The power of ten is normalized, and off by half a unit at most; both sides
are multiplied by the negative powers. -/
def CachedPower.isNear (c : CachedPower) : Bool :=
  2 ^ 63 ≤ c.f.toNat ∧
    2 * |(c.f.toNat * 2 ^ c.e.toNat * 10 ^ (-c.k).toNat : ℤ) -
      10 ^ c.k.toNat * 2 ^ (-c.e).toNat| ≤ 2 ^ c.e.toNat * 10 ^ (-c.k).toNat

theorem all_isNear : kCachedPowers.all CachedPower.isNear = true := by decide +kernel

theorem all_k_bounds : kCachedPowers.all (fun c => -300 ≤ c.k ∧ c.k ≤ 324) = true := by
  decide +kernel

theorem zpow_eq_div {x : ℚ} (hx : x ≠ 0) (e : ℤ) : x ^ e = x ^ e.toNat / x ^ (-e).toNat := by
  rw [← zpow_natCast x e.toNat, ← zpow_natCast x (-e).toNat, ← zpow_sub₀ hx]
  congr 1
  omega

/-- An entry of the table is a power of ten, rounded. -/
theorem cached_near {c : CachedPower} (hc : c ∈ kCachedPowers) :
    2 ^ 63 ≤ c.f.toNat ∧ |(c.f.toNat : ℚ) * 2 ^ c.e - 10 ^ c.k| ≤ 2 ^ c.e / 2 := by
  have hnear := Array.all_eq_true_iff_forall_mem.mp all_isNear c hc
  obtain ⟨hnormal, hdist⟩ := of_decide_eq_true hnear
  refine ⟨hnormal, ?_⟩
  obtain ⟨unit, hunit⟩ : ∃ unit : ℚ, 2 ^ (-c.e).toNat * 10 ^ (-c.k).toNat = unit := ⟨_, rfl⟩
  have hpos : 0 < unit := by
    rw [← hunit]
    positivity
  have hdist' : 2 * |(c.f.toNat * 2 ^ c.e.toNat * 10 ^ (-c.k).toNat : ℚ) -
      10 ^ c.k.toNat * 2 ^ (-c.e).toNat| ≤ 2 ^ c.e.toNat * 10 ^ (-c.k).toNat := by
    exact_mod_cast hdist
  have hsub : (c.f.toNat : ℚ) * 2 ^ c.e - 10 ^ c.k =
      (c.f.toNat * 2 ^ c.e.toNat * 10 ^ (-c.k).toNat - 10 ^ c.k.toNat * 2 ^ (-c.e).toNat) /
        unit := by
    rw [zpow_eq_div two_ne_zero c.e, zpow_eq_div (by norm_num) c.k, ← hunit]
    field_simp
  have hright : (2 : ℚ) ^ c.e = 2 ^ c.e.toNat * 10 ^ (-c.k).toNat / unit := by
    rw [zpow_eq_div two_ne_zero c.e, ← hunit]
    field_simp
  rw [hsub, hright, abs_div, abs_of_pos hpos, div_div, le_div_iff₀ (by positivity)]
  have hcancel : ∀ a : ℚ, a / unit * (unit * 2) = 2 * a := by
    intro a
    field_simp
  rwa [hcancel]

theorem cached_k_bounds {c : CachedPower} (hc : c ∈ kCachedPowers) : -300 ≤ c.k ∧ c.k ≤ 324 :=
  of_decide_eq_true (Array.all_eq_true_iff_forall_mem.mp all_k_bounds c hc)

/-! ### The entry for an exponent -/

/-- An entry brings every exponent into range whose estimated power of ten is
its own or one of the seven below. -/
theorem all_in_range : (List.range 79).all (fun i => kCachedPowers[i]?.any fun c =>
    c.k = (8 * i - 300 : ℤ) ∧ (c.e + 34) * 78913 < (c.k - 8) * 2 ^ 18 ∧
      c.k * 2 ^ 18 < (c.e + 64) * 78913) = true := by
  decide +kernel

/-- The estimate rounds up. -/
theorem estimate_bounds (f : ℤ) {k : ℤ}
    (hk : (f * 78913).tdiv (2 ^ 18) + (if 0 < f then 1 else 0) = k) :
    (k - 1) * 2 ^ 18 ≤ f * 78913 ∧ f * 78913 ≤ k * 2 ^ 18 := by
  rcases lt_or_ge 0 f with hpos | hneg
  · rw [if_pos hpos, Int.tdiv_eq_ediv_of_nonneg (by omega)] at hk
    omega
  · have hminus : f * 78913 = -(-f * 78913) := by ring
    rw [if_neg hneg.not_gt, hminus, Int.neg_tdiv, Int.tdiv_eq_ediv_of_nonneg (by omega)] at hk
    omega

/-- For the exponent of any double there is an entry that brings it into
range. -/
theorem get_cached_power_spec {e : ℤ} (hlow : -1137 ≤ e) (hhigh : e ≤ 960) :
    ∃ c ∈ kCachedPowers, get_cached_power_for_binary_exponent e = .ok c ∧
      -60 ≤ c.e + e + 64 ∧ c.e + e + 64 ≤ -32 := by
  obtain ⟨k, hk⟩ : ∃ k, ((kAlpha - e - 1) * 78913).tdiv (2 ^ 18) +
    (if 0 < kAlpha - e - 1 then 1 else 0) = k := ⟨_, rfl⟩
  obtain ⟨hkl, hkh⟩ := estimate_bounds _ hk
  have hf : kAlpha - e - 1 = -61 - e := by
    rw [kAlpha]
    ring
  rw [hf] at hkl hkh
  have hindex : (-kCachedPowersMinDecExp + k + (kCachedPowersDecStep - 1)).tdiv
      kCachedPowersDecStep = (307 + k) / 8 := by
    have hnum : -kCachedPowersMinDecExp + k + (kCachedPowersDecStep - 1) = 307 + k := by
      rw [kCachedPowersMinDecExp, kCachedPowersDecStep]
      ring
    rw [hnum, kCachedPowersDecStep]
    exact Int.tdiv_eq_ediv_of_nonneg (by omega)
  obtain ⟨i, hi⟩ := Int.eq_ofNat_of_zero_le (show 0 ≤ (307 + k) / 8 by omega)
  have hmem : i ∈ List.range 79 := List.mem_range.mpr (by omega)
  have hentry := List.all_eq_true.mp all_in_range _ hmem
  rw [Option.any_eq_true] at hentry
  obtain ⟨c, hc, hrange⟩ := hentry
  obtain ⟨hck, hcl, hch⟩ := of_decide_eq_true hrange
  have hcached : cachedPower ((307 + k) / 8) = .ok c := by
    rw [hi, cachedPower, json_assert_bind (Int.natCast_nonneg i), Int.toNat_natCast, hc]
  refine ⟨c, Array.mem_of_getElem? hc, ?_, by omega, by omega⟩
  rw [get_cached_power_for_binary_exponent, json_assert_bind (by omega),
    json_assert_bind (by omega)]
  dsimp only
  rw [hk, hindex, hcached, ok_bind, json_assert_bind (by rw [kAlpha]; omega),
    json_assert_bind (by rw [kGamma]; omega)]
  rfl

end DtoaImpl

end SyncServiceUi
