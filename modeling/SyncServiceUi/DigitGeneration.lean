/-
SyncServiceUi/DigitGeneration.lean

Writing a number down digit by digit, until what is left is small enough.

`Cut M u r ds` says that the digits `ds` of `M` have been written, counted in
the unit `u`, and that `r` is left of it.  A digit more is a unit ten times
smaller (`Cut.push`).  With a tolerance of `δ` one may stop as soon as `r` is
not above it, and even take some units off the last digit again, as long as
the number written stays within the tolerance: no leading zero can come out
(`Cut.lower`).  How many digits there are in the end follows from the
tolerance alone (`Cut.length_le`).
-/
import Mathlib.Algebra.Order.Field.Basic
import Mathlib.Tactic.Linarith
import Mathlib.Tactic.Positivity
import Mathlib.Tactic.Ring

namespace DigitGeneration

/-! ### Digits -/

/-- The number with these decimal digits. -/
def number (ds : List ℕ) : ℕ :=
  ds.foldl (fun n d => 10 * n + d) 0

@[simp] theorem number_nil : number [] = 0 := rfl

@[simp] theorem number_append_singleton (ds : List ℕ) (d : ℕ) :
    number (ds ++ [d]) = 10 * number ds + d := by
  rw [number, List.foldl_append]
  rfl

theorem number_append (ds ds' : List ℕ) :
    number (ds ++ ds') = number ds * 10 ^ ds'.length + number ds' := by
  induction ds' using List.reverseRecOn with
  | nil => simp
  | append_singleton ds' d ih =>
      rw [← List.append_assoc, number_append_singleton, number_append_singleton, ih,
        List.length_append, List.length_singleton, pow_succ]
      ring

@[simp] theorem number_replicate_zero (n : ℕ) : number (List.replicate n 0) = 0 := by
  induction n with
  | zero => rfl
  | succ n ih => rw [List.replicate_succ', number_append_singleton, ih]

theorem number_lt {ds : List ℕ} (h : ∀ d ∈ ds, d < 10) : number ds < 10 ^ ds.length := by
  induction ds using List.reverseRecOn with
  | nil => exact Nat.one_pos
  | append_singleton ds d ih =>
      obtain ⟨hds, hd⟩ := List.forall_mem_append.mp h
      have hlt := ih hds
      have hd' : d < 10 := hd d (List.mem_singleton_self d)
      rw [number_append_singleton, List.length_append, List.length_singleton, pow_succ]
      omega

theorem pow_le_number {d : ℕ} {ds : List ℕ} (hd : d ≠ 0) :
    10 ^ ds.length ≤ number (d :: ds) := by
  induction ds using List.reverseRecOn with
  | nil =>
      show 10 ^ 0 ≤ 10 * 0 + d
      omega
  | append_singleton ds d' ih =>
      rw [← List.cons_append, number_append_singleton, List.length_append, List.length_singleton,
        pow_succ]
      omega

/-! ### Cuts -/

variable {K : Type*} [Field K] [LinearOrder K]

/-- The first digits of `M`, in the unit `u`, and what is left of it. -/
structure Cut (M u r : K) (ds : List ℕ) : Prop where
  sum : M = number ds * u + r
  nonneg : 0 ≤ r
  lt : r < u
  digit : ∀ d ∈ ds, d < 10
  first : ∀ t, ds ≠ 0 :: t
  /-- The next digit, if it is the first, will not be zero. -/
  room : u ≤ 10 * M

namespace Cut

variable {M u r r' δ : K} {ds : List ℕ} {d j : ℕ}

/-- Before the first digit. -/
theorem start (hpos : 0 ≤ M) (hlt : M < u) (hroom : u ≤ 10 * M) : Cut M u M [] where
  sum := by simp
  nonneg := hpos
  lt := hlt
  digit := by simp
  first := by simp
  room := hroom

theorem unit_pos (h : Cut M u r ds) : 0 < u :=
  h.nonneg.trans_lt h.lt

variable [IsStrictOrderedRing K]

/-- One digit more. -/
theorem push (h : Cut M (10 * u) r ds) (hr : r = d * u + r') (hnonneg : 0 ≤ r') (hlt : r' < u) :
    Cut M u r' (ds ++ [d]) := by
  have hu : 0 < u := hnonneg.trans_lt hlt
  refine ⟨?_, hnonneg, hlt, ?_, ?_, ?_⟩
  · rw [h.sum, hr, number_append_singleton]
    push_cast
    ring
  · intro d' hd'
    rcases List.mem_append.mp hd' with hmem | hmem
    · exact h.digit d' hmem
    · obtain rfl := List.mem_singleton.mp hmem
      have hle : (d' : K) * u < 10 * u := by
        have hlt' := h.lt
        rw [hr] at hlt'
        linarith
      exact_mod_cast lt_of_mul_lt_mul_right hle hu.le
  · intro t ht
    rcases ds with - | ⟨d₀, ds⟩
    · -- the first digit of all
      obtain rfl : d = 0 := (List.cons.inj ht).1
      have hsum := h.sum
      have hroom := h.room
      rw [hr] at hsum
      simp only [number_nil, Nat.cast_zero, zero_mul, zero_add] at hsum
      linarith
    · obtain rfl : d₀ = 0 := (List.cons.inj ht).1
      exact h.first ds rfl
  · have hroom := h.room
    linarith

/-- Counting in other units. -/
theorem scale (h : Cut M u r ds) {c : K} (hc : 0 < c) : Cut (c * M) (c * u) (c * r) ds where
  sum := by
    rw [h.sum]
    ring
  nonneg := mul_nonneg hc.le h.nonneg
  lt := mul_lt_mul_of_pos_left h.lt hc
  digit := h.digit
  first := h.first
  room := by
    have hroom := mul_le_mul_of_nonneg_left h.room hc.le
    linarith

theorem rest_le (h : Cut M u r ds) : r ≤ M := by
  have hu := h.unit_pos
  have hnonneg : 0 ≤ (number ds : K) * u := by positivity
  rw [h.sum]
  linarith

theorem unit_le (h : Cut M u r (ds ++ [d])) : u ≤ M := by
  have hu := h.unit_pos
  have hone : 1 ≤ number (ds ++ [d]) := by
    obtain ⟨d₀, t, hcons⟩ := List.exists_cons_of_ne_nil (List.append_ne_nil_of_right_ne_nil ds
      (List.cons_ne_nil d []))
    have hd₀ : d₀ ≠ 0 := by
      rintro rfl
      exact h.first t hcons
    rw [hcons]
    exact (Nat.one_le_pow _ _ (by decide)).trans (pow_le_number hd₀)
  have hcast : (1 : K) ≤ number (ds ++ [d]) := by exact_mod_cast hone
  have hnonneg := h.nonneg
  rw [h.sum]
  nlinarith

/-- As long as more is left than the tolerance, there are not too many digits
yet. -/
theorem length_le (h : Cut M u r ds) (hopen : δ < r) {n : ℕ} (hM : M ≤ 10 ^ n * δ) :
    ds.length ≤ n := by
  rcases ds with - | ⟨d, ds⟩
  · exact Nat.zero_le n
  · have hd : d ≠ 0 := by
      rintro rfl
      exact h.first ds rfl
    have hu := h.unit_pos
    have hnumber : (10 : K) ^ ds.length ≤ number (d :: ds) := by exact_mod_cast pow_le_number hd
    have hpow : (10 : K) ^ ds.length * u < 10 ^ n * u := by
      calc (10 : K) ^ ds.length * u ≤ number (d :: ds) * u :=
            mul_le_mul_of_nonneg_right hnumber hu.le
        _ ≤ M := by
            rw [h.sum]
            exact le_add_of_nonneg_right h.nonneg
        _ ≤ 10 ^ n * δ := hM
        _ < 10 ^ n * u := by
            have hlt : δ < u := hopen.trans h.lt
            have hten : (0 : K) < 10 ^ n := by positivity
            exact mul_lt_mul_of_pos_left hlt hten
    have hlt := lt_of_mul_lt_mul_right hpow hu.le
    have hnat : (10 : ℕ) ^ ds.length < 10 ^ n := by exact_mod_cast hlt
    exact (Nat.pow_lt_pow_iff_right (by decide)).mp hnat

end Cut

/-- Digits that make a number between `lo` and `hi`, counted in the unit `u`;
the first one is not zero. -/
structure Written (lo hi u : K) (ds : List ℕ) : Prop where
  ne : ds ≠ []
  digit : ∀ d ∈ ds, d < 10
  first : ∀ t, ds ≠ 0 :: t
  le : lo ≤ number ds * u
  ge : number ds * u ≤ hi

/-- Counting in other units. -/
theorem Written.scale [IsStrictOrderedRing K] {lo hi u c : K} {ds : List ℕ}
    (h : Written lo hi u ds) (hc : 0 < c) : Written (c * lo) (c * hi) (c * u) ds where
  ne := h.ne
  digit := h.digit
  first := h.first
  le := by
    have hle := mul_le_mul_of_nonneg_left h.le hc.le
    linarith
  ge := by
    have hge := mul_le_mul_of_nonneg_left h.ge hc.le
    linarith

/-- A cut with some units taken off the last digit, and no more left than the
tolerance. -/
theorem Cut.lower [IsStrictOrderedRing K] {M u r δ : K} {ds : List ℕ} {d j : ℕ} (h : Cut M u r (ds ++ [d])) (hj : j < d)
    (hlower : r + j * u ≤ δ) : Written (M - δ) M u (ds ++ [d - j]) := by
  have hu := h.unit_pos
  have hsum := h.sum
  have hnonneg := h.nonneg
  have hcast : ((d - j : ℕ) : K) = d - j := Nat.cast_sub hj.le
  have hju : 0 ≤ (j : K) * u := by positivity
  rw [number_append_singleton] at hsum
  push_cast at hsum
  refine ⟨by simp, ?_, ?_, ?_, ?_⟩
  · intro d' hd'
    rcases List.mem_append.mp hd' with hmem | hmem
    · exact h.digit d' (List.mem_append_left _ hmem)
    · obtain rfl := List.mem_singleton.mp hmem
      have hd := h.digit d (List.mem_append_right _ (List.mem_singleton_self d))
      omega
  · intro t ht
    rcases ds with - | ⟨d₀, ds⟩
    · have hzero : d - j = 0 := (List.cons.inj ht).1
      omega
    · obtain rfl : d₀ = 0 := (List.cons.inj ht).1
      exact h.first _ rfl
  · rw [number_append_singleton]
    push_cast
    rw [hcast]
    linarith
  · rw [number_append_singleton]
    push_cast
    rw [hcast]
    linarith

end DigitGeneration
