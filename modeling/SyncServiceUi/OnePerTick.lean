/-
SyncServiceUi/OnePerTick.lean

A queue served once per tick.

`F n` counts the items that have arrived by tick `n`; at each tick the
arrivals of that tick join the queue and then at most one item is served.
`served F n` is the count served by tick `n`, given by its recursion, and
`servedBound F n` is the closed form

    min over j ≤ n of  F j + (n - j),

the fastest any prefix of the arrivals lets the server go.  The two agree
(`served_eq_servedBound`), and the server keeps up with every prefix exactly
when no tick brings more than one item (`served_eq_iff`).
-/
import Mathlib.Data.Finset.Lattice.Fold
import Mathlib.Data.Finset.Range
import Mathlib.Order.Lattice.Nat
import Mathlib.Tactic.Common

namespace OnePerTick

/-- Items served by tick `n`: one more than before, unless none is waiting. -/
def served (F : ℕ → ℕ) : ℕ → ℕ
  | 0 => 0
  | n + 1 => min (served F n + 1) (F (n + 1))

/-- The closed form: the least of `F j + (n - j)` over the ticks `j ≤ n`. -/
def servedBound (F : ℕ → ℕ) (n : ℕ) : ℕ :=
  (Finset.range (n + 1)).inf' ⟨0, by simp⟩ fun j => F j + (n - j)

variable {F : ℕ → ℕ}

theorem served_le (n : ℕ) : served F n ≤ F n := by
  cases n with
  | zero => exact Nat.zero_le _
  | succ n => exact min_le_right _ _

/-- Only the arrivals up to tick `n` matter. -/
theorem served_congr {G : ℕ → ℕ} {n : ℕ} (h : ∀ k ≤ n, F k = G k) :
    served F n = served G n := by
  induction n with
  | zero => rfl
  | succ n ih =>
      have hn : served F n = served G n := ih fun k hk => h k (by omega)
      show min (served F n + 1) (F (n + 1)) = min (served G n + 1) (G (n + 1))
      rw [hn, h (n + 1) (Nat.le_refl _)]

/-- From any tick on, at most one item is served per tick. -/
theorem served_le_add (n j : ℕ) (hj : j ≤ n) : served F n ≤ F j + (n - j) := by
  induction n with
  | zero => exact Nat.zero_le _
  | succ n ih =>
      rcases Nat.lt_or_eq_of_le hj with hlt | rfl
      · have h1 := ih (by omega)
        have h2 : served F (n + 1) ≤ served F n + 1 := min_le_left _ _
        omega
      · have := served_le (F := F) (n + 1)
        omega

/-- Some tick attains the bound: the last one that left the queue empty. -/
theorem exists_served_eq (h0 : F 0 = 0) (n : ℕ) : ∃ j ≤ n, served F n = F j + (n - j) := by
  induction n with
  | zero => exact ⟨0, le_rfl, by simp [served, h0]⟩
  | succ n ih =>
      obtain ⟨j, hj, he⟩ := ih
      rcases Nat.le_total (served F n + 1) (F (n + 1)) with h | h
      · refine ⟨j, by omega, ?_⟩
        show min (served F n + 1) (F (n + 1)) = F j + (n + 1 - j)
        rw [min_eq_left h, he]
        omega
      · -- the queue is empty after this tick
        refine ⟨n + 1, le_rfl, ?_⟩
        show min (served F n + 1) (F (n + 1)) = F (n + 1) + (n + 1 - (n + 1))
        rw [min_eq_right h]
        omega

theorem served_eq_servedBound (h0 : F 0 = 0) (n : ℕ) : served F n = servedBound F n := by
  apply le_antisymm
  · apply Finset.le_inf'
    intro j hj
    have hjn : j ≤ n := Nat.le_of_lt_succ (Finset.mem_range.mp hj)
    exact served_le_add n j hjn
  · obtain ⟨j, hj, he⟩ := exists_served_eq h0 n
    rw [he]
    apply Finset.inf'_le
    exact Finset.mem_range.mpr (Nat.lt_succ_of_le hj)

/-- The server keeps up at every tick iff no tick brings two items. -/
theorem served_eq_iff (h0 : F 0 = 0) (n : ℕ) :
    (∀ k ≤ n, served F k = F k) ↔ ∀ k < n, F (k + 1) ≤ F k + 1 := by
  refine ⟨?_, ?_⟩
  · intro h k hk
    have h1 : served F (k + 1) ≤ served F k + 1 := min_le_left _ _
    rw [h k (by omega), h (k + 1) (by omega)] at h1
    exact h1
  · intro h k hk
    induction k with
    | zero => simp [served, h0]
    | succ k ih =>
        have hk' : served F k = F k := ih (by omega)
        show min (served F k + 1) (F (k + 1)) = F (k + 1)
        rw [hk']
        exact min_eq_right (h k (by omega))

end OnePerTick
