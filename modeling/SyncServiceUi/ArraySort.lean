/-
SyncServiceUi/ArraySort.lean

A sort routine that is given a comparator, and what a program may rely on.

The comparator returns a number, negative when its first argument is to come
first, and may throw.  `ArraySort` asks of the routine that a comparator that
does not throw makes it return the same elements, and that a `Consistent` one
makes it return them in order; nothing is said about a comparator that
throws, or about the order of elements that compare equal; to keep these as
they are is a property of its own (`Stable`).  `ArraySort.insertion` is such a
routine, and stable.
-/
import Mathlib.Tactic.Common
import SyncServiceUi.KeyOrder

namespace ArraySort

open KeyOrder

/-- A comparator that agrees with an order of the elements. -/
structure Consistent {α : Type} (compare : α → α → ℤ) : Prop where
  antisymm : ∀ a b, compare b a = - compare a b
  trans : ∀ a b c, compare a b ≤ 0 → compare b c ≤ 0 → compare a c ≤ 0

/-- Comparing by a key, in a direction. -/
def byKey {α κ : Type} [LinearOrder κ] (ascending : Bool) (key : α → κ) (a b : α) : ℤ :=
  if ascending then if key b < key a then 1 else if key a < key b then -1 else 0
  else if key a < key b then 1 else if key b < key a then -1 else 0

theorem byKey_nonpos_iff {α κ : Type} [LinearOrder κ] {ascending : Bool} {key : α → κ} {a b : α} :
    byKey ascending key a b ≤ 0 ↔ InOrder ascending (key a) (key b) := by
  cases ascending with
  | true => rcases lt_trichotomy (key a) (key b) with h | h | h <;>
      simp [byKey, InOrder, h, h.le, not_lt_of_gt]
  | false => rcases lt_trichotomy (key a) (key b) with h | h | h <;>
      simp [byKey, InOrder, h, h.le, not_lt_of_gt]

theorem byKey_eq_zero_iff {α κ : Type} [LinearOrder κ] {ascending : Bool} {key : α → κ} {a b : α} :
    byKey ascending key a b = 0 ↔ key a = key b := by
  rcases lt_trichotomy (key a) (key b) with hlt | heq | hgt
  · cases ascending <;> simp [byKey, hlt, not_lt_of_gt hlt, hlt.ne]
  · cases ascending <;> simp [byKey, heq]
  · cases ascending <;> simp [byKey, hgt, not_lt_of_gt hgt, hgt.ne']

theorem consistent_byKey {α κ : Type} [LinearOrder κ] (ascending : Bool) (key : α → κ) :
    Consistent (byKey ascending key) := by
  refine ⟨?_, ?_⟩
  · intro a b
    cases ascending <;> rcases lt_trichotomy (key a) (key b) with h | h | h <;>
      simp [byKey, h, not_lt_of_gt]
  · intro a b c hab hbc
    rw [byKey_nonpos_iff] at hab hbc ⊢
    exact (rule_of_key key ascending).trans hab hbc

end ArraySort

open ArraySort in
/-- What a program may rely on. -/
structure ArraySort (ε α : Type) where
  sort : (α → α → Except ε ℤ) → List α → Except ε (List α)
  spec : ∀ (compare : α → α → ℤ) (l : List α), ∃ sorted,
    sort (fun a b => .ok (compare a b)) l = .ok sorted ∧ sorted.Perm l ∧
      (Consistent compare → sorted.Pairwise fun a b => compare a b ≤ 0)

namespace ArraySort

open KeyOrder

variable {ε α : Type}

/-- Elements that compare equal stay in the order they were in. -/
def Stable (sorter : ArraySort ε α) : Prop :=
  ∀ (compare : α → α → ℤ) (l sorted : List α), Consistent compare →
    sorter.sort (fun a b => .ok (compare a b)) l = .ok sorted →
      ∀ a, (sorted.filter fun b => compare b a = 0) = l.filter fun b => compare b a = 0

/-! ### Insertion sort -/

/-- Put `a` in front of the first element it does not come after. -/
def insert (compare : α → α → Except ε ℤ) (a : α) : List α → Except ε (List α)
  | [] => return [a]
  | b :: l => do
      if (← compare a b) ≤ 0 then return a :: b :: l
      return b :: (← insert compare a l)

def insertAll (compare : α → α → Except ε ℤ) : List α → Except ε (List α)
  | [] => return []
  | a :: l => do insert compare a (← insertAll compare l)

theorem insert_ok (compare : α → α → ℤ) (a : α) (l : List α) :
    insert (ε := ε) (fun a b => .ok (compare a b)) a l =
      .ok (l.orderedInsert (compare · · ≤ 0) a) := by
  induction l with
  | nil => rfl
  | cons b l ih =>
      by_cases h : compare a b ≤ 0
      · rw [List.orderedInsert_cons_of_le _ l h]
        simp [insert, h, pure, Except.pure, bind, Except.bind]
      · rw [List.orderedInsert_of_not_le _ l h]
        simp [insert, ih, h, pure, Except.pure, bind, Except.bind]

theorem insertAll_ok (compare : α → α → ℤ) (l : List α) :
    insertAll (ε := ε) (fun a b => .ok (compare a b)) l =
      .ok (l.insertionSort (compare · · ≤ 0)) := by
  induction l with
  | nil => rfl
  | cons a l ih =>
      rw [insertAll, ih, List.insertionSort_cons, ← insert_ok]
      rfl

theorem pairwise_insertionSort {compare : α → α → ℤ} (h : Consistent compare) (l : List α) :
    (l.insertionSort (compare · · ≤ 0)).Pairwise fun a b => compare a b ≤ 0 := by
  have htotal : Std.Total fun a b : α => compare a b ≤ 0 := by
    refine ⟨?_⟩
    intro a b
    have hab := h.antisymm a b
    omega
  have htrans : IsTrans α fun a b => compare a b ≤ 0 := ⟨h.trans⟩
  exact List.pairwise_insertionSort _ l

/-- Insertion sort is such a routine. -/
def insertion : ArraySort ε α where
  sort := insertAll
  spec compare l := by
    refine ⟨l.insertionSort (compare · · ≤ 0), insertAll_ok compare l, ?_, ?_⟩
    · exact List.perm_insertionSort _ l
    · intro h
      exact pairwise_insertionSort h l

/-- In front of what it ties with is the place of a new element. -/
theorem rule_of_consistent {compare : α → α → ℤ} (h : Consistent compare) :
    Rule (compare · · ≤ 0) (compare · · ≤ 0) := by
  refine ⟨?_, ?_, ?_, ?_⟩
  · intro a b c hab hbc
    exact h.trans a b c hab hbc
  · intro a b hab
    exact hab
  · intro a b hab
    have hba := h.antisymm a b
    omega
  · intro a b c hab hbc
    exact h.trans a b c hab hbc

/-- Each element goes in front of those that came after it. -/
theorem filter_insertionSort {compare : α → α → ℤ} (h : Consistent compare) (a : α) (l : List α) :
    ((l.insertionSort (compare · · ≤ 0)).filter fun b => compare b a = 0) =
      l.filter fun b => compare b a = 0 := by
  induction l with
  | nil => rfl
  | cons c l ih =>
      rw [List.insertionSort_cons]
      by_cases hc : compare c a = 0
      · have hties : ∀ b ∈ l.filter (fun b => compare b a = 0), compare c b ≤ 0 := by
          intro b hb
          have hba : compare b a = 0 := by simpa using (List.mem_filter.mp hb).2
          have hab := h.antisymm b a
          exact h.trans c a b hc.le (by omega)
        rw [(rule_of_consistent h).filter_orderedInsert _ (by simpa using hc)
          (pairwise_insertionSort h l), ih, orderedInsert_eq_cons hties,
          List.filter_cons_of_pos (by simpa using hc)]
      · rw [filter_orderedInsert_of_not (by simpa using hc), ih,
          List.filter_cons_of_neg (by simpa using hc)]

theorem stable_insertion : Stable (insertion : ArraySort ε α) := by
  intro compare l sorted h hsort a
  obtain rfl := Except.ok.inj ((insertAll_ok compare l).symm.trans hsort)
  exact filter_insertionSort h a l

end ArraySort
