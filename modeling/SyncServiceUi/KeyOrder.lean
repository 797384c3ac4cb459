/-
SyncServiceUi/KeyOrder.lean

Lists kept in order by inserting each new element at its place, where
several elements may tie.

`List.orderedInsert before a` puts `a` in front of the first element that
`before` lets it precede.  When the list is ordered by `le`, the two
relations have to fit: `Rule le before` says how.  A rule leaves one choice
open, whether a new element goes in front of those it ties with or behind
them, and the facts here hold either way: insertion keeps the order, it
commutes with dropping elements and with changing one in place, and two
insertions commute unless their elements tie.  The two choices mirror each
other: one in the reversed list is the other, reversed.

The last section has the two rules for an order by a key, ascending (ties
behind) and descending (ties in front).
-/
import Mathlib.Data.List.Chain
import Mathlib.Data.List.Sort

namespace KeyOrder

variable {α : Type*} {le before : α → α → Prop}

/-- `before` tells where a new element goes in a list ordered by `le`. -/
structure Rule (le before : α → α → Prop) : Prop where
  trans : ∀ {a b c}, le a b → le b c → le a c
  le_of_before : ∀ {a b}, before a b → le a b
  le_of_not_before : ∀ {a b}, ¬ before a b → le b a
  before_of_le : ∀ {a b c}, before a b → le b c → before a c

/-! ### Insertion -/

section Insertion

variable [DecidableRel before]

theorem orderedInsert_eq_cons {a : α} {l : List α} (h : ∀ b ∈ l, before a b) :
    l.orderedInsert before a = a :: l := by
  cases l with
  | nil => rfl
  | cons b l => exact List.orderedInsert_cons_of_le before l (h b List.mem_cons_self)

/-- Insertion at a position that was looked up. -/
theorem take_findIdx_append (a : α) (l : List α) :
    l.take (l.findIdx fun b => decide (before a b)) ++
        a :: l.drop (l.findIdx fun b => decide (before a b)) = l.orderedInsert before a := by
  induction l with
  | nil => rfl
  | cons b l ih =>
      by_cases hab : before a b
      · simp [List.findIdx_cons, hab]
      · simp [List.findIdx_cons, hab, ih]

/-- Where the elements that `a` does not precede all come first, it goes in
right behind them. -/
theorem orderedInsert_append {a : α} {l₁ l₂ : List α} (h₁ : ∀ b ∈ l₁, ¬ before a b)
    (h₂ : ∀ b ∈ l₂, before a b) : (l₁ ++ l₂).orderedInsert before a = l₁ ++ a :: l₂ := by
  induction l₁ with
  | nil => exact orderedInsert_eq_cons h₂
  | cons b l₁ ih =>
      obtain ⟨hb, hl₁⟩ := List.forall_mem_cons.mp h₁
      rw [List.cons_append, List.orderedInsert_of_not_le before _ hb, ih hl₁, List.cons_append]

/-- The place of a new element splits an ordered list in two. -/
theorem Rule.exists_split (h : Rule le before) (a : α) {l : List α} (hl : l.Pairwise le) :
    ∃ l₁ l₂, l = l₁ ++ l₂ ∧ (∀ b ∈ l₁, ¬ before a b) ∧ ∀ b ∈ l₂, before a b := by
  induction l with
  | nil => exact ⟨[], [], rfl, by simp, by simp⟩
  | cons b l ih =>
      obtain ⟨hb, hl'⟩ := List.pairwise_cons.mp hl
      by_cases hab : before a b
      · refine ⟨[], b :: l, rfl, by simp, ?_⟩
        intro x hx
        rcases List.mem_cons.mp hx with rfl | hx
        · exact hab
        · exact h.before_of_le hab (hb x hx)
      · obtain ⟨l₁, l₂, rfl, h₁, h₂⟩ := ih hl'
        exact ⟨b :: l₁, l₂, rfl, List.forall_mem_cons.mpr ⟨hab, h₁⟩, h₂⟩

/-- Insertion keeps the order. -/
theorem Rule.pairwise_orderedInsert (h : Rule le before) (a : α) {l : List α}
    (hl : l.Pairwise le) : (l.orderedInsert before a).Pairwise le := by
  induction l with
  | nil => exact List.pairwise_singleton le a
  | cons b l ih =>
      obtain ⟨hb, hl'⟩ := List.pairwise_cons.mp hl
      by_cases hab : before a b
      · rw [List.orderedInsert_cons_of_le before l hab]
        refine List.pairwise_cons.mpr ⟨fun x hx => ?_, hl⟩
        rcases List.mem_cons.mp hx with rfl | hx
        · exact h.le_of_before hab
        · exact h.trans (h.le_of_before hab) (hb x hx)
      · rw [List.orderedInsert_of_not_le before l hab]
        refine List.pairwise_cons.mpr ⟨fun x hx => ?_, ih hl'⟩
        rcases (List.mem_orderedInsert before).mp hx with rfl | hx
        · exact h.le_of_not_before hab
        · exact hb x hx

/-- Dropping elements before or after an insertion is the same. -/
theorem Rule.filter_orderedInsert (h : Rule le before) (p : α → Bool) {a : α} (ha : p a = true)
    {l : List α} (hl : l.Pairwise le) :
    (l.orderedInsert before a).filter p = (l.filter p).orderedInsert before a := by
  induction l with
  | nil => simp [ha]
  | cons b l ih =>
      obtain ⟨hb, hl'⟩ := List.pairwise_cons.mp hl
      by_cases hab : before a b
      · -- `b` may be dropped, but everything after it is preceded by `a` as well
        have hall : ∀ x ∈ (b :: l).filter p, before a x := by
          intro x hx
          rcases List.mem_cons.mp (List.mem_filter.mp hx).1 with rfl | hx
          · exact hab
          · exact h.before_of_le hab (hb x hx)
        rw [List.orderedInsert_cons_of_le before l hab, List.filter_cons_of_pos ha,
          orderedInsert_eq_cons hall]
      · rw [List.orderedInsert_of_not_le before l hab, List.filter_cons, List.filter_cons, ih hl']
        split
        · rw [List.orderedInsert_of_not_le before _ hab]
        · rfl

/-- Inserting an element that is dropped. -/
theorem filter_orderedInsert_of_not {p : α → Bool} {a : α} (ha : p a = false) (l : List α) :
    (l.orderedInsert before a).filter p = l.filter p := by
  induction l with
  | nil => simp [ha]
  | cons b l ih =>
      by_cases hab : before a b
      · rw [List.orderedInsert_cons_of_le before l hab, List.filter_cons_of_neg (by simp [ha])]
      · rw [List.orderedInsert_of_not_le before l hab, List.filter_cons, List.filter_cons, ih]

/-- Two elements that do not tie can be inserted in either order. -/
theorem Rule.orderedInsert_comm (h : Rule le before) {a b : α} (hab : before a b)
    (hba : ¬ before b a) (l : List α) :
    (l.orderedInsert before b).orderedInsert before a =
      (l.orderedInsert before a).orderedInsert before b := by
  induction l with
  | nil => simp [hab, hba]
  | cons c l ih =>
      by_cases hbc : before b c
      · -- both go in front of `c`, `a` first
        have hac : before a c := h.before_of_le hab (h.le_of_before hbc)
        simp [hab, hba, hbc, hac]
      · by_cases hac : before a c
        · -- `c` comes between them
          simp [hba, hbc, hac]
        · -- both go behind `c`
          simp [hbc, hac, ih]

/-- Two rules that say the opposite insert at mirrored places. -/
theorem Rule.reverse_orderedInsert (h : Rule le before) {before' : α → α → Prop}
    [DecidableRel before'] (a : α) (h' : ∀ b, before' a b ↔ ¬ before a b) {l : List α}
    (hl : l.Pairwise le) :
    l.reverse.orderedInsert before' a = (l.orderedInsert before a).reverse := by
  obtain ⟨l₁, l₂, rfl, h₁, h₂⟩ := h.exists_split a hl
  have h₁' : ∀ b ∈ l₁.reverse, before' a b := by
    intro b hb
    exact (h' b).mpr (h₁ b (List.mem_reverse.mp hb))
  have h₂' : ∀ b ∈ l₂.reverse, ¬ before' a b := by
    intro b hb hbefore
    exact (h' b).mp hbefore (h₂ b (List.mem_reverse.mp hb))
  calc (l₁ ++ l₂).reverse.orderedInsert before' a
      = (l₂.reverse ++ l₁.reverse).orderedInsert before' a := by rw [List.reverse_append]
    _ = l₂.reverse ++ a :: l₁.reverse := orderedInsert_append h₂' h₁'
    _ = (l₁ ++ a :: l₂).reverse := by simp
    _ = ((l₁ ++ l₂).orderedInsert before a).reverse := by rw [orderedInsert_append h₁ h₂]

end Insertion

/-- Dropping an element that is dropped anyway. -/
theorem filter_eraseIdx {p : α → Bool} {l : List α} {i : ℕ} (hi : i < l.length)
    (hp : p l[i] = false) : (l.eraseIdx i).filter p = l.filter p := by
  have hsplit : l.take i ++ l[i] :: l.drop (i + 1) = l := by
    rw [← List.drop_eq_getElem_cons hi, List.take_append_drop]
  calc (l.eraseIdx i).filter p
      = (l.take i).filter p ++ (l.drop (i + 1)).filter p := by
        rw [List.eraseIdx_eq_take_drop_succ, List.filter_append]
    _ = (l.take i ++ l[i] :: l.drop (i + 1)).filter p := by
        rw [List.filter_append, List.filter_cons_of_neg (by simp [hp])]
    _ = l.filter p := by rw [hsplit]

/-- Removing the first occurrence of one match leaves what dropping all
matches leaves iff there is no other match. -/
theorem erase_perm_filter_iff [DecidableEq α] {p : α → Bool} {a : α} (ha : p a = true)
    {l : List α} :
    (l.erase a).Perm (l.filter fun x => !p x) ↔ l.filter p = [] ∨ l.filter p = [a] := by
  have hsplit : (l.filter p ++ l.filter fun x => !p x).Perm l := List.filter_append_perm p l
  have hmem : a ∈ l ↔ a ∈ l.filter p := by simp [ha]
  refine ⟨?_, ?_⟩
  · intro h
    have hlength := hsplit.length_eq
    rw [List.length_append, ← h.length_eq] at hlength
    by_cases hal : a ∈ l
    · -- one element is gone, so there was one match
      have hpos : 0 < l.length := List.length_pos_of_mem hal
      rw [List.length_erase_of_mem hal] at hlength
      have hone : (l.filter p).length = 1 := by omega
      obtain ⟨b, hb⟩ := List.length_eq_one_iff.mp hone
      have hab : a ∈ l.filter p := hmem.mp hal
      rw [hb] at hab
      exact .inr (hb.trans (by rw [List.mem_singleton.mp hab]))
    · rw [List.erase_of_not_mem hal] at hlength
      exact .inl (List.length_eq_zero_iff.mp (by omega))
  · rintro (hnone | hone)
    · have hal : a ∉ l := by
        rw [hmem, hnone]
        exact List.not_mem_nil
      rw [hnone, List.nil_append] at hsplit
      rw [List.erase_of_not_mem hal]
      exact hsplit.symm
    · rw [hone, List.singleton_append] at hsplit
      have herase := hsplit.symm.erase a
      rwa [List.erase_cons_head] at herase

/-! ### Changing the first match in place -/

/-- Apply `f` to the first element that satisfies `p`. -/
def modifyFirst (p : α → Bool) (f : α → α) : List α → List α
  | [] => []
  | a :: l => if p a then f a :: l else a :: modifyFirst p f l

/-- Looking for the position first. -/
theorem modifyFirst_eq_findIdx? (p : α → Bool) (f : α → α) (l : List α) :
    modifyFirst p f l = match l.findIdx? p with
      | none => l
      | some i => l.modify i f := by
  induction l with
  | nil => rfl
  | cons a l ih =>
      rw [modifyFirst, List.findIdx?_cons]
      split
      · rfl
      · rw [ih]
        cases l.findIdx? p <;> rfl

theorem modifyFirst_of_forall_not {p : α → Bool} (f : α → α) {l : List α}
    (h : ∀ a ∈ l, p a = false) : modifyFirst p f l = l := by
  induction l with
  | nil => rfl
  | cons a l ih =>
      obtain ⟨ha, hl⟩ := List.forall_mem_cons.mp h
      rw [modifyFirst, if_neg (by simp [ha]), ih hl]

/-- Where there is a match, one of the changed elements is in the list. -/
theorem exists_mem_modifyFirst {p : α → Bool} (f : α → α) {l : List α} {a : α} (ha : a ∈ l)
    (hp : p a = true) : ∃ b ∈ l, p b = true ∧ f b ∈ modifyFirst p f l := by
  induction l with
  | nil => cases ha
  | cons c l ih =>
      by_cases hc : p c = true
      · exact ⟨c, List.mem_cons_self, hc, by simp [modifyFirst, hc]⟩
      · have hal : a ∈ l := by
          rcases List.mem_cons.mp ha with rfl | hal
          · exact absurd hp hc
          · exact hal
        obtain ⟨b, hb, hpb, hmem⟩ := ih hal
        exact ⟨b, List.mem_cons_of_mem c hb, hpb, by simp [modifyFirst, hc, hmem]⟩

/-- Changing the first match again changes nothing more. -/
theorem modifyFirst_modifyFirst {p : α → Bool} {f : α → α} (hp : ∀ a, p (f a) = p a)
    (hf : ∀ a, f (f a) = f a) (l : List α) :
    modifyFirst p f (modifyFirst p f l) = modifyFirst p f l := by
  induction l with
  | nil => rfl
  | cons a l ih =>
      rcases hpa : p a with - | - <;> simp [modifyFirst, hpa, hp, hf, ih]

/-- Changing the first match of `p` changes the matches of `q` instead, where
no element matches both, iff neither change is one. -/
theorem modifyFirst_eq_map_iff {p q : α → Bool} {f g : α → α}
    (hpq : ∀ a, p a = true → q a = false) {l : List α} :
    modifyFirst p f l = l.map (fun a => if q a then g a else a) ↔
      (∀ a ∈ l, q a = true → g a = a) ∧ ∀ a, l.find? p = some a → f a = a := by
  induction l with
  | nil => simp [modifyFirst]
  | cons a l ih =>
      rw [List.map_cons, List.forall_mem_cons]
      by_cases hpa : p a = true
      · have hqa : q a = false := hpq a hpa
        have hrest : l = l.map (fun b => if q b then g b else b) ↔
            ∀ b ∈ l, q b = true → g b = b := by
          have hmap := @List.map_inj_left _ _ l (fun b => if q b then g b else b) id
          rw [List.map_id] at hmap
          rw [eq_comm, hmap]
          simp
        simp [modifyFirst, hpa, hqa, hrest, and_comm]
      · have hmatch : a = (if q a then g a else a) ↔ (q a = true → g a = a) := by
          rw [eq_comm]
          simp
        rw [modifyFirst, if_neg hpa, List.cons.injEq, ih, hmatch, List.find?_cons_of_neg hpa,
          and_assoc]

/-- Changing the first match is no change iff that one is left as it is. -/
theorem modifyFirst_eq_self_iff {p : α → Bool} {f : α → α} {l : List α} :
    modifyFirst p f l = l ↔ ∀ a, l.find? p = some a → f a = a := by
  simpa using @modifyFirst_eq_map_iff α p (fun _ => false) f id (fun _ _ => rfl) l

/-- With one match, every match is changed. -/
theorem modifyFirst_of_filter_eq_singleton {p : α → Bool} {f : α → α} {a : α} {l : List α}
    (h : l.filter p = [a]) : modifyFirst p f l = l.map fun b => if p b then f b else b := by
  induction l with
  | nil => cases h
  | cons b l ih =>
      by_cases hb : p b = true
      · rw [List.filter_cons_of_pos hb] at h
        have hrest : ∀ c ∈ l, p c ≠ true := List.filter_eq_nil_iff.mp (List.cons.inj h).2
        have hkept : l.map (fun c => if p c then f c else c) = l := by
          have hid : ∀ c ∈ l, (if p c then f c else c) = id c := by
            intro c hc
            exact if_neg (hrest c hc)
          rw [List.map_congr_left hid, List.map_id]
        rw [modifyFirst, if_pos hb, List.map_cons, if_pos hb, hkept]
      · rw [List.filter_cons_of_neg hb] at h
        rw [modifyFirst, if_neg hb, List.map_cons, if_neg hb, ih h]

/-- What `f` leaves alone is left alone in the whole list. -/
theorem map_modifyFirst {β : Type*} {p : α → Bool} {f : α → α} {g : α → β}
    (hg : ∀ a, g (f a) = g a) (l : List α) : (modifyFirst p f l).map g = l.map g := by
  induction l with
  | nil => rfl
  | cons a l ih =>
      rw [modifyFirst]
      split
      · simp [hg]
      · simp [ih]

theorem length_modifyFirst (p : α → Bool) (f : α → α) (l : List α) :
    (modifyFirst p f l).length = l.length := by
  induction l with
  | nil => rfl
  | cons a l ih =>
      rw [modifyFirst]
      split
      · rfl
      · rw [List.length_cons, List.length_cons, ih]

theorem filter_modifyFirst {p q : α → Bool} {f : α → α}
    (hq : ∀ a, p a = true → q a = true ∧ q (f a) = true) (l : List α) :
    (modifyFirst p f l).filter q = modifyFirst p f (l.filter q) := by
  induction l with
  | nil => rfl
  | cons a l ih =>
      rw [modifyFirst]
      split
      · next hp => simp [hq a hp, modifyFirst, hp]
      · next hp =>
          rw [List.filter_cons, List.filter_cons, ih]
          split
          · rw [modifyFirst, if_neg hp]
          · rfl

/-- Changes of the first match of two properties that exclude each other. -/
theorem modifyFirst_comm {p q : α → Bool} {f g : α → α} (hpq : ∀ a, p a = true → q a = false)
    (hp : ∀ a, p (g a) = p a) (hq : ∀ a, q (f a) = q a) (l : List α) :
    modifyFirst p f (modifyFirst q g l) = modifyFirst q g (modifyFirst p f l) := by
  induction l with
  | nil => rfl
  | cons a l ih =>
      rcases hpa : p a with - | -
      · rcases hqa : q a with - | - <;> simp [modifyFirst, hpa, hqa, hp, ih]
      · -- the first match of `p` is here, so `q` has to look further
        have hqa : q a = false := hpq a hpa
        simp [modifyFirst, hpa, hqa, hq]

theorem modifyFirst_orderedInsert [DecidableRel before] {p : α → Bool} {f : α → α} {a : α}
    (ha : p a = false) (hf : ∀ b, before a (f b) ↔ before a b) (l : List α) :
    modifyFirst p f (l.orderedInsert before a) = (modifyFirst p f l).orderedInsert before a := by
  induction l with
  | nil => simp [modifyFirst, ha]
  | cons b l ih =>
      rcases hpb : p b with - | - <;> by_cases hab : before a b <;>
        simp [modifyFirst, ha, hpb, hab, hf, ih]

/-- The first match, once changed, fits between the elements next to it. -/
def FitsFirst (le : α → α → Prop) (p : α → Bool) (f : α → α) (l : List α) : Prop :=
  ∀ l₁ a l₂, l = l₁ ++ a :: l₂ → p a = true → (∀ b ∈ l₁, p b = false) →
    (∀ x, l₁.getLast? = some x → le x (f a)) ∧ ∀ y, l₂.head? = some y → le (f a) y

/-- An element of an ordered list can be replaced by one that fits between
the elements next to it. -/
theorem pairwise_replace_iff (htrans : ∀ a b c, le a b → le b c → le a c) {l₁ l₂ : List α}
    {a b : α} (h : (l₁ ++ a :: l₂).Pairwise le) :
    (l₁ ++ b :: l₂).Pairwise le ↔
      (∀ x, l₁.getLast? = some x → le x b) ∧ ∀ y, l₂.head? = some y → le b y := by
  have : Trans le le le := ⟨fun hab hbc => htrans _ _ _ hab hbc⟩
  -- it is enough to compare neighbours
  rw [← List.isChain_iff_pairwise, List.isChain_append, List.isChain_cons] at h ⊢
  obtain ⟨hbefore, ⟨-, hafter⟩, -⟩ := h
  refine ⟨?_, ?_⟩
  · rintro ⟨-, ⟨hhead, -⟩, hlast⟩
    exact ⟨fun x hx => hlast x hx b rfl, hhead⟩
  · rintro ⟨hlast, hhead⟩
    refine ⟨hbefore, ⟨hhead, hafter⟩, ?_⟩
    intro x hx y hy
    obtain rfl : b = y := Option.some.inj hy
    exact hlast x hx

/-- A change that the order does not see fits everywhere. -/
theorem fitsFirst_of_iff {p : α → Bool} {f : α → α} {l : List α}
    (hf : ∀ a b, (le (f a) b ↔ le a b) ∧ (le a (f b) ↔ le a b)) (h : l.Pairwise le) :
    FitsFirst le p f l := by
  rintro l₁ a l₂ rfl - -
  obtain ⟨-, hafter, hacross⟩ := List.pairwise_append.mp h
  refine ⟨?_, ?_⟩
  · intro x hx
    exact (hf x a).2.mpr (hacross x (List.mem_of_getLast? hx) a List.mem_cons_self)
  · intro y hy
    exact (hf a y).1.mpr ((List.pairwise_cons.mp hafter).1 y (List.mem_of_head? hy))

theorem modifyFirst_append {p : α → Bool} {f : α → α} {l₁ l₂ : List α} {a : α} (ha : p a = true)
    (h : ∀ b ∈ l₁, p b = false) : modifyFirst p f (l₁ ++ a :: l₂) = l₁ ++ f a :: l₂ := by
  induction l₁ with
  | nil => simp [modifyFirst, ha]
  | cons b l₁ ih =>
      obtain ⟨hb, hl₁⟩ := List.forall_mem_cons.mp h
      simp [modifyFirst, hb, ih hl₁]

/-- Changing the first match keeps the order iff it fits where it is. -/
theorem pairwise_modifyFirst_iff (htrans : ∀ a b c, le a b → le b c → le a c)
    {p : α → Bool} {f : α → α} {l : List α} (h : l.Pairwise le) :
    (modifyFirst p f l).Pairwise le ↔ FitsFirst le p f l := by
  refine ⟨?_, ?_⟩
  · rintro h' l₁ a l₂ rfl ha hl₁
    rw [modifyFirst_append ha hl₁] at h'
    exact (pairwise_replace_iff htrans h).mp h'
  · intro hfits
    rcases hfind : l.find? p with - | a
    · rw [modifyFirst_of_forall_not f (by simpa using hfind)]
      exact h
    · obtain ⟨ha, l₁, l₂, rfl, hl₁⟩ := List.find?_eq_some_iff_append.mp hfind
      have hl₁' : ∀ b ∈ l₁, p b = false := by simpa using hl₁
      rw [modifyFirst_append ha hl₁']
      exact (pairwise_replace_iff htrans h).mpr (hfits l₁ a l₂ rfl ha hl₁')

/-! ### Order by a key -/

section Key

variable {κ : Type*} [LinearOrder κ]

/-- Order in a direction. -/
def InOrder (ascending : Bool) (x y : κ) : Prop :=
  if ascending then x ≤ y else y ≤ x

/-- Where a new key goes: ascending behind the keys it equals, descending in
front of them. -/
def Precedes (ascending : Bool) (x y : κ) : Prop :=
  if ascending then x < y else y ≤ x

instance (ascending : Bool) (x y : κ) : Decidable (InOrder ascending x y) :=
  inferInstanceAs (Decidable (if ascending then x ≤ y else y ≤ x))

instance (ascending : Bool) (x y : κ) : Decidable (Precedes ascending x y) :=
  inferInstanceAs (Decidable (if ascending then x < y else y ≤ x))

theorem rule_of_key (key : α → κ) (ascending : Bool) :
    Rule (fun a b => InOrder ascending (key a) (key b))
      (fun a b => Precedes ascending (key a) (key b)) := by
  cases ascending with
  | true =>
      -- `a ≤ b`, and `a < b` puts `a` behind the elements it ties with
      refine ⟨?_, ?_, ?_, ?_⟩
      · intro a b c hab hbc
        exact le_trans hab hbc
      · intro a b hab
        exact le_of_lt hab
      · intro a b hab
        exact le_of_not_gt hab
      · intro a b c hab hbc
        exact lt_of_lt_of_le hab hbc
  | false =>
      -- both relations are `b ≤ a`, which puts `a` in front of them
      refine ⟨?_, ?_, ?_, ?_⟩
      · intro a b c hab hbc
        exact le_trans hbc hab
      · intro a b hab
        exact hab
      · intro a b hab
        exact le_of_not_ge hab
      · intro a b c hab hbc
        exact le_trans hbc hab

/-- Different keys do not tie. -/
theorem precedes_or_precedes {x y : κ} (h : x ≠ y) (ascending : Bool) :
    Precedes ascending x y ∧ ¬ Precedes ascending y x ∨
      Precedes ascending y x ∧ ¬ Precedes ascending x y := by
  rcases lt_or_gt_of_ne h with hlt | hgt
  · cases ascending with
    | true => exact .inl ⟨hlt, not_lt_of_ge hlt.le⟩
    | false => exact .inr ⟨hlt.le, not_le_of_gt hlt⟩
  · cases ascending with
    | true => exact .inr ⟨hgt, not_lt_of_ge hgt.le⟩
    | false => exact .inl ⟨hgt.le, not_le_of_gt hgt⟩

/-- With the same elements of every key, the head of the one is in the other. -/
theorem head_mem_of_filter {key : α → κ} {a : α} {l l' : List α}
    (hkey : ∀ c, ((a :: l).filter fun b => key b = key c) = l'.filter fun b => key b = key c) :
    a ∈ l' := by
  have hmem : a ∈ (a :: l).filter fun b => key b = key a := by simp
  rw [hkey] at hmem
  exact (List.mem_filter.mp hmem).1

/-- Two ordered lists that each hold the head of the other begin with one
key. -/
theorem head_key_eq {key : α → κ} {ascending : Bool} {a a' : α} {l l' : List α}
    (hle : ∀ b ∈ l, InOrder ascending (key a) (key b))
    (hle' : ∀ b ∈ l', InOrder ascending (key a') (key b))
    (ha : a ∈ a' :: l') (ha' : a' ∈ a :: l) : key a' = key a := by
  rcases List.mem_cons.mp ha with rfl | ha
  · rfl
  rcases List.mem_cons.mp ha' with rfl | ha'
  · rfl
  have haa' := hle a' ha'
  have ha'a := hle' a ha
  cases ascending with
  | true => exact le_antisymm ha'a haa'
  | false => exact le_antisymm haa' ha'a

/-- Two ordered lists with the same elements of every key, in the same
order, are the same list. -/
theorem eq_of_pairwise_of_filter {key : α → κ} {ascending : Bool} {l l' : List α}
    (h : l.Pairwise fun a b => InOrder ascending (key a) (key b))
    (h' : l'.Pairwise fun a b => InOrder ascending (key a) (key b))
    (hkey : ∀ c, (l.filter fun a => key a = key c) = l'.filter fun a => key a = key c) :
    l = l' := by
  induction l generalizing l' with
  | nil =>
      rcases l' with - | ⟨a', l'⟩
      · rfl
      · cases head_mem_of_filter fun c => (hkey c).symm
  | cons a l ih =>
      rcases l' with - | ⟨a', l'⟩
      · cases head_mem_of_filter hkey
      · obtain ⟨hle, hl⟩ := List.pairwise_cons.mp h
        obtain ⟨hle', hl'⟩ := List.pairwise_cons.mp h'
        have hk : key a' = key a :=
          head_key_eq hle hle' (head_mem_of_filter hkey)
            (head_mem_of_filter fun c => (hkey c).symm)
        have hheads := hkey a
        rw [List.filter_cons_of_pos (by simp), List.filter_cons_of_pos (by simp [hk])] at hheads
        obtain ⟨rfl, hsame⟩ := List.cons.inj hheads
        rw [ih hl hl' ?_]
        intro c
        by_cases hc : key a = key c
        · rw [← hc]
          exact hsame
        · have hrest := hkey c
          rwa [List.filter_cons_of_neg (by simp [hc]), List.filter_cons_of_neg (by simp [hc])]
            at hrest

end Key

end KeyOrder
