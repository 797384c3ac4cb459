/-
SyncServiceUi/Completion.lean

When does a computation that can fail complete?

`Completes x` says that `x : Except ε α` returns.  The rules below take it
apart along the constructors of a `do` block: a bind completes iff both
halves do, and a loop over a list completes iff every round does.
-/
import Mathlib.Data.List.Forall2
import Mathlib.Tactic.Common

namespace Completion

variable {ε α β : Type}

/-- The computation returns a value. -/
def Completes (x : Except ε α) : Prop :=
  ∃ a, x = .ok a

@[simp] theorem completes_ok (a : α) : Completes (.ok a : Except ε α) :=
  ⟨a, rfl⟩

@[simp] theorem completes_pure (a : α) : Completes (pure a : Except ε α) :=
  ⟨a, rfl⟩

@[simp] theorem not_completes_error (e : ε) : ¬ Completes (.error e : Except ε α) := by
  intro h'
  obtain ⟨a, h⟩ := h'
  cases h

theorem ok_bind (a : α) (f : α → Except ε β) : Except.ok a >>= f = f a := rfl

theorem bind_eq_ok_iff {x : Except ε α} {f : α → Except ε β} {b : β} :
    x >>= f = .ok b ↔ ∃ a, x = .ok a ∧ f a = .ok b := by
  rcases x with e | a
  · simp [bind, Except.bind]
  · simp [bind, Except.bind]

theorem completes_bind {x : Except ε α} {f : α → Except ε β} :
    Completes (x >>= f) ↔ ∃ a, x = .ok a ∧ Completes (f a) := by
  simp only [Completes, bind_eq_ok_iff]
  refine ⟨?_, ?_⟩
  · intro h
    obtain ⟨b, a, hx, hf⟩ := h
    exact ⟨a, hx, b, hf⟩
  · intro h
    obtain ⟨a, hx, b, hf⟩ := h
    exact ⟨b, a, hx, hf⟩

/-- A loop that collects one result per element. -/
theorem mapM_eq_ok_iff {f : α → Except ε β} {l : List α} {bs : List β} :
    l.mapM f = .ok bs ↔ List.Forall₂ (fun a b => f a = .ok b) l bs := by
  induction l generalizing bs with
  | nil => simp [pure, Except.pure, eq_comm]
  | cons a l ih =>
      simp only [List.mapM_cons, bind_eq_ok_iff, List.forall₂_cons_left_iff]
      refine ⟨?_, ?_⟩
      · intro h
        obtain ⟨b, hb, bs', hbs', he⟩ := h
        exact ⟨b, bs', hb, ih.mp hbs', (Except.ok.inj he).symm⟩
      · intro h
        obtain ⟨b, bs', hb, hbs', rfl⟩ := h
        exact ⟨b, hb, bs', ih.mpr hbs', rfl⟩

/-- A loop that collects one result per element completes iff every round does. -/
theorem completes_mapM {f : α → Except ε β} {l : List α} :
    Completes (l.mapM f) ↔ ∀ a ∈ l, Completes (f a) := by
  induction l with
  | nil => simp
  | cons a l ih =>
      simp only [List.mapM_cons, completes_bind, List.forall_mem_cons]
      refine ⟨?_, ?_⟩
      · intro h
        obtain ⟨b, hb, bs, hbs, -⟩ := h
        exact ⟨⟨b, hb⟩, ih.mp ⟨bs, hbs⟩⟩
      · intro h
        obtain ⟨⟨b, hb⟩, hl⟩ := h
        obtain ⟨bs, hbs⟩ := ih.mpr hl
        exact ⟨b, hb, bs, hbs, completes_pure _⟩

end Completion
