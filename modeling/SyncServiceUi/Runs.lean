/-
SyncServiceUi/Runs.lean

Runs of a deterministic step function.

`run step s as` is the state after the steps `as`, `Meets ok s as` says that
every step of the run is taken in a state where `ok` allows it, and
`Always P s as` that `P` holds in every state the run passes through, the
first and the last included.

Three rules connect them.  `always_of_invariant` is the invariant rule: a
property that every step keeps holds throughout every run.
`always_iff_meets` is its exact form: where `ok` says precisely when a step
keeps the property, the property holds throughout a run iff every step of it
is allowed.  `simulates_iff_meets` says the same of a simulation, and
`run_le` bounds a run by one of a monotone abstract machine.

`trace out s as` collects what the steps put out on the way.  A component
that takes the outputs as its steps goes through the run of its own that the
trace is (`run_trace`), so what is known of its runs holds in the whole.
-/
import Mathlib.Data.List.Basic
import Mathlib.Order.Monotone.Defs
import Mathlib.Tactic.Common

namespace Runs

variable {σ α : Type*} {step : σ → α → σ}

/-- The state after the steps `as`. -/
def run (step : σ → α → σ) (s : σ) (as : List α) : σ :=
  as.foldl step s

/-- Every step is taken in a state where it is allowed. -/
def Meets (step : σ → α → σ) (ok : σ → α → Prop) : σ → List α → Prop
  | _, [] => True
  | s, a :: as => ok s a ∧ Meets step ok (step s a) as

/-- `P` holds in every state of the run. -/
def Always (step : σ → α → σ) (P : σ → Prop) (s : σ) (as : List α) : Prop :=
  ∀ pre, pre <+: as → P (run step s pre)

@[simp] theorem run_nil (s : σ) : run step s [] = s := rfl

@[simp] theorem run_cons (s : σ) (a : α) (as : List α) :
    run step s (a :: as) = run step (step s a) as := rfl

theorem run_append (s : σ) (as bs : List α) :
    run step s (as ++ bs) = run step (run step s as) bs :=
  List.foldl_append

theorem always_nil {P : σ → Prop} {s : σ} : Always step P s [] ↔ P s := by
  simp [Always]

theorem always_cons {P : σ → Prop} {s : σ} {a : α} {as : List α} :
    Always step P s (a :: as) ↔ P s ∧ Always step P (step s a) as := by
  refine ⟨?_, ?_⟩
  · intro h
    refine ⟨h [] List.nil_prefix, ?_⟩
    intro pre hpre
    exact h (a :: pre) (List.cons_prefix_cons.mpr ⟨rfl, hpre⟩)
  · rintro ⟨hs, has⟩ (- | ⟨b, pre⟩) hpre
    · exact hs
    · obtain ⟨rfl, hrest⟩ := List.cons_prefix_cons.mp hpre
      exact has pre hrest

/-- The last state is one of the states of the run. -/
theorem Always.last {P : σ → Prop} {s : σ} {as : List α} (h : Always step P s as) :
    P (run step s as) :=
  h as (List.prefix_refl as)

/-- The invariant rule. -/
theorem always_of_invariant {P : σ → Prop} (hstep : ∀ s a, P s → P (step s a)) {s : σ}
    (hs : P s) (as : List α) : Always step P s as := by
  induction as generalizing s with
  | nil => exact always_nil.mpr hs
  | cons a as ih => exact always_cons.mpr ⟨hs, ih (hstep s a hs)⟩

/-- The invariant rule, for runs whose steps are allowed. -/
theorem always_of_meets {ok : σ → α → Prop} {P : σ → Prop}
    (hstep : ∀ s a, P s → ok s a → P (step s a)) {s : σ} (hs : P s) {as : List α}
    (h : Meets step ok s as) : Always step P s as := by
  induction as generalizing s with
  | nil => exact always_nil.mpr hs
  | cons a as ih =>
      obtain ⟨hok, hrest⟩ := h
      exact always_cons.mpr ⟨hs, ih (hstep s a hs hok) hrest⟩

theorem meets_and {ok ok' : σ → α → Prop} {s : σ} {as : List α} :
    Meets step (fun s a => ok s a ∧ ok' s a) s as ↔ Meets step ok s as ∧ Meets step ok' s as := by
  induction as generalizing s with
  | nil => simp [Meets]
  | cons a as ih =>
      rw [Meets, Meets, Meets, ih]
      exact and_and_and_comm

theorem meets_append {ok : σ → α → Prop} {s : σ} {as bs : List α} :
    Meets step ok s (as ++ bs) ↔ Meets step ok s as ∧ Meets step ok (run step s as) bs := by
  induction as generalizing s with
  | nil => simp [Meets]
  | cons a as ih =>
      rw [List.cons_append, Meets, Meets, ih, run_cons, and_assoc]

/-- A run that is not allowed has a first step that is not. -/
theorem exists_of_not_meets {ok : σ → α → Prop} {s : σ} {as : List α}
    (h : ¬ Meets step ok s as) :
    ∃ pre a, pre ++ [a] <+: as ∧ Meets step ok s pre ∧ ¬ ok (run step s pre) a := by
  induction as generalizing s with
  | nil => exact absurd trivial h
  | cons a as ih =>
      by_cases hok : ok s a
      · obtain ⟨pre, b, hpre, hmeets, hb⟩ := ih fun hrest => h ⟨hok, hrest⟩
        exact ⟨a :: pre, b, List.cons_prefix_cons.mpr ⟨rfl, hpre⟩, ⟨hok, hmeets⟩, hb⟩
      · exact ⟨[], a, List.cons_prefix_cons.mpr ⟨rfl, List.nil_prefix⟩, trivial, hok⟩

/-- The exact form of the invariant rule. -/
theorem always_iff_meets {ok : σ → α → Prop} {P : σ → Prop}
    (hstep : ∀ s a, P s → (P (step s a) ↔ ok s a)) {s : σ} {as : List α} (hs : P s) :
    Always step P s as ↔ Meets step ok s as := by
  induction as generalizing s with
  | nil => simpa [Meets, always_nil] using hs
  | cons a as ih =>
      rw [always_cons, Meets]
      refine ⟨?_, ?_⟩
      · intro h'
        obtain ⟨-, h⟩ := h'
        have ha : P (step s a) := h [] List.nil_prefix
        exact ⟨(hstep s a hs).mp ha, (ih ha).mp h⟩
      · intro h'
        obtain ⟨hok, h⟩ := h'
        exact ⟨hs, (ih ((hstep s a hs).mpr hok)).mpr h⟩

/-- Where `ok` says precisely when a step of the code is the step of an
abstract machine, the runs agree throughout iff every step is allowed. -/
theorem simulates_iff_meets {τ : Type*} {astep : τ → α → τ} {abs : σ → τ} {ok : σ → α → Prop}
    (hstep : ∀ s a, abs (step s a) = astep (abs s) a ↔ ok s a) {s : σ} {as : List α} :
    (∀ pre, pre <+: as → abs (run step s pre) = run astep (abs s) pre) ↔ Meets step ok s as := by
  induction as generalizing s with
  | nil => simp [Meets]
  | cons a as ih =>
      rw [Meets, ← hstep, ← ih]
      refine ⟨?_, ?_⟩
      · intro h
        have ha : abs (step s a) = astep (abs s) a :=
          h [a] (List.cons_prefix_cons.mpr ⟨rfl, List.nil_prefix⟩)
        refine ⟨ha, fun pre hpre => ?_⟩
        rw [ha]
        exact h (a :: pre) (List.cons_prefix_cons.mpr ⟨rfl, hpre⟩)
      · rintro ⟨ha, has⟩ (- | ⟨b, pre⟩) hpre
        · rfl
        · obtain ⟨rfl, hrest⟩ := List.cons_prefix_cons.mp hpre
          rw [run_cons, run_cons, ← ha]
          exact has pre hrest

/-- Where a step of the code does at most what the abstract machine does, so
does a run. -/
theorem run_le {τ : Type*} [Preorder τ] {astep : τ → α → τ} {abs : σ → τ}
    (hstep : ∀ s a, abs (step s a) ≤ astep (abs s) a)
    (hmono : ∀ a, Monotone fun t => astep t a) (s : σ) (as : List α) :
    abs (run step s as) ≤ run astep (abs s) as := by
  have hruns : ∀ (as : List α) (t t' : τ), t ≤ t' → run astep t as ≤ run astep t' as := by
    intro as
    induction as with
    | nil => exact fun _ _ h => h
    | cons a as ih => exact fun t t' h => ih _ _ (hmono a h)
  induction as generalizing s with
  | nil => exact le_refl _
  | cons a as ih => exact (ih (step s a)).trans (hruns as _ _ (hstep s a))

/-! ### Outputs -/

variable {β : Type*} {out : σ → α → List β}

/-- What the steps put out, in order. -/
def trace (step : σ → α → σ) (out : σ → α → List β) : σ → List α → List β
  | _, [] => []
  | s, a :: as => out s a ++ trace step out (step s a) as

theorem mem_trace {s : σ} {as : List α} {b : β} :
    b ∈ trace step out s as ↔ ∃ pre a, pre ++ [a] <+: as ∧ b ∈ out (run step s pre) a := by
  induction as generalizing s with
  | nil => simp [trace]
  | cons a as ih =>
      rw [trace, List.mem_append, ih]
      refine ⟨?_, ?_⟩
      · rintro (hb | ⟨pre, c, hpre, hb⟩)
        · exact ⟨[], a, List.cons_prefix_cons.mpr ⟨rfl, List.nil_prefix⟩, hb⟩
        · exact ⟨a :: pre, c, List.cons_prefix_cons.mpr ⟨rfl, hpre⟩, hb⟩
      · rintro ⟨- | ⟨d, pre⟩, c, hpre, hb⟩
        · obtain ⟨rfl, -⟩ := List.cons_prefix_cons.mp hpre
          exact .inl hb
        · obtain ⟨rfl, hrest⟩ := List.cons_prefix_cons.mp hpre
          exact .inr ⟨pre, c, hrest, hb⟩

/-- The step an output comes from, with what is put out after it. -/
theorem exists_of_trace_eq {s : σ} {as : List α} {xs ys : List β} {b : β}
    (h : trace step out s as = xs ++ b :: ys) :
    ∃ pre a post u v, as = pre ++ a :: post ∧ out (run step s pre) a = u ++ b :: v ∧
      ys = v ++ trace step out (step (run step s pre) a) post := by
  induction as generalizing s xs with
  | nil => simp [trace] at h
  | cons a as ih =>
      have hlater : ∀ {xs : List β}, trace step out (step s a) as = xs ++ b :: ys →
          ∃ pre c post u v, a :: as = pre ++ c :: post ∧ out (run step s pre) c = u ++ b :: v ∧
            ys = v ++ trace step out (step (run step s pre) c) post := by
        intro xs htrace
        obtain ⟨pre, c, post, u, v, rfl, hout, hys⟩ := ih htrace
        exact ⟨a :: pre, c, post, u, v, rfl, hout, hys⟩
      rw [trace] at h
      rcases List.append_eq_append_iff.mp h with ⟨xs', rfl, htrace⟩ | ⟨ys', hout, hys⟩
      · exact hlater htrace
      · cases ys' with
        | nil => exact @hlater [] hys.symm
        | cons c v =>
            obtain ⟨rfl, hv⟩ := List.cons.inj hys
            exact ⟨[], a, as, xs, v, rfl, hout, hv⟩

theorem trace_const (f : α → List β) (s : σ) (as : List α) :
    trace step (fun _ a => f a) s as = as.flatMap f := by
  induction as generalizing s with
  | nil => rfl
  | cons a as ih => rw [trace, ih, List.flatMap_cons]

/-- A component that takes the outputs as its steps. -/
theorem run_trace {τ : Type*} {component : σ → τ} {cstep : τ → β → τ}
    (hstep : ∀ s a, component (step s a) = run cstep (component s) (out s a)) (s : σ)
    (as : List α) :
    component (run step s as) = run cstep (component s) (trace step out s as) := by
  induction as generalizing s with
  | nil => rfl
  | cons a as ih => rw [run_cons, ih, hstep, trace, run_append]

end Runs
