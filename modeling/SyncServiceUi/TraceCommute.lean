/-
SyncServiceUi/TraceCommute.lean

Steps of different classes that commute, and lists of steps that differ only
in how the classes are interleaved.

Two lists of steps have the same `proj c k` for every class `k` when each
class has the same steps in the same order in both.  If any two steps of
different classes commute in the states of an invariant, such lists lead to
the same state (`Commutes.run_eq_of_proj`).  Commuting may rest on a relation between
the two steps that holds throughout the list (`Compat`).
-/
import SyncServiceUi.Runs

namespace TraceCommute

open Runs

variable {σ α κ : Type*}

/-- Steps of different classes commute. -/
structure Commutes (step : σ → α → σ) (Inv : σ → Prop) (c : α → κ)
    (Compat : α → α → Prop) : Prop where
  inv : ∀ s a, Inv s → Inv (step s a)
  symm : ∀ a b, Compat a b → Compat b a
  comm : ∀ s a b, Inv s → c a ≠ c b → Compat a b → step (step s a) b = step (step s b) a

variable {step : σ → α → σ} {Inv : σ → Prop} {c : α → κ} {Compat : α → α → Prop}

/-- A step moves to the front past steps of other classes. -/
theorem Commutes.run_move (h : Commutes step Inv c Compat) {a : α} {s : σ} {pre : List α}
    (hs : Inv s) (hc : ∀ b ∈ pre, c b ≠ c a) (hcompat : ∀ b ∈ pre, Compat b a) :
    step (run step s pre) a = run step (step s a) pre := by
  induction pre generalizing s with
  | nil => rfl
  | cons b pre ih =>
      have hb := h.comm s b a hs (hc b List.mem_cons_self) (hcompat b List.mem_cons_self)
      show step (run step (step s b) pre) a = run step (step (step s a) b) pre
      rw [← hb]
      apply ih
      · exact h.inv s b hs
      · intro x hx
        exact hc x (List.mem_cons_of_mem b hx)
      · intro x hx
        exact hcompat x (List.mem_cons_of_mem b hx)

variable [DecidableEq κ]

/-- The steps of class `k`, in order. -/
def proj (c : α → κ) (k : κ) (as : List α) : List α :=
  as.filter fun a => c a = k

theorem mem_of_proj_eq {as bs : List α} (h : ∀ k, proj c k as = proj c k bs) {b : α}
    (hb : b ∈ bs) : b ∈ as := by
  have hmem : b ∈ proj c (c b) bs := List.mem_filter.mpr ⟨hb, by simp⟩
  rw [← h (c b)] at hmem
  exact (List.mem_filter.mp hmem).1

/-- The first step of one list is, in the other, preceded by other classes
only; without it the lists still have the same steps in each class. -/
theorem exists_append_of_proj_cons {a : α} {as bs : List α}
    (h : ∀ k, proj c k (a :: as) = proj c k bs) :
    ∃ pre post, bs = pre ++ a :: post ∧ (∀ b ∈ pre, c b ≠ c a) ∧
      ∀ k, proj c k as = proj c k (pre ++ post) := by
  have ha : proj c (c a) bs = a :: proj c (c a) as := by
    rw [← h (c a)]
    simp [proj]
  obtain ⟨pre, post, rfl, hpre, -, hpost⟩ := List.filter_eq_cons_iff.mp ha
  have hpre' : ∀ b ∈ pre, c b ≠ c a := fun b hb => by simpa using hpre b hb
  refine ⟨pre, post, rfl, hpre', fun k => ?_⟩
  have hk := h k
  by_cases hak : c a = k
  · subst hak
    have hnil : proj c (c a) pre = [] := List.filter_eq_nil_iff.mpr (by simpa using hpre')
    rw [← hpost, ← List.nil_append (List.filter _ post), ← hnil]
    exact (List.filter_append _ _).symm
  · simpa [proj, hak] using hk

/-- Lists that differ only in how the classes are interleaved. -/
theorem Commutes.run_eq_of_proj (h : Commutes step Inv c Compat) {s : σ} {as bs : List α}
    (hs : Inv s) (hcompat : as.Pairwise Compat) (hproj : ∀ k, proj c k as = proj c k bs) :
    run step s as = run step s bs := by
  induction as generalizing s bs with
  | nil =>
      have hbs : bs = [] := by
        apply List.eq_nil_iff_forall_not_mem.mpr
        intro b hb
        have hmem : b ∈ ([] : List α) := mem_of_proj_eq hproj hb
        exact List.not_mem_nil hmem
      rw [hbs]
  | cons a as ih =>
      obtain ⟨hca, hcas⟩ := List.pairwise_cons.mp hcompat
      obtain ⟨pre, post, rfl, hpre, hrest⟩ := exists_append_of_proj_cons hproj
      have hpreCompat : ∀ b ∈ pre, Compat b a := by
        intro b hb
        have hmem : b ∈ as := mem_of_proj_eq hrest (List.mem_append_left post hb)
        exact h.symm a b (hca b hmem)
      calc run step s (a :: as)
          = run step (step s a) (pre ++ post) := ih (h.inv s a hs) hcas hrest
        _ = run step (run step (step s a) pre) post := run_append _ _ _
        _ = run step (step (run step s pre) a) post := by
            rw [h.run_move hs hpre hpreCompat]
        _ = run step s (pre ++ a :: post) := by rw [run_append, run_cons]

end TraceCommute
