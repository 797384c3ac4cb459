/-
SyncServiceUi/Mirror.lean

A value on display and a mirror of it in another object.

Some events write the display and tell the mirror (they are announced), some
write the display behind the mirror's back (they are silent), the others
touch neither.  What the two values are after any events is then read off
the events alone: `Trail` keeps the last announced value and the last silent
one after it.  `mirror_eq_shown_iff` says when they agree.
-/
import SyncServiceUi.Runs

namespace Mirror

open Runs

variable {σ ε β : Type*}

/-- What each event does to one control. -/
structure Control (ε β : Type*) where
  announced : ε → Option β
  silent : ε → Option β

/-- The last value announced, and the last one written silently since. -/
structure Trail (β : Type*) where
  announced : Option β
  silent : Option β
  deriving DecidableEq, Repr

/-- One event more. -/
def Control.advance (c : Control ε β) (t : Trail β) (e : ε) : Trail β :=
  match c.announced e, c.silent e with
  | some v, _ => ⟨some v, none⟩
  | none, some v => { t with silent := some v }
  | none, none => t

/-- The trail of a list of events. -/
def Control.trail (c : Control ε β) (es : List ε) : Trail β :=
  run c.advance ⟨none, none⟩ es

/-- What a trail leaves in the mirror. -/
def Trail.mirror (mirror₀ : β) (t : Trail β) : β :=
  t.announced.getD mirror₀

/-- What a trail leaves on display. -/
def Trail.shown (shown₀ : β) (t : Trail β) : β :=
  t.silent.getD (t.announced.getD shown₀)

/-- Nothing was written silently since the last announcement, or the same
value was. -/
def Trail.InStep (shown₀ mirror₀ : β) (t : Trail β) : Prop :=
  match t.silent with
  | some v => v = t.announced.getD mirror₀
  | none => t.announced = none → shown₀ = mirror₀

/-- The step function treats the pair `shown`, `mirror` as `c` says. -/
structure Follows (step : σ → ε → σ) (shown mirror : σ → β) (c : Control ε β) : Prop where
  announced : ∀ s e v, c.announced e = some v → shown (step s e) = v ∧ mirror (step s e) = v
  silent : ∀ s e v, c.announced e = none → c.silent e = some v →
    shown (step s e) = v ∧ mirror (step s e) = mirror s
  other : ∀ s e, c.announced e = none → c.silent e = none →
    shown (step s e) = shown s ∧ mirror (step s e) = mirror s

variable {step : σ → ε → σ} {shown mirror : σ → β} {c : Control ε β}

/-- The display and the mirror are what the trail leaves there. -/
def Reads (shown mirror : σ → β) (shown₀ mirror₀ : β) (s : σ) (t : Trail β) : Prop :=
  shown s = t.shown shown₀ ∧ mirror s = t.mirror mirror₀

/-- One event keeps the values in line with the trail. -/
theorem Follows.reads_step (h : Follows step shown mirror c) {shown₀ mirror₀ : β} {s : σ}
    {t : Trail β} (e : ε) (hs : Reads shown mirror shown₀ mirror₀ s t) :
    Reads shown mirror shown₀ mirror₀ (step s e) (c.advance t e) := by
  rcases ha : c.announced e with - | v
  · rcases hv : c.silent e with - | v
    · obtain ⟨hshown, hmirror⟩ := h.other s e ha hv
      simp only [Control.advance, ha, hv]
      exact ⟨hshown.trans hs.1, hmirror.trans hs.2⟩
    · obtain ⟨hshown, hmirror⟩ := h.silent s e v ha hv
      simp only [Control.advance, ha, hv]
      exact ⟨hshown, hmirror.trans hs.2⟩
  · simp only [Control.advance, ha]
    exact h.announced s e v ha

theorem Follows.reads_run (h : Follows step shown mirror c) {shown₀ mirror₀ : β} {s : σ}
    {t : Trail β} (es : List ε) (hs : Reads shown mirror shown₀ mirror₀ s t) :
    Reads shown mirror shown₀ mirror₀ (run step s es) (run c.advance t es) := by
  induction es generalizing s t with
  | nil => exact hs
  | cons e es ih =>
      show Reads shown mirror shown₀ mirror₀ (run step (step s e) es)
        (run c.advance (c.advance t e) es)
      apply ih
      exact h.reads_step e hs

theorem Trail.mirror_eq_shown_iff (shown₀ mirror₀ : β) (t : Trail β) :
    t.mirror mirror₀ = t.shown shown₀ ↔ t.InStep shown₀ mirror₀ := by
  obtain ⟨announced, silent⟩ := t
  rcases silent with - | v
  · rcases announced with - | u <;> simp [Trail.mirror, Trail.shown, Trail.InStep, eq_comm]
  · simp [Trail.mirror, Trail.shown, Trail.InStep, eq_comm]

/-- The mirror agrees with the display iff the events left them in step. -/
theorem Follows.mirror_eq_shown_iff (h : Follows step shown mirror c) (s : σ) (es : List ε) :
    mirror (run step s es) = shown (run step s es) ↔
      (c.trail es).InStep (shown s) (mirror s) := by
  have hs : Reads shown mirror (shown s) (mirror s) s ⟨none, none⟩ := ⟨rfl, rfl⟩
  obtain ⟨hshown, hmirror⟩ := h.reads_run es hs
  rw [hshown, hmirror]
  exact Trail.mirror_eq_shown_iff _ _ _

end Mirror
