/-
SyncServiceUi/Emission.lean

Code that can throw and emits events on the way.

`EmitM ε σ` is failure over a log: an event emitted before a throw stays in
the log.  `Emits x r l` says what `x` does from any log, it ends in `r` and
adds exactly `l`.  The rules below compute it along a `do` block, and two
questions are answered by rules of their own, without naming `l`:

* `Finishes x`, does `x` complete;
* `Atomic x`, does `x` add at most one event, and none when it throws.
-/
import SyncServiceUi.Completion

namespace Emission

open Completion

variable {ε σ α β : Type}

/-- Failure with error `ε` over a log of events `σ`. -/
abbrev EmitM (ε σ : Type) := ExceptT ε (StateM (List σ))

def emit (e : σ) : EmitM ε σ Unit :=
  modify (· ++ [e])

/-- From every log, `x` ends in `r` and adds the events `l`. -/
def Emits (x : EmitM ε σ α) (r : Except ε α) (l : List σ) : Prop :=
  ∀ log, x.run log = (r, log ++ l)

/-- `x` completes, whatever it emits. -/
def Finishes (x : EmitM ε σ α) : Prop :=
  ∃ a l, Emits x (.ok a) l

/-- `x` adds at most one event, and none when it throws. -/
def Atomic (x : EmitM ε σ α) : Prop :=
  ∃ r l, Emits x r l ∧ l.length ≤ 1 ∧ (¬ Completes r → l = [])

/-! ### What a block emits -/

theorem emits_pure (a : α) : Emits (pure a : EmitM ε σ α) (.ok a) [] := by
  intro log
  show (Except.ok a, log) = _
  rw [List.append_nil]

theorem emits_liftM_bind {x : Except ε α} {f : α → EmitM ε σ β} {a : α} {r : Except ε β}
    {l : List σ} (hx : x = .ok a) (h : Emits (f a) r l) : Emits (liftM x >>= f) r l := by
  subst hx
  exact h

theorem emits_liftM_bind_error {x : Except ε α} (f : α → EmitM ε σ β) {e : ε}
    (hx : x = .error e) : Emits (liftM x >>= f) (.error e) [] := by
  subst hx
  intro log
  show (Except.error e, log) = _
  rw [List.append_nil]

theorem emits_emit_bind {e : σ} {f : Unit → EmitM ε σ β} {r : Except ε β} {l : List σ}
    (h : Emits (f ()) r l) : Emits (emit e >>= f) r (e :: l) := by
  intro log
  show (f ()).run (log ++ [e]) = _
  rw [h, List.append_assoc, List.singleton_append]

/-- A block emits one thing only. -/
theorem Emits.unique {x : EmitM ε σ α} {r r' : Except ε α} {l l' : List σ}
    (h : Emits x r l) (h' : Emits x r' l') : r = r' ∧ l = l' := by
  -- both say what happens from the empty log
  have e : (r, [] ++ l) = (r', [] ++ l') := (h []).symm.trans (h' [])
  obtain ⟨hr, hl⟩ := Prod.mk.inj e
  exact ⟨hr, hl⟩

/-! ### Does it complete -/

@[simp] theorem finishes_pure (a : α) : Finishes (pure a : EmitM ε σ α) :=
  ⟨a, [], emits_pure a⟩

theorem finishes_liftM_bind {x : Except ε α} {f : α → EmitM ε σ β} :
    Finishes (liftM x >>= f) ↔ ∃ a, x = .ok a ∧ Finishes (f a) := by
  refine ⟨?_, ?_⟩
  · intro h'
    obtain ⟨b, l, h⟩ := h'
    rcases x with e | a
    · have he : Emits (liftM (.error e : Except ε α) >>= f) (.error e) [] :=
        emits_liftM_bind_error f rfl
      have hr : Except.ok b = .error e := (h.unique he).1
      cases hr
    · exact ⟨a, rfl, b, l, h⟩
  · intro h'
    obtain ⟨a, hx, b, l, h⟩ := h'
    exact ⟨b, l, emits_liftM_bind hx h⟩

@[simp] theorem finishes_emit_pure (e : σ) (b : β) :
    Finishes (emit e >>= fun _ => (pure b : EmitM ε σ β)) :=
  ⟨b, [e], emits_emit_bind (emits_pure b)⟩

/-! ### Is it atomic -/

theorem atomic_pure (a : α) : Atomic (pure a : EmitM ε σ α) := by
  refine ⟨.ok a, [], emits_pure a, Nat.zero_le _, ?_⟩
  intro _
  rfl

theorem atomic_liftM_bind {x : Except ε α} {f : α → EmitM ε σ β}
    (h : ∀ a, x = .ok a → Atomic (f a)) : Atomic (liftM x >>= f) := by
  rcases hx : x with e | a
  · -- the throw comes before anything `f` could emit
    have hnone : Emits (liftM (.error e : Except ε α) >>= f) (.error e) [] :=
      emits_liftM_bind_error f rfl
    refine ⟨.error e, [], hnone, Nat.zero_le _, ?_⟩
    intro _
    rfl
  · obtain ⟨r, l, hl, hlen, hthrow⟩ := h a hx
    exact ⟨r, l, emits_liftM_bind rfl hl, hlen, hthrow⟩

theorem atomic_emit_pure (e : σ) (b : β) :
    Atomic (emit e >>= fun _ => (pure b : EmitM ε σ β)) := by
  have hone : Emits (emit e >>= fun _ => (pure b : EmitM ε σ β)) (.ok b) [e] :=
    emits_emit_bind (emits_pure b)
  refine ⟨.ok b, [e], hone, Nat.le_refl _, ?_⟩
  intro hthrow
  exact absurd (completes_ok b) hthrow

/-- The run of an atomic block from any log. -/
theorem Atomic.run {x : EmitM ε σ α} (h : Atomic x) (log : List σ) :
    (∃ s : Option σ, (x.run log).2 = log ++ s.toList) ∧
      (¬ Completes (x.run log).1 → (x.run log).2 = log) := by
  obtain ⟨r, l, hl, hlen, hthrow⟩ := h
  rw [hl log]
  refine ⟨?_, ?_⟩
  · rcases l with - | ⟨e, - | ⟨e', l⟩⟩
    · exact ⟨none, rfl⟩
    · exact ⟨some e, rfl⟩
    · simp at hlen
  · intro hr
    rw [hthrow hr, List.append_nil]

theorem Atomic.completes_run {x : EmitM ε σ α} (h : Atomic x) (log : List σ) :
    Completes (x.run log).1 ↔ Finishes x := by
  obtain ⟨r, l, hl, -, -⟩ := h
  rw [hl log]
  refine ⟨?_, ?_⟩
  · intro h'
    obtain ⟨a, rfl⟩ := h'
    exact ⟨a, l, hl⟩
  · intro h'
    obtain ⟨a, l', hl'⟩ := h'
    exact ⟨a, (hl.unique hl').1⟩

end Emission
