/-
SyncServiceUi/JsonSafety.lean

No input aborts the parser (`src/dependencies/json/json.hpp`).

A failed `JSON_ASSERT` ends the process, so a service that could make one
fail could take the client down with a single frame.  The invariant is that
the two stacks of the loop fit: each open array or object has its entry in
`states`, and an object only waits for a value after its key (`Waits`,
`Rests`).  Every round keeps it, so no assertion fails over the tokens the
lexer gives, and the lexer always comes to a token the loop stops at
(`parse_ne_json_assert`).
-/
import SyncServiceUi.JsonGrammar

namespace SyncServiceUi

namespace Parser

open Completion Lexer

/-! ### The two stacks -/

/-- A value under construction that waits for the one being read. -/
inductive Waits : Bool → Open → Prop where
  | array (items : List Json) : Waits true (.array items)
  | object (members : List (String × Json)) (key : String) : Waits false (.object members (some key))

/-- The two stacks fit behind a value: nothing is due at the top. -/
inductive Rests : List Bool → List Open → Prop where
  | nil : Rests [] []
  | array {states : List Bool} {stack : List Open} (items : List Json) :
      List.Forall₂ Waits states stack → Rests (true :: states) (.array items :: stack)
  | object {states : List Bool} {stack : List Open} (members : List (String × Json)) :
      List.Forall₂ Waits states stack → Rests (false :: states) (.object members none :: stack)

/-- The loop ends without a failed assertion, and short of the last token. -/
def Safe (x : Except Error (Dom × List Token)) : Prop :=
  x ≠ .error .json_assert ∧ ∀ sax rest, x = .ok (sax, rest) → rest ≠ []

theorem safe_error {e : Error} (h : e ≠ .json_assert) : Safe (.error e) := by
  refine ⟨?_, ?_⟩
  · intro heq
    exact h (Except.error.inj heq)
  · intro sax rest heq
    cases heq

theorem ready_of_waits {states : List Bool} {sax : Dom}
    (h : List.Forall₂ Waits states sax.ref_stack) : sax.Ready := by
  intro members stack hstack
  rw [hstack] at h
  cases h with
  | cons hw _ => cases hw

theorem rests_handle_value {states : List Bool} {sax : Dom}
    (h : List.Forall₂ Waits states sax.ref_stack) (v : Json) :
    ∃ sax', sax.handle_value v = .ok sax' ∧ Rests states sax'.ref_stack := by
  obtain ⟨root, stack⟩ := sax
  cases h with
  | nil => exact ⟨_, rfl, .nil⟩
  | cons hw hrest =>
      cases hw with
      | array items => exact ⟨_, rfl, .array _ hrest⟩
      | object members key => exact ⟨_, rfl, .object _ hrest⟩

/-- With the stacks as the loop keeps them nothing is asserted in vain, over
at most `n` tokens. -/
def SafeUpTo (n : ℕ) : Prop :=
  ∀ {ts : List Token} {states : List Bool} {sax : Dom}, ts.length ≤ n → Ended ts →
    (List.Forall₂ Waits states sax.ref_stack → Safe (sax_parse_internal false states sax ts)) ∧
      (Rests states sax.ref_stack → Safe (sax_parse_internal true states sax ts))

theorem SafeUpTo.key {n : ℕ} (hn : SafeUpTo n) {ts : List Token} {states : List Bool} {root : Json}
    {members : List (String × Json)} {stack : List Open} (hlength : ts.length ≤ n)
    (hended : Ended ts) (hstack : List.Forall₂ Waits states stack) :
    Safe (sax_parse_internal true (false :: states) ⟨root, .object members none :: stack⟩
      (.value_separator :: ts)) := by
  rcases ts with - | ⟨token, ts⟩
  · exact absurd rfl hended.ne_nil
  · cases token with
    | value_string w =>
        have hended' := hended.tail (by simp) (by simp)
        rcases ts with - | ⟨token, ts⟩
        · exact absurd rfl hended'.ne_nil
        · cases token with
          | name_separator =>
              simp only [List.length_cons] at hlength
              exact (hn (by omega) (hended'.tail (by simp) (by simp))).1
                (.cons (.object (Json.emplace (text w) members) (text w)) hstack)
          | _ => exact safe_error (by decide)
    | _ => exact safe_error (by decide)

theorem safe_succ {n : ℕ} (hn : SafeUpTo n) : SafeUpTo (n + 1) := by
  intro ts states sax hlength hended
  obtain ⟨root, stack⟩ := sax
  rcases ts with - | ⟨token, ts⟩
  · exact absurd rfl hended.ne_nil
  simp only [List.length_cons, Nat.add_le_add_iff_right] at hlength
  refine ⟨?_, ?_⟩
  · intro hstack
    have hready := ready_of_waits hstack
    have hscalar : ∀ v, token ≠ .end_of_input → token ≠ .parse_error →
        sax_parse_internal false states ⟨root, stack⟩ (token :: ts) =
          (Dom.handle_value ⟨root, stack⟩ v >>= fun sax => sax_parse_internal true states sax ts) →
        Safe (sax_parse_internal false states ⟨root, stack⟩ (token :: ts)) := by
      intro v hend herror heq
      obtain ⟨sax', hsax', hrests⟩ := rests_handle_value hstack v
      rw [heq, hsax', ok_bind]
      exact (hn hlength (hended.tail hend herror)).2 hrests
    cases token with
    | literal_true => exact hscalar _ (by simp) (by simp) rfl
    | literal_false => exact hscalar _ (by simp) (by simp) rfl
    | literal_null => exact hscalar _ (by simp) (by simp) rfl
    | value_string w => exact hscalar _ (by simp) (by simp) rfl
    | value_unsigned m => exact hscalar _ (by simp) (by simp) rfl
    | value_integer m => exact hscalar _ (by simp) (by simp) rfl
    | value_float x =>
        rcases x with - | x
        · exact safe_error (by decide)
        · exact hscalar _ (by simp) (by simp) rfl
    | begin_array =>
        have hended' := hended.tail (by simp) (by simp)
        rw [sax_parse_internal, Dom.start_array, Dom.push_of_ready hready, ok_bind]
        split
        next rest =>
          obtain ⟨sax', hsax', hrests⟩ := rests_handle_value hstack (.array [])
          have hend : Dom.end_array ⟨root, .array [] :: stack⟩ = .ok sax' := hsax'
          rw [hend, ok_bind]
          simp only [List.length_cons] at hlength
          exact (hn (by omega) (hended'.tail (by simp) (by simp))).2 hrests
        next => exact (hn hlength hended').1 (.cons (.array []) hstack)
    | begin_object =>
        have hended' := hended.tail (by simp) (by simp)
        rcases ts with - | ⟨token, ts⟩
        · exact absurd rfl hended'.ne_nil
        · rw [sax_parse_internal, Dom.start_object, Dom.push_of_ready hready, ok_bind]
          cases token with
          | end_object =>
              obtain ⟨sax', hsax', hrests⟩ := rests_handle_value hstack (.object [])
              have hend : Dom.end_object ⟨root, .object [] none :: stack⟩ = .ok sax' := hsax'
              dsimp only
              rw [hend, ok_bind]
              simp only [List.length_cons] at hlength
              exact (hn (by omega) (hended'.tail (by simp) (by simp))).2 hrests
          | value_string w =>
              have hkey := @SafeUpTo.key n hn (.value_string w :: ts) states root [] stack hlength
                hended' hstack
              rcases ts with - | ⟨token, ts⟩
              · exact absurd rfl (hended'.tail (by simp) (by simp)).ne_nil
              · cases token with
                | name_separator => exact hkey
                | _ => exact safe_error (by decide)
          | _ => exact safe_error (by decide)
    | _ => exact safe_error (by decide)
  · intro hrests
    cases hrests with
    | nil =>
        rw [sax_parse_internal]
        refine ⟨by simp, ?_⟩
        intro sax rest heq
        obtain ⟨-, rfl⟩ := Prod.mk.inj (Except.ok.inj heq)
        exact hended.ne_nil
    | @array states stack items hstack =>
        cases token with
        | value_separator =>
            rw [sax_parse_internal]
            exact (hn hlength (hended.tail (by simp) (by simp))).1 (.cons (.array items) hstack)
        | end_array =>
            obtain ⟨sax', hsax', hrests⟩ :=
              @rests_handle_value states ⟨root, stack⟩ hstack (.array items)
            have hend : Dom.end_array ⟨root, .array items :: stack⟩ = .ok sax' := hsax'
            rw [sax_parse_internal, hend, ok_bind]
            exact (hn hlength (hended.tail (by simp) (by simp))).2 hrests
        | _ => exact safe_error (by decide)
    | @object states stack members hstack =>
        cases token with
        | value_separator => exact hn.key hlength (hended.tail (by simp) (by simp)) hstack
        | end_object =>
            obtain ⟨sax', hsax', hrests⟩ :=
              @rests_handle_value states ⟨root, stack⟩ hstack (.object members)
            have hend : Dom.end_object ⟨root, .object members none :: stack⟩ = .ok sax' := hsax'
            rw [sax_parse_internal, hend, ok_bind]
            exact (hn hlength (hended.tail (by simp) (by simp))).2 hrests
        | _ => exact safe_error (by decide)

theorem safeUpTo (n : ℕ) : SafeUpTo n := by
  induction n with
  | zero =>
      intro ts states sax hlength hended
      exact absurd (List.length_eq_zero_iff.mp (Nat.le_zero.mp hlength)) hended.ne_nil
  | succ n ih => exact safe_succ ih

/-- No assertion fails, in the lexer or in the parser, whatever the input. -/
theorem parse_ne_json_assert (b : Bytes) : parse b ≠ .error .json_assert := by
  have hsafe := (@safeUpTo (tokens b).length (tokens b) [] Dom.start (le_refl _)
    (ended_tokens b)).1 .nil
  unfold parse
  rcases hloop : sax_parse_internal false [] Dom.start (tokens b) with e | ⟨sax, rest⟩
  · intro h
    rw [Except.error.inj h] at hloop
    exact hsafe.1 hloop
  · have hrest := hsafe.2 sax rest hloop
    rw [ok_bind]
    dsimp only
    split
    · intro h
      cases h
    · exact absurd rfl hrest
    · intro h
      cases h

/-- Every input has one of two outcomes: it is a text of the grammar, and the
parser returns its value; or it is none, and the parser throws.  No assertion
fails on the way. -/
theorem parse_outcome (b : Bytes) :
    (∃ t, Writes b t ∧ parse b = .ok t.value) ∨
      (∀ t, ¬ Writes b t) ∧ ∃ e, e ≠ .json_assert ∧ parse b = .error e := by
  cases hparse : parse b with
  | ok j =>
      obtain ⟨t, hwrites, rfl⟩ := parse_eq_ok_iff.mp hparse
      exact .inl ⟨t, hwrites, rfl⟩
  | error e =>
      refine .inr ⟨?_, e, ?_, rfl⟩
      · intro t hwrites
        have hok := parse_eq_ok_iff.mpr ⟨t, hwrites, rfl⟩
        rw [hparse] at hok
        cases hok
      · rintro rfl
        exact parse_ne_json_assert b hparse

end Parser

/-! ### The library with its parser -/

/-- The library with the parser above; an error is an exception, since no
assertion fails. -/
def nlohmann (dump_float : Binary64.Double → String) : Nlohmann where
  parse b := (Parser.parse b).toOption
  dump_float

theorem nlohmann_parse_eq_some_iff {dump_float : Binary64.Double → String} {b : Bytes} {j : Json} :
    (nlohmann dump_float).parse b = some j ↔ Parser.parse b = .ok j := by
  show (Parser.parse b).toOption = some j ↔ _
  cases Parser.parse b with
  | ok j' => simp [Except.toOption]
  | error e => simp [Except.toOption]

end SyncServiceUi
