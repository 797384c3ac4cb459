/-
SyncServiceUi/Framing.lean

Cutting a stream into frames at a delimiter word.

Everything here is over an arbitrary alphabet `α` and an arbitrary nonempty
word `d`.  `find d l` is the first position where `d` starts in `l`;
`cut d l` splits `l` there, dropping the delimiter; `split d l` repeats the
cut until no delimiter is left.

The law that makes incremental readers work is `split_append`: what has been
cut from a prefix is never revised by what arrives later,

    frames (l ++ m) = frames l ++ frames (rest l ++ m).

`afterDelims d k l` is what follows the `k`-th delimiter; it is the buffer
of a reader that has taken `k` frames, and `cut_afterDelims` says what the
next cut of that buffer gives.
-/
import Mathlib.Data.List.Basic
import Mathlib.Order.Nat
import Mathlib.Tactic.Common

namespace Framing

variable {α : Type*} [DecidableEq α]

/-! ### First occurrence -/

/-- Position of the first occurrence of `d`, if any. -/
def find (d : List α) : List α → Option ℕ
  | [] => if d = [] then some 0 else none
  | x :: xs => if d <+: x :: xs then some 0 else (find d xs).map (· + 1)

/-- Cut at the first occurrence of `d`: what stands before it and after it. -/
def cut (d l : List α) : Option (List α × List α) :=
  (find d l).map fun pos => (l.take pos, l.drop (pos + d.length))

variable {d : List α}

theorem find_nil (hd : d ≠ []) : find d [] = none := by
  simp [find, hd]

/-- Where `find` succeeds there is an occurrence, and it is the first one. -/
theorem find_eq_some_iff (hd : d ≠ []) {l : List α} {pos : ℕ} :
    find d l = some pos ↔ d <+: l.drop pos ∧ ∀ j < pos, ¬ d <+: l.drop j := by
  induction l generalizing pos with
  | nil => simp [find, hd]
  | cons x xs ih =>
      by_cases h : d <+: x :: xs
      · rw [find, if_pos h]
        refine ⟨?_, ?_⟩
        · intro e
          obtain rfl := Option.some.inj e
          exact ⟨h, by simp⟩
        · intro h'
          obtain ⟨-, hfirst⟩ := h'
          rcases pos with - | pos
          · rfl
          · exact absurd h (hfirst 0 (Nat.succ_pos _))
      · rw [find, if_neg h, Option.map_eq_some_iff]
        refine ⟨?_, ?_⟩
        · intro h'
          obtain ⟨p, hp, rfl⟩ := h'
          obtain ⟨hocc, hfirst⟩ := ih.mp hp
          refine ⟨hocc, ?_⟩
          rintro (- | j) hj
          · exact h
          · exact hfirst j (by omega)
        · intro h'
          obtain ⟨hocc, hfirst⟩ := h'
          rcases pos with - | pos
          · exact absurd hocc h
          · exact ⟨pos, ih.mpr ⟨hocc, fun j hj => hfirst (j + 1) (by omega)⟩, rfl⟩

/-! ### The cut -/

/-- A successful cut puts the list back together around the delimiter. -/
theorem cut_spec (hd : d ≠ []) {l f r : List α} (h : cut d l = some (f, r)) :
    l = f ++ d ++ r := by
  obtain ⟨pos, hpos, he⟩ := Option.map_eq_some_iff.mp h
  obtain ⟨rfl, rfl⟩ := Prod.mk.injEq .. ▸ he
  obtain ⟨t, ht⟩ := ((find_eq_some_iff hd).mp hpos).1
  have hr : l.drop (pos + d.length) = t := by
    rw [← List.drop_drop, ← ht, List.drop_left]
  rw [hr, List.append_assoc, ht, List.take_append_drop]

theorem cut_rest_length (hd : d ≠ []) {l f r : List α} (h : cut d l = some (f, r)) :
    r.length < l.length := by
  have hpos : 0 < d.length := List.length_pos_iff.mpr hd
  rw [cut_spec hd h]
  simp only [List.length_append]
  omega

/-- Later input does not move the first occurrence. -/
theorem find_append (hd : d ≠ []) {l : List α} {pos : ℕ} (m : List α)
    (h : find d l = some pos) : find d (l ++ m) = some pos := by
  obtain ⟨hocc, hfirst⟩ := (find_eq_some_iff hd).mp h
  have hpos : 0 < d.length := List.length_pos_iff.mpr hd
  have hlen : d.length ≤ l.length - pos := by
    simpa using hocc.length_le
  apply (find_eq_some_iff hd).mpr
  refine ⟨?_, ?_⟩
  · rw [List.drop_append_of_le_length (by omega)]
    exact hocc.trans (List.prefix_append _ _)
  · intro j hj hj'
    -- an earlier occurrence would already end inside `l`
    rw [List.drop_append_of_le_length (by omega)] at hj'
    apply hfirst j hj
    apply List.prefix_of_prefix_length_le hj' (List.prefix_append _ _)
    simp only [List.length_drop]
    omega

theorem cut_append (hd : d ≠ []) {l f r : List α} (m : List α)
    (h : cut d l = some (f, r)) : cut d (l ++ m) = some (f, r ++ m) := by
  obtain ⟨pos, hpos, he⟩ := Option.map_eq_some_iff.mp h
  obtain ⟨rfl, rfl⟩ := Prod.mk.injEq .. ▸ he
  have hlen : d.length ≤ l.length - pos := by
    simpa using ((find_eq_some_iff hd).mp hpos).1.length_le
  have hpos' : 0 < d.length := List.length_pos_iff.mpr hd
  rw [cut, find_append hd m hpos, Option.map_some,
    List.take_append_of_le_length (by omega), List.drop_append_of_le_length (by omega)]

/-! ### All frames -/

/-- Repeat the cut, at most `n` times: the frames and what is left. -/
def splitUpTo (d : List α) : ℕ → List α → List (List α) × List α
  | 0, l => ([], l)
  | n + 1, l =>
      match cut d l with
      | none => ([], l)
      | some (f, r) =>
          let t := splitUpTo d n r
          (f :: t.1, t.2)

/-- All complete frames of `l`, and the unfinished rest.  Each cut shortens
the list, so its length is fuel enough (`splitUpTo_eq_split`). -/
def split (d l : List α) : List (List α) × List α :=
  splitUpTo d l.length l

/-- The complete frames of `l`, in order. -/
def frames (d l : List α) : List (List α) :=
  (split d l).1

/-- The bytes of `l` after its last complete frame. -/
def rest (d l : List α) : List α :=
  (split d l).2

theorem splitUpTo_eq_split (hd : d ≠ []) {n : ℕ} {l : List α} (hn : l.length ≤ n) :
    splitUpTo d n l = split d l := by
  -- any two amounts of fuel that are enough agree
  suffices h : ∀ n m (l : List α), l.length ≤ n → l.length ≤ m →
      splitUpTo d n l = splitUpTo d m l from h n l.length l hn le_rfl
  have hnil : cut d ([] : List α) = none := by simp [cut, find_nil hd]
  intro n
  induction n with
  | zero =>
      intro m l hl _
      obtain rfl := List.length_eq_zero_iff.mp (Nat.le_zero.mp hl)
      cases m <;> simp [splitUpTo, hnil]
  | succ n ih =>
      rintro (- | m) l hl hm
      · obtain rfl := List.length_eq_zero_iff.mp (Nat.le_zero.mp hm)
        simp [splitUpTo, hnil]
      · rcases e : cut d l with - | ⟨f, r⟩
        · simp [splitUpTo, e]
        · have hr := cut_rest_length hd e
          simp only [splitUpTo, e]
          rw [ih m r (by omega) (by omega)]

theorem split_of_cut_none {l : List α} (h : cut d l = none) : split d l = ([], l) := by
  rcases l with - | ⟨x, xs⟩
  · rfl
  · simp [split, splitUpTo, h]

theorem split_of_cut_some (hd : d ≠ []) {l f r : List α} (h : cut d l = some (f, r)) :
    split d l = (f :: frames d r, rest d r) := by
  have hr := cut_rest_length hd h
  obtain ⟨n, hn⟩ : ∃ n, l.length = n + 1 := ⟨l.length - 1, by omega⟩
  simp only [split, hn, splitUpTo, h, frames, rest]
  rw [splitUpTo_eq_split hd (by omega), split]

theorem frames_of_cut_none {l : List α} (h : cut d l = none) : frames d l = [] := by
  show (split d l).1 = []
  rw [split_of_cut_none h]

theorem rest_of_cut_none {l : List α} (h : cut d l = none) : rest d l = l := by
  show (split d l).2 = l
  rw [split_of_cut_none h]

theorem frames_of_cut_some (hd : d ≠ []) {l f r : List α} (h : cut d l = some (f, r)) :
    frames d l = f :: frames d r := by
  show (split d l).1 = _
  rw [split_of_cut_some hd h]

theorem rest_of_cut_some (hd : d ≠ []) {l f r : List α} (h : cut d l = some (f, r)) :
    rest d l = rest d r := by
  show (split d l).2 = _
  rw [split_of_cut_some hd h]

/-- Induction over the successive cuts of a list. -/
theorem cut_induction (hd : d ≠ []) {P : List α → Prop}
    (none : ∀ l, cut d l = none → P l)
    (some : ∀ l f r, cut d l = some (f, r) → P r → P l) (l : List α) : P l := by
  induction hn : l.length using Nat.strongRecOn generalizing l with
  | _ n ih =>
      rcases e : cut d l with - | ⟨f, r⟩
      · exact none l e
      · exact some l f r e (ih r.length (hn ▸ cut_rest_length hd e) r rfl)

/-- Cutting commutes with arrival: later input only completes the rest. -/
theorem split_append (hd : d ≠ []) (l m : List α) :
    frames d (l ++ m) = frames d l ++ frames d (rest d l ++ m) ∧
      rest d (l ++ m) = rest d (rest d l ++ m) := by
  induction l using cut_induction hd with
  | none l h => simp [frames_of_cut_none h, rest_of_cut_none h]
  | some l f r h ih =>
      have hm := cut_append hd m h
      rw [frames_of_cut_some hd hm, frames_of_cut_some hd h, rest_of_cut_some hd hm,
        rest_of_cut_some hd h, ih.1, ih.2]
      simp

theorem frames_prefix_append (hd : d ≠ []) (l m : List α) :
    frames d l <+: frames d (l ++ m) := by
  obtain ⟨hframes, -⟩ := split_append hd l m
  rw [hframes]
  exact List.prefix_append _ _

/-! ### Joining frames -/

/-- A word in which the delimiter cannot even start is cut off whole. -/
theorem cut_append_of_not_mem {c : α} {f : List α} (hf : c ∉ f) (d r : List α) :
    cut (c :: d) (f ++ (c :: d) ++ r) = some (f, r) := by
  have hpos : find (c :: d) (f ++ (c :: d) ++ r) = some f.length := by
    apply (find_eq_some_iff (List.cons_ne_nil c d)).mpr
    refine ⟨?_, ?_⟩
    · rw [List.append_assoc, List.drop_left]
      exact List.prefix_append _ _
    · intro j hj hocc
      -- an earlier occurrence would start inside `f`
      have hhead : (f ++ (c :: d) ++ r)[j]? = some c := by
        obtain ⟨t, ht⟩ := hocc
        rw [← Nat.add_zero j, ← List.getElem?_drop, ← ht]
        rfl
      rw [List.append_assoc, List.getElem?_append_left hj] at hhead
      exact hf (List.mem_of_getElem? hhead)
  rw [cut, hpos, Option.map_some]
  congr 2
  · rw [List.append_assoc, List.take_left]
  · rw [← List.length_append, List.drop_left]

/-- Words in which the delimiter cannot start, each followed by it, are
exactly the frames, with nothing left over. -/
theorem split_flatMap {c : α} {d : List α} {fs : List (List α)} (h : ∀ f ∈ fs, c ∉ f) :
    split (c :: d) (fs.flatMap fun f => f ++ c :: d) = (fs, []) := by
  induction fs with
  | nil => rfl
  | cons f fs ih =>
      obtain ⟨hf, hfs⟩ := List.forall_mem_cons.mp h
      have hcut := cut_append_of_not_mem hf d (fs.flatMap fun f => f ++ c :: d)
      have hrest : frames (c :: d) (fs.flatMap fun f => f ++ c :: d) = fs ∧
          rest (c :: d) (fs.flatMap fun f => f ++ c :: d) = [] := by
        rw [frames, rest, ih hfs]
        exact ⟨rfl, rfl⟩
      rw [List.flatMap_cons, split_of_cut_some (List.cons_ne_nil c d) hcut, hrest.1, hrest.2]

/-! ### After the `k`-th delimiter -/

/-- What follows the `k`-th delimiter of `l`. -/
def afterDelims (d : List α) : ℕ → List α → List α
  | 0, l => l
  | k + 1, l =>
      match cut d l with
      | none => l
      | some (_, r) => afterDelims d k r

/-- Skipping delimiters that are already there commutes with arrival. -/
theorem afterDelims_append (hd : d ≠ []) {k : ℕ} {l : List α} (m : List α)
    (hk : k ≤ (frames d l).length) :
    afterDelims d k (l ++ m) = afterDelims d k l ++ m := by
  induction k generalizing l with
  | zero => rfl
  | succ k ih =>
      rcases e : cut d l with - | ⟨f, r⟩
      · simp [frames_of_cut_none e] at hk
      · rw [frames_of_cut_some hd e, List.length_cons] at hk
        simp only [afterDelims, e, cut_append hd m e]
        exact ih (by omega)

/-- The next cut after `k` delimiters is at the next frame, if there is one. -/
theorem cut_afterDelims (hd : d ≠ []) (k : ℕ) (l : List α) :
    cut d (afterDelims d k l) =
      (frames d l)[k]?.map fun f => (f, afterDelims d (k + 1) l) := by
  induction k generalizing l with
  | zero =>
      rcases e : cut d l with - | ⟨f, r⟩
      · simp [afterDelims, e, frames_of_cut_none e]
      · simp [afterDelims, e, frames_of_cut_some hd e]
  | succ k ih =>
      rcases e : cut d l with - | ⟨f, r⟩
      · simp [afterDelims, e, frames_of_cut_none e]
      · simp [afterDelims, e, frames_of_cut_some hd e, ih]

end Framing
