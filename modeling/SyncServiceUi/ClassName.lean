/-
SyncServiceUi/ClassName.lean

Recognising a QML type by the name of an object's class (`src/helper.h`).

The class of an object of the QML type `c` is named `c_QMLTYPE_<n>`, with more
behind it where the type is extended in place.  `getQmlClasstype` takes the
name apart at its underscores with `std::getline` and joins the first two
pieces again.

`Getline` is the loop over the stream: an empty stream has no piece, and so
there is none behind a delimiter at the very end, while two delimiters next to
each other have an empty one between them.
-/
import Mathlib.Data.List.Basic
import Mathlib.Data.List.TakeWhile

/-! ### Pieces of a stream -/

namespace Getline

variable {α : Type*} [DecidableEq α]

/-- One call: the piece before the next delimiter and the stream behind it.
It fails when nothing is left to read. -/
def getline (delim : α) (stream : List α) : Option (List α × List α) :=
  if stream = [] then none
  else some (stream.takeWhile (· ≠ delim), (stream.dropWhile (· ≠ delim)).tail)

theorem length_lt_of_getline {delim : α} {stream item rest : List α}
    (h : getline delim stream = some (item, rest)) : rest.length < stream.length := by
  rcases stream with - | ⟨c, cs⟩
  · cases h
  · obtain ⟨-, rfl⟩ := Prod.mk.inj (Option.some.inj h)
    have hle : ((c :: cs).dropWhile (· ≠ delim)).length ≤ (c :: cs).length :=
      (List.dropWhile_sublist _).length_le
    simp only [List.length_tail, List.length_cons] at hle ⊢
    omega

/-- Call until it fails. -/
def pieces (delim : α) (stream : List α) : List (List α) :=
  match h : getline delim stream with
  | none => []
  | some (item, rest) =>
      have := length_lt_of_getline h
      item :: pieces delim rest
termination_by stream.length

variable {delim : α}

theorem keeps_of_not_mem {a : List α} (ha : delim ∉ a) :
    ∀ x ∈ a, decide (x ≠ delim) = true := by
  intro x hx
  apply decide_eq_true
  rintro rfl
  exact ha hx

theorem getline_append_cons {a : List α} (ha : delim ∉ a) (rest : List α) :
    getline delim (a ++ delim :: rest) = some (a, rest) := by
  have hkeep := keeps_of_not_mem ha
  rw [getline, if_neg (by simp), List.takeWhile_append_of_pos hkeep,
    List.dropWhile_append_of_pos hkeep]
  simp

theorem getline_of_not_mem {a : List α} (ha : delim ∉ a) (hne : a ≠ []) :
    getline delim a = some (a, []) := by
  have hkeep := keeps_of_not_mem ha
  rw [getline, if_neg hne, List.takeWhile_eq_self_iff.mpr hkeep,
    List.dropWhile_eq_nil_iff.mpr hkeep]
  rfl

/-- What stands before the first delimiter and after it. -/
theorem append_cons_inj {a b x y : List α} (ha : delim ∉ a) (hb : delim ∉ b) :
    a ++ delim :: x = b ++ delim :: y ↔ a = b ∧ x = y := by
  refine ⟨?_, ?_⟩
  · intro h
    have hget := congrArg (getline delim) h
    rw [getline_append_cons ha, getline_append_cons hb] at hget
    exact Prod.mk.inj (Option.some.inj hget)
  · rintro ⟨rfl, rfl⟩
    rfl

theorem pieces_of_getline {stream item rest : List α}
    (h : getline delim stream = some (item, rest)) :
    pieces delim stream = item :: pieces delim rest := by
  rw [pieces]
  split
  · next h' =>
      rw [h] at h'
      cases h'
  · next item' rest' h' =>
      rw [h] at h'
      obtain ⟨rfl, rfl⟩ := Prod.mk.inj (Option.some.inj h')
      rfl

@[simp] theorem pieces_nil : pieces delim ([] : List α) = [] := by
  rw [pieces]
  rfl

theorem pieces_append_cons {a : List α} (ha : delim ∉ a) (rest : List α) :
    pieces delim (a ++ delim :: rest) = a :: pieces delim rest :=
  pieces_of_getline (getline_append_cons ha rest)

theorem pieces_of_not_mem {a : List α} (ha : delim ∉ a) (hne : a ≠ []) :
    pieces delim a = [a] := by
  rw [pieces_of_getline (getline_of_not_mem ha hne), pieces_nil]

/-- The stream cut before the delimiter that has `k` others before it. -/
def cutBefore (delim : α) : ℕ → List α → List α
  | _, [] => []
  | 0, c :: cs => if c = delim then [] else c :: cutBefore delim 0 cs
  | k + 1, c :: cs => c :: cutBefore delim (if c = delim then k else k + 1) cs

@[simp] theorem cutBefore_zero_cons_self (rest : List α) :
    cutBefore delim 0 (delim :: rest) = [] := by
  simp [cutBefore]

@[simp] theorem cutBefore_succ_cons_self (k : ℕ) (rest : List α) :
    cutBefore delim (k + 1) (delim :: rest) = delim :: cutBefore delim k rest := by
  simp [cutBefore]

theorem cutBefore_append {a : List α} (ha : delim ∉ a) (k : ℕ) (rest : List α) :
    cutBefore delim k (a ++ rest) = a ++ cutBefore delim k rest := by
  induction a with
  | nil => rfl
  | cons c cs ih =>
      have hc : c ≠ delim := fun e => ha (e ▸ List.mem_cons_self)
      have hcs := ih fun h => ha (List.mem_cons_of_mem _ h)
      cases k <;> simp [cutBefore, hc, hcs]

theorem cutBefore_of_not_mem {a : List α} (ha : delim ∉ a) (k : ℕ) :
    cutBefore delim k a = a := by
  have h := cutBefore_append ha k []
  rw [List.append_nil] at h
  rw [h, cutBefore, List.append_nil]

/-- What a stream looks like up to its second delimiter. -/
inductive Shape (delim : α) : List α → Prop
  | bare {a} : delim ∉ a → Shape delim a
  | trailing {a} : delim ∉ a → Shape delim (a ++ [delim])
  | two {a b} : delim ∉ a → delim ∉ b → b ≠ [] → Shape delim (a ++ delim :: b)
  | more {a b} (rest) : delim ∉ a → delim ∉ b → Shape delim (a ++ delim :: (b ++ delim :: rest))

theorem shape (stream : List α) : Shape delim stream := by
  by_cases hstream : delim ∈ stream
  · obtain ⟨a, m, rfl, ha⟩ := List.eq_append_cons_of_mem hstream
    by_cases hm : delim ∈ m
    · obtain ⟨b, rest, rfl, hb⟩ := List.eq_append_cons_of_mem hm
      exact .more rest ha hb
    · by_cases hne : m = []
      · subst hne
        exact .trailing ha
      · exact .two ha hm hne
  · exact .bare hstream

end Getline

namespace SyncServiceUi

open Getline

/-! ### The type's name -/

/-- `helper::getQmlClasstype`, on the name of the object's class. -/
def getQmlClasstype (className : String) : String :=
  match pieces '_' className.toList with
  | part0 :: part1 :: _ => String.ofList part0 ++ "_" ++ String.ofList part1
  | [part0] => String.ofList part0
  | [] => ""

section Shapes

variable {a b : List Char}

theorem getQmlClasstype_bare (ha : '_' ∉ a) :
    getQmlClasstype (String.ofList a) = String.ofList a := by
  rw [getQmlClasstype, String.toList_ofList]
  by_cases hne : a = []
  · rw [hne, pieces_nil]
  · rw [pieces_of_not_mem ha hne]

theorem getQmlClasstype_trailing (ha : '_' ∉ a) :
    getQmlClasstype (String.ofList (a ++ ['_'])) = String.ofList a := by
  rw [getQmlClasstype, String.toList_ofList, pieces_append_cons ha, pieces_nil]

theorem getQmlClasstype_two (ha : '_' ∉ a) (hb : '_' ∉ b) (hne : b ≠ []) :
    getQmlClasstype (String.ofList (a ++ '_' :: b)) = String.ofList (a ++ '_' :: b) := by
  rw [getQmlClasstype, String.toList_ofList, pieces_append_cons ha, pieces_of_not_mem hb hne]
  simp [String.append_assoc]

theorem getQmlClasstype_more (ha : '_' ∉ a) (hb : '_' ∉ b) (rest : List Char) :
    getQmlClasstype (String.ofList (a ++ '_' :: (b ++ '_' :: rest))) =
      String.ofList (a ++ '_' :: b) := by
  rw [getQmlClasstype, String.toList_ofList, pieces_append_cons ha, pieces_append_cons hb]
  simp [String.append_assoc]

end Shapes

/-- The class name cut before its second underscore, and before the first when
nothing follows it. -/
theorem getQmlClasstype_eq_cut (s : String) :
    getQmlClasstype s = String.ofList
      (if s.toList.count '_' = 1 ∧ s.toList.getLast? = some '_' then s.toList.dropLast
        else cutBefore '_' 1 s.toList) := by
  obtain ⟨stream, rfl⟩ : ∃ stream, s = String.ofList stream := ⟨s.toList, by simp⟩
  rw [String.toList_ofList]
  have hshape : Shape '_' stream := shape stream
  cases hshape with
  | bare ha =>
      have hcount : stream.count '_' = 0 := List.count_eq_zero.mpr ha
      rw [getQmlClasstype_bare ha, if_neg (by omega), cutBefore_of_not_mem ha]
  | @trailing a ha =>
      have hcount : (a ++ ['_']).count '_' = 1 := by
        rw [List.count_append, List.count_eq_zero.mpr ha]
        rfl
      rw [getQmlClasstype_trailing ha, if_pos ⟨hcount, by simp⟩, List.dropLast_concat]
  | @two a b ha hb hne =>
      have hlast : (a ++ '_' :: b).getLast? ≠ some '_' := by
        rw [List.getLast?_append_cons, List.getLast?_cons_of_ne_nil hne]
        exact fun h => hb (List.mem_of_getLast? h)
      rw [getQmlClasstype_two ha hb hne, if_neg fun h => hlast h.2, cutBefore_append ha,
        cutBefore_succ_cons_self, cutBefore_of_not_mem hb]
  | @more a b rest ha hb =>
      have hcount : (a ++ '_' :: (b ++ '_' :: rest)).count '_' = rest.count '_' + 2 := by
        simp [List.count_eq_zero.mpr ha, List.count_eq_zero.mpr hb]
      rw [getQmlClasstype_more ha hb, if_neg (by omega), cutBefore_append ha,
        cutBefore_succ_cons_self, cutBefore_append hb, cutBefore_zero_cons_self,
        List.append_nil]

theorem prefix_iff {c q stream : List Char} :
    c ++ '_' :: (q ++ ['_']) <+: stream ↔ ∃ t, stream = c ++ '_' :: (q ++ '_' :: t) := by
  refine ⟨?_, ?_⟩
  · rintro ⟨t, rfl⟩
    exact ⟨t, by simp⟩
  · rintro ⟨t, rfl⟩
    exact ⟨t, by simp⟩

/-- For two parts without underscores, shape by shape: the pieces of the name
and of `c_q` are compared one by one. -/
theorem getQmlClasstype_eq_ofList_iff {c q : List Char} (hc : '_' ∉ c) (hq : '_' ∉ q)
    (hqne : q ≠ []) (stream : List Char) :
    getQmlClasstype (String.ofList stream) = String.ofList (c ++ '_' :: q) ↔
      stream = c ++ '_' :: q ∨ c ++ '_' :: (q ++ ['_']) <+: stream := by
  rw [prefix_iff]
  have hshape : Shape '_' stream := shape stream
  cases hshape with
  | bare ha =>
      -- neither side: there is no underscore
      rw [getQmlClasstype_bare ha, String.ofList_inj, iff_self_or]
      rintro ⟨t, rfl⟩
      exact absurd (by simp) ha
  | @trailing a ha =>
      rw [getQmlClasstype_trailing ha, String.ofList_inj]
      refine ⟨?_, ?_⟩
      · rintro rfl
        exact absurd (by simp) ha
      · rintro (h | ⟨t, h⟩)
        · exact absurd ((append_cons_inj ha hc).mp h).2.symm hqne
        · have h' := ((append_cons_inj ha hc).mp h).2
          exact absurd h' (by simp)
  | @two a b ha hb hne =>
      rw [getQmlClasstype_two ha hb hne, String.ofList_inj, iff_self_or]
      rintro ⟨t, h⟩
      obtain ⟨-, rfl⟩ := (append_cons_inj ha hc).mp h
      exact absurd (by simp) hb
  | @more a b rest ha hb =>
      rw [getQmlClasstype_more ha hb, String.ofList_inj, append_cons_inj ha hc]
      refine ⟨?_, ?_⟩
      · rintro ⟨rfl, rfl⟩
        exact .inr ⟨rest, rfl⟩
      · rintro (h | ⟨t, h⟩)
        · obtain ⟨-, rfl⟩ := (append_cons_inj ha hc).mp h
          exact absurd (by simp) hq
        · obtain ⟨rfl, h'⟩ := (append_cons_inj ha hc).mp h
          exact ⟨rfl, ((append_cons_inj hb hq).mp h').1⟩

theorem getQmlClasstype_eq_iff (s : String) {c : String} (hc : '_' ∉ c.toList) :
    getQmlClasstype s = c ++ "_QMLTYPE" ↔
      s = c ++ "_QMLTYPE" ∨ (c ++ "_QMLTYPE_").toList <+: s.toList := by
  have hname : c ++ "_QMLTYPE" = String.ofList (c.toList ++ '_' :: "QMLTYPE".toList) := by
    rw [String.ofList_append, String.ofList_toList]
    rfl
  have hlonger : (c ++ "_QMLTYPE_").toList =
      c.toList ++ '_' :: ("QMLTYPE".toList ++ ['_']) := by
    rw [String.toList_append]
    rfl
  have hq : '_' ∉ "QMLTYPE".toList := by decide
  have hqne : "QMLTYPE".toList ≠ [] := by decide
  have hs : s = c ++ "_QMLTYPE" ↔ s.toList = c.toList ++ '_' :: "QMLTYPE".toList := by
    rw [hname, ← String.ofList_inj, String.ofList_toList]
  have h := getQmlClasstype_eq_ofList_iff hc hq hqne s.toList
  rw [String.ofList_toList] at h
  rw [hs, hlonger, hname, h]

/-- Recognition of a component, and what the result is for any name. -/
theorem getQmlClasstype_spec (s : String) :
    (∀ c : String, '_' ∉ c.toList →
      (getQmlClasstype s = c ++ "_QMLTYPE" ↔
        s = c ++ "_QMLTYPE" ∨ (c ++ "_QMLTYPE_").toList <+: s.toList)) ∧
    getQmlClasstype s = String.ofList
      (if s.toList.count '_' = 1 ∧ s.toList.getLast? = some '_' then s.toList.dropLast
        else cutBefore '_' 1 s.toList) :=
  ⟨fun _ hc => getQmlClasstype_eq_iff s hc, getQmlClasstype_eq_cut s⟩

theorem getQmlClasstype_spec_mainWindow :
    getQmlClasstype "MainWindow_QMLTYPE_0" = "MainWindow" ++ "_QMLTYPE" :=
  ((getQmlClasstype_spec "MainWindow_QMLTYPE_0").1 "MainWindow" (by decide)).mpr
    (.inr (by decide))

end SyncServiceUi
