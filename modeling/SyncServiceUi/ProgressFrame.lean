/-
SyncServiceUi/ProgressFrame.lean

A `progress` frame, from the JSON it carries to the cell it is meant for.

The value goes through its text and back, which leaves a number as it is,
unless it is subnormal, and makes zero of everything else
(`progressValue_dump_number`, `progressValue_dump`).  The name goes through
`dump` too, and keeps the quotes a string is dumped in.  So the row looked up
is the one whose name is the quoted name, and the row named in the frame is
right only by chance (`progress_iff`).
-/
import SyncServiceUi.FloatBuffer
import SyncServiceUi.TableObject

namespace SyncServiceUi

open Binary64 Completion KeyOrder Strtod

/-! ### Numbers -/

def Json.isNumber : Json → Bool
  | number_integer _ => true
  | number_float _ => true
  | _ => false

/-- The double a JSON number stands for. -/
def Json.number : Json → Option ℚ
  | number_integer n => toDouble n
  | number_float d => some d.value
  | _ => none

theorem stod_dump_integer {n : ℤ} {x : ℚ} (h : toDouble n = some x) :
    stod (Json.dump_integer n) = .ok x := by
  have htext : (Json.dump_integer n).toList =
      (if decide (n < 0) then ['-'] else []) ++ Nat.toDigits 10 n.natAbs := by
    unfold Json.dump_integer
    by_cases hn : n < 0 <;> simp [hn, Nat.toList_repr]
  apply stod_of_toDigits htext
  rw [← h]
  congr 1
  by_cases hn : n < 0
  · have habs : (n.natAbs : ℤ) = -n := Int.ofNat_natAbs_of_nonpos hn.le
    rw [if_pos (decide_eq_true hn), ← Int.cast_natCast, habs, Int.cast_neg, neg_neg]
  · have habs : (n.natAbs : ℤ) = n := Int.natAbs_of_nonneg (not_lt.mp hn)
    rw [if_neg (by simpa using hn), ← Int.cast_natCast, habs]

/-- What is left of a number on its way: `std::stod` throws on a subnormal
one, and the handler keeps its zero. -/
def flushed (x : ℚ) : ℚ :=
  if |x| < 2 ^ (-1022 : ℤ) then 0 else x

/-- No integer is lost. -/
theorem flushed_of_toDouble_int {n : ℤ} {x : ℚ} (h : toDouble n = some x) : flushed x = x := by
  unfold flushed
  split
  next hlt =>
    rcases eq_or_ne n 0 with rfl | hne
    · have hzero : toDouble ((0 : ℤ) : ℚ) = some 0 := by decide +kernel
      exact Option.some.inj (hzero.symm.trans h)
    · have hone : (1 : ℚ) ≤ |(n : ℚ)| := by exact_mod_cast Int.one_le_abs hne
      have hsmall : (2 : ℚ) ^ (-1022 : ℤ) ≤ 1 := zpow_le_one_of_nonpos₀ (by norm_num) (by norm_num)
      exact absurd hlt (not_lt.mpr (normal_of_toDouble (hsmall.trans hone) h))
  next => rfl

/-- A number is what is read from its text, unless it is subnormal. -/
theorem progressValue_dump_number {v : Json} {x : ℚ} (h : v.number = some x) :
    progressValue (v.dump library) = flushed x := by
  cases v with
  | number_integer n =>
      rw [Json.dump, progressValue, stod_dump_integer h, flushed_of_toDouble_int h]
  | number_float d =>
      obtain rfl : d.value = x := Option.some.inj h
      show progressValue (float_text d) = _
      rw [progressValue, stod_float_text, flushed]
      by_cases hlt : |d.value| < 2 ^ (-1022 : ℤ)
      · rw [if_pos hlt]
        by_cases hzero : d.value = 0
        · rw [if_neg (fun h => h.2 hzero)]
          exact hzero
        · rw [if_pos ⟨hlt, hzero⟩]
      · rw [if_neg hlt, if_neg (fun h => hlt h.1)]
  | _ => cases h

/-- Nothing else starts like a number. -/
theorem exists_dump_eq_cons {v : Json} (lib : Nlohmann) (h : v.isNumber = false) :
    ∃ c cs, (v.dump lib).toList = c :: cs ∧ startsNumber c = false := by
  cases v with
  | null => exact ⟨'n', ['u', 'l', 'l'], by simp [Json.dump], by decide⟩
  | boolean b =>
      rcases b with - | -
      · exact ⟨'f', ['a', 'l', 's', 'e'], by simp [Json.dump], by decide⟩
      · exact ⟨'t', ['r', 'u', 'e'], by simp [Json.dump], by decide⟩
  | number_integer n => cases h
  | number_float q => cases h
  | string s => exact ⟨'"', _, by simp [Json.dump, Json.dump_string]; rfl, by decide⟩
  | array items => exact ⟨'[', _, by simp [Json.dump]; rfl, by decide⟩
  | object members => exact ⟨'\x7b', _, by simp [Json.dump]; rfl, by decide⟩

theorem progressValue_dump {lib : Nlohmann} {v : Json} (h : v.isNumber = false) :
    progressValue (v.dump lib) = 0 := by
  obtain ⟨c, cs, hdump, hc⟩ := exists_dump_eq_cons lib h
  rw [progressValue, stod_of_not_startsNumber hdump hc]

/-! ### The cell -/

variable (lower : String → String)

namespace SyncTable

/-- The first row of this name, if there is one, shows this progress. -/
def ShowsProgress (t : SyncTable) (name : String) (x : ℚ) : Prop :=
  ∀ row, t.rows.find? (isNamed lower name) = some row → row.progress = x

/-- The table with the progress set in the rows of exactly this name. -/
def withProgress (t : SyncTable) (name : String) (x : ℚ) : SyncTable :=
  { t with rows := t.rows.map fun row => if row.name = name then { row with progress := x } else row }

theorem with_progress_eq_self_iff {row : Row} {x : ℚ} :
    ({ row with progress := x } : Row) = row ↔ row.progress = x := by
  refine ⟨?_, ?_⟩
  · intro h
    exact (congrArg Row.progress h).symm
  · rintro rfl
    rfl

/-- Setting the progress of a name changes nothing iff its row shows it. -/
theorem receive_progress_eq_self_iff {t : SyncTable} {name : String} {x : ℚ} :
    t.receive lower (.progress name x) = t ↔ t.ShowsProgress lower name x := by
  have hrows : t.receive lower (.progress name x) = t ↔
      modifyFirst (isNamed lower name) (fun row => { row with progress := x }) t.rows = t.rows := by
    rw [receive_progress]
    refine ⟨congrArg SyncTable.rows, ?_⟩
    intro h
    rw [h]
  rw [hrows, modifyFirst_eq_self_iff]
  simp only [with_progress_eq_self_iff, ShowsProgress]

/-- The name of a row, and of no other row in any case. -/
def NamesOne (t : SyncTable) (name : String) : Prop :=
  ∃ row, row.name = name ∧ t.rows.filter (isNamed lower name) = [row]

theorem NamesOne.isNamed_iff {t : SyncTable} {name : String} (h : t.NamesOne lower name) {row : Row}
    (hrow : row ∈ t.rows) : isNamed lower name row = true ↔ row.name = name := by
  obtain ⟨only, rfl, hfilter⟩ := h
  refine ⟨?_, ?_⟩
  · intro hnamed
    have hmem : row ∈ t.rows.filter (isNamed lower only.name) :=
      List.mem_filter.mpr ⟨hrow, hnamed⟩
    rw [hfilter] at hmem
    rw [List.mem_singleton.mp hmem]
  · intro hname
    simp [isNamed, hname]

/-- The rows of exactly such a name are those of the name in any case. -/
theorem NamesOne.withProgress_eq {t : SyncTable} {name : String} (h : t.NamesOne lower name)
    (x : ℚ) : t.withProgress name x = { t with
      rows := t.rows.map fun row =>
        if isNamed lower name row then { row with progress := x } else row } := by
  unfold withProgress
  congr 1
  apply List.map_congr_left
  intro row hrow
  simp only [h.isNamed_iff lower hrow]

/-- Setting a progress `w` under one name gives the row of another, the only
one of its name, the progress `x` iff the two are one name and one number, or
both rows show what they get already. -/
theorem receive_progress_eq_withProgress_iff {t : SyncTable} {name text : String} {w x : ℚ}
    (hone : t.NamesOne lower name) :
    t.receive lower (.progress text w) = t.withProgress name x ↔
      lower text = lower name ∧ w = x ∨
        (∀ row ∈ t.rows, row.name = name → row.progress = x) ∧ t.ShowsProgress lower text w := by
  have hrows : t.receive lower (.progress text w) = t.withProgress name x ↔
      modifyFirst (isNamed lower text) (fun row => { row with progress := w }) t.rows =
        t.rows.map fun row =>
          if isNamed lower name row then { row with progress := x } else row := by
    rw [receive_progress, hone.withProgress_eq lower]
    refine ⟨congrArg SyncTable.rows, ?_⟩
    intro h
    rw [h]
  rw [hrows]
  by_cases hsame : lower text = lower name
  · have hisNamed : isNamed lower text = isNamed lower name := by
      funext row
      rw [isNamed, isNamed, hsame]
    obtain ⟨row, hname, hfilter⟩ := hone
    obtain ⟨hmem, hnamed⟩ := List.mem_filter.mp
      (show row ∈ t.rows.filter (isNamed lower name) from hfilter ▸ List.mem_singleton_self row)
    rw [hisNamed, modifyFirst_of_filter_eq_singleton hfilter, List.map_inj_left]
    constructor
    · intro h
      have hrow := h row hmem
      rw [if_pos hnamed, if_pos hnamed] at hrow
      exact .inl ⟨hsame, congrArg Row.progress hrow⟩
    · intro h row' hrow'
      have heq : w = x := by
        rcases h with ⟨-, heq⟩ | ⟨hx, hw⟩
        · exact heq
        · -- the row of the name is the first of the other
          have hfirst : t.rows.find? (isNamed lower text) = some row := by
            rw [hisNamed, ← List.head?_filter, hfilter]
            rfl
          exact (hw row hfirst).symm.trans (hx row hmem hname)
      rw [heq]
  · have hapart : ∀ row : Row, isNamed lower text row = true →
        isNamed lower name row = false := by
      intro row h
      have htext : lower row.name = lower text := beq_iff_eq.mp h
      exact beq_eq_false_iff_ne.mpr (htext ▸ hsame)
    have hshown : (∀ row ∈ t.rows, isNamed lower name row = true →
        ({ row with progress := x } : Row) = row) ↔
          ∀ row ∈ t.rows, row.name = name → row.progress = x := by
      refine forall₂_congr ?_
      intro row hrow
      rw [hone.isNamed_iff lower hrow, with_progress_eq_self_iff]
    have hfirst : (∀ row, t.rows.find? (isNamed lower text) = some row →
        ({ row with progress := w } : Row) = row) ↔ t.ShowsProgress lower text w := by
      simp only [with_progress_eq_self_iff, ShowsProgress]
    rw [or_iff_right (fun h => hsame h.1), ← hshown, ← hfirst, ← modifyFirst_eq_map_iff hapart]

end SyncTable

/-! ### The frame -/

/-- The name the handler makes of a `progress` frame: the text of whatever is
there, or none where the data cannot be subscripted. -/
def nameText (lib : Nlohmann) (j : Json) : Option String :=
  match (j.member "data").getD .null with
  | .null => some (Json.null.dump lib)
  | .object ms => some (((ms.lookup "name").getD .null).dump lib)
  | _ => none

namespace TableObject

theorem onFrame_progress {lib : Nlohmann} {j : Json} {ms : List (String × Json)} (o : TableObject)
    (hc : j.member "command" = some (.string "progress"))
    (hdata : (j.member "data").getD .null = .null ∧ ms = [] ∨
      (j.member "data").getD .null = .object ms) :
    o.onFrame lower lib j = o.modifyCompletion lower (((ms.lookup "name").getD .null).dump lib)
      (progressValue (((ms.lookup "progress").getD .null).dump lib)) := by
  unfold onFrame
  rw [signals_progress hc hdata]
  rfl

/-- Data of any other shape makes the handler throw. -/
theorem onFrame_progress_of_nameText_eq_none {lib : Nlohmann} {j : Json} (o : TableObject)
    (hc : j.member "command" = some (.string "progress")) (hname : nameText lib j = none) :
    o.onFrame lower lib j = o := by
  have hreject : ¬ Accepts j := by
    intro haccepts
    have hdata := (accepts_iff hc).mp haccepts
    rw [AcceptsData, if_neg (by decide), if_neg (by decide), if_neg (by decide),
      if_pos rfl] at hdata
    unfold nameText at hname
    rcases hdata with hdata | hdata | ⟨ms, hdata⟩ <;> simp [hdata] at hname
  unfold onFrame
  rw [signals_of_not_accepts hreject]
  rfl

/-- Without a number under `progress` the handler sets a zero, if it gets
that far. -/
theorem onFrame_progress_zero {lib : Nlohmann} {j : Json} {name : String} (o : TableObject)
    (hc : j.member "command" = some (.string "progress"))
    (hprogress : ∀ data v, j.member "data" = some data → data.member "progress" = some v →
      v.isNumber = false) (hname : nameText lib j = some name) :
    o.onFrame lower lib j = o.modifyCompletion lower name 0 := by
  unfold nameText at hname
  split at hname
  next hnull =>
    obtain rfl := Option.some.inj hname
    rw [@onFrame_progress lower lib j [] o hc (.inl ⟨hnull, rfl⟩)]
    exact congrArg _ (progressValue_dump rfl)
  next ms hobject =>
    obtain rfl := Option.some.inj hname
    have hdata : j.member "data" = some (.object ms) := by
      rcases h : j.member "data" with - | data
      · rw [h] at hobject
        cases hobject
      · rw [h] at hobject
        exact congrArg some hobject
    have hvalue : ((ms.lookup "progress").getD .null).isNumber = false := by
      rcases h : ms.lookup "progress" with - | v
      · rfl
      · exact hprogress _ v hdata h
    rw [@onFrame_progress lower lib j ms o hc (.inr hobject), progressValue_dump hvalue]
  next => cases hname

/-- A number given for the only row of a name ends up in its cell, and in no
other, iff that row shows it already and the first row of the quoted name what
is left of it (or the two names are one in any case, and nothing of it is
lost).  Without a number the table stays as it is iff the first row of the
dumped name shows zero. -/
theorem progress_iff (o : TableObject) :
    (∀ j data n v x, j.IsFrame "progress" data → data.member "name" = some (.string n) →
      data.member "progress" = some v → v.number = some x → o.qObj.NamesOne lower n →
      ((o.onFrame lower library j).qObj = o.qObj.withProgress n x ↔
        lower (Json.dump_string n) = lower n ∧ flushed x = x ∨
          (∀ row ∈ o.qObj.rows, row.name = n → row.progress = x) ∧
            o.qObj.ShowsProgress lower (Json.dump_string n) (flushed x))) ∧
    ∀ j, j.member "command" = some (.string "progress") →
      (∀ data v, j.member "data" = some data → data.member "progress" = some v →
        v.isNumber = false) →
      ((o.onFrame lower library j).qObj = o.qObj ↔
        ∀ name, nameText library j = some name → o.qObj.ShowsProgress lower name 0) := by
  refine ⟨?_, ?_⟩
  · intro j data n v x hframe hname hprogress hnumber hone
    obtain ⟨ms, rfl⟩ := Json.object_of_member hname
    rw [Json.member_object] at hname hprogress
    have hdata : (j.member "data").getD .null = .object ms := by rw [hframe.2, Option.getD_some]
    have hvalue := progressValue_dump_number hnumber
    rw [onFrame_progress lower o hframe.1 (.inr hdata), hname, hprogress, Option.getD_some,
      Option.getD_some, hvalue, Json.dump]
    exact SyncTable.receive_progress_eq_withProgress_iff lower hone
  · intro j hc hprogress
    rcases hname : nameText library j with - | name
    · rw [onFrame_progress_of_nameText_eq_none lower o hc hname]
      simp
    · rw [onFrame_progress_zero lower o hc hprogress hname]
      simp only [Option.some.injEq, forall_eq']
      exact SyncTable.receive_progress_eq_self_iff lower

/-- A row for trying things out. -/
def sampleRow (x : ℚ) : Row :=
  ⟨⟨"a", "/s", "/d", "Local", "Backup"⟩, x, "active"⟩

/-- The frame that sets its progress to one. -/
def sampleFrame : Json :=
  serviceFrame "progress" (.object [("name", .string "a"), ("progress", .number_integer 1)])

/-- A progress that is shown already. -/
theorem progress_shown :
    (onFrame String.toLower library ⟨[], ⟨[sampleRow 1], .name, true⟩⟩
      sampleFrame).qObj = SyncTable.withProgress ⟨[sampleRow 1], .name, true⟩ "a" 1 := by
  refine ((progress_iff String.toLower ⟨[], ⟨[sampleRow 1], .name, true⟩⟩).1 _ _ "a"
    (.number_integer 1) 1 (isFrame_serviceFrame _ _) rfl rfl (by decide +kernel)
    ⟨sampleRow 1, rfl, by decide +kernel⟩).mpr (.inr ⟨by decide +kernel, ?_⟩)
  -- no row has the name in quotes
  have hnone : [sampleRow 1].find? (SyncTable.isNamed String.toLower (Json.dump_string "a")) =
      none := by decide +kernel
  intro row hrow
  rw [hnone] at hrow
  cases hrow

/-- The first progress of a module does not reach its row. -/
theorem not_progress_updates :
    ¬ ∀ (lower : String → String) (o : TableObject) (j data : Json) (n : String) (v : Json)
      (x : ℚ), j.IsFrame "progress" data → data.member "name" = some (.string n) →
      data.member "progress" = some v → v.number = some x → o.qObj.NamesOne lower n →
      (o.onFrame lower library j).qObj = o.qObj.withProgress n x := by
  intro h
  have hrow := h String.toLower ⟨[], ⟨[sampleRow 0], .name, true⟩⟩ sampleFrame _ "a"
    (.number_integer 1) 1 (isFrame_serviceFrame _ _) rfl rfl (by decide +kernel)
    ⟨sampleRow 0, rfl, by decide +kernel⟩
  revert hrow
  decide +kernel

end TableObject

end SyncServiceUi
