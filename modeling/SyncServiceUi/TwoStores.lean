/-
SyncServiceUi/TwoStores.lean

The vector of modules and the rows of the table are two stores of one thing.
Nothing compares them; each is kept by handlers of its own.

* Deleting: the C++ handler erases the first module of exactly the name, the
  QML handler every row of the name in any case.  They agree iff no name but
  that one, once, matches (`moduleDeleted_agree_iff`).
* Adding: an `add` frame never reaches the vector, and an `init` frame always
  does, so the two are never the same (`init_add_iff`).
* Fetching: an `init` frame appends to both stores and sets the progress of
  Module8, so what it lists is what is shown iff there was nothing before it
  and nothing in it is touched on the way (`snapshot_iff`).
-/
import SyncServiceUi.TableObject
import SyncServiceUi.TableRuns

namespace SyncServiceUi

open Completion KeyOrder Runs

variable (lower : String → String)

namespace TableObject

/-! ### Deleting -/

/-- The names in the vector. -/
def names (o : TableObject) : List String :=
  o.modules.map fun module => module.name

/-- The two stores carry the same names, with the same multiplicities. -/
def SameNames (o : TableObject) : Prop :=
  o.names.Perm (o.qObj.rows.map fun row => row.name)

/-- Every module not called `name` is as it was, in both stores. -/
def KeepsOthers (o o' : TableObject) (name : String) : Prop :=
  (o'.modules.filter fun module => module.name ≠ name) =
      o.modules.filter (fun module => module.name ≠ name) ∧
    (o'.qObj.rows.filter fun row => row.name ≠ name) =
      o.qObj.rows.filter fun row => row.name ≠ name

/-- The C++ handler erases the first occurrence of the name. -/
theorem names_onModuleDeleted (o : TableObject) (name : String) :
    (o.onModuleDeleted name).names = o.names.erase name := by
  obtain ⟨modules, qObj⟩ := o
  show (modules.eraseP fun module => module.name = name).map _ = (modules.map _).erase name
  induction modules with
  | nil => rfl
  | cons module modules ih =>
      by_cases h : module.name = name
      · simp [h]
      · simp [h, ih]

/-- No module but the one of this name is erased. -/
theorem filter_onModuleDeleted (o : TableObject) (name : String) :
    ((o.onModuleDeleted name).modules.filter fun module => module.name ≠ name) =
      o.modules.filter fun module => module.name ≠ name := by
  obtain ⟨modules, qObj⟩ := o
  show (modules.eraseP fun module => module.name = name).filter _ = modules.filter _
  induction modules with
  | nil => rfl
  | cons module modules ih =>
      by_cases h : module.name = name
      · simp [h]
      · simpa [h] using ih

theorem receive_moduleDeleted (o : TableObject) (name : String) :
    o.receive lower (.moduleDeleted name) =
      ⟨(o.onModuleDeleted name).modules, { o.qObj with
        rows := o.qObj.rows.filter fun row => !SyncTable.isNamed lower name row }⟩ := by
  show (⟨_, o.qObj.receive lower (.delete name)⟩ : TableObject) = _
  rw [SyncTable.receive_delete]

/-- The rows that are left carry the names of the vector that do not match. -/
theorem names_rows_left {o : TableObject} (name : String) (hsame : o.SameNames) :
    ((o.qObj.rows.filter fun row => !SyncTable.isNamed lower name row).map fun row => row.name).Perm
      (o.names.filter fun x => !decide (lower x = lower name)) := by
  have hnamed : SyncTable.isNamed lower name = fun row => decide (lower row.name = lower name) := by
    funext row
    exact beq_eq_decide _ _
  have hleft := hsame.symm.filter fun x => !decide (lower x = lower name)
  rw [List.filter_map] at hleft
  rw [hnamed]
  exact hleft

/-- Where every match is exactly the name, no row of another name goes. -/
theorem filter_rows_left {o : TableObject} {name : String} (hsame : o.SameNames)
    (hexact : ∀ x ∈ o.names, lower x = lower name → x = name) :
    ((o.qObj.rows.filter fun row => !SyncTable.isNamed lower name row).filter
      fun row => row.name ≠ name) = o.qObj.rows.filter fun row => row.name ≠ name := by
  rw [List.filter_filter]
  apply List.filter_congr
  intro row hrow
  by_cases hne : row.name = name
  · simp [hne]
  · have hmem : row.name ∈ o.names := hsame.symm.subset (List.mem_map.mpr ⟨row, hrow, rfl⟩)
    have hmatch : lower row.name ≠ lower name := fun h => hne (hexact _ hmem h)
    simp [hne, SyncTable.isNamed, hmatch]

/-- A module for trying things out. -/
def sample (name : String) : SyncModule :=
  ⟨name, "/s", "/d", "Local", "Backup", ⟨name, 0, "", 0⟩⟩

/-- After a deletion the stores carry the same names again, with every other
module still in both, iff no name matches or only the name itself does, once. -/
theorem moduleDeleted_agree_iff (o : TableObject) (name : String) (hsame : o.SameNames) :
    (o.receive lower (.moduleDeleted name)).SameNames ∧
        o.KeepsOthers (o.receive lower (.moduleDeleted name)) name ↔
      (o.names.filter fun x => lower x = lower name) = [] ∨
        (o.names.filter fun x => lower x = lower name) = [name] := by
  have herase := @erase_perm_filter_iff _ _ (fun x => decide (lower x = lower name)) name
    (by simp) o.names
  have hrows := names_rows_left lower name hsame
  rw [receive_moduleDeleted, ← herase]
  refine ⟨?_, ?_⟩
  · rintro ⟨hnames, -⟩
    have hnames' : (o.onModuleDeleted name).names.Perm _ := hnames
    rw [names_onModuleDeleted] at hnames'
    exact hnames'.trans hrows
  · intro h
    have hexact : ∀ x ∈ o.names, lower x = lower name → x = name := by
      intro x hx hmatch
      have hfilter : x ∈ o.names.filter fun x => lower x = lower name :=
        List.mem_filter.mpr ⟨hx, decide_eq_true hmatch⟩
      rcases herase.mp h with hnone | hone
      · rw [hnone] at hfilter
        cases hfilter
      · rw [hone] at hfilter
        exact List.mem_singleton.mp hfilter
    refine ⟨?_, filter_onModuleDeleted o name, filter_rows_left lower hsame hexact⟩
    show (o.onModuleDeleted name).names.Perm _
    rw [names_onModuleDeleted]
    exact h.trans hrows.symm

/-- Two modules in both stores, one of them deleted. -/
theorem moduleDeleted_agree_two :
    (receive String.toLower ⟨[sample "a", sample "b"], ⟨[(sample "a").fetchedEntry.row,
      (sample "b").fetchedEntry.row], .name, true⟩⟩ (.moduleDeleted "a")).SameNames :=
  ((moduleDeleted_agree_iff String.toLower ⟨[sample "a", sample "b"],
    ⟨[(sample "a").fetchedEntry.row, (sample "b").fetchedEntry.row], .name, true⟩⟩ "a"
    (.refl _)).mpr (.inr (by decide +kernel))).1

/-- Two names that differ in case: the table loses both rows, the vector one
module. -/
theorem not_moduleDeleted_agree_case :
    ¬ ∀ (lower : String → String) (o : TableObject) (name : String), o.SameNames →
      (o.receive lower (.moduleDeleted name)).SameNames ∧
        o.KeepsOthers (o.receive lower (.moduleDeleted name)) name := by
  intro h
  obtain ⟨hnames, -⟩ := h String.toLower ⟨[sample "a", sample "A"],
    ⟨[(sample "a").fetchedEntry.row, (sample "A").fetchedEntry.row], .name, true⟩⟩ "a" (.refl _)
  have hlower : String.toLower "a" = "a" ∧ String.toLower "A" = "a" := by decide +kernel
  have hlength := hnames.length_eq
  rw [receive_moduleDeleted] at hlength
  simp [names, onModuleDeleted, SyncTable.isNamed, ModuleEntry.row, SyncModule.fetchedEntry,
    sample, hlower] at hlength

/-! ### Adding -/

theorem shape_to_json (module : SyncModule) : SyncModule.Shape module.to_json := by
  simp [SyncModule.Shape, SyncModule.Fields, Json.HasString, SyncModule.to_json, SyncInfo.Shape,
    Json.HasNumber, SyncInfo.to_json, Json.isNumeric]

/-- An `init` or an `add` frame that the handler accepts. -/
abbrev Delivery :=
  { j : Json // Accepts j ∧ (j.member "command" = some (.string "init") ∨
    j.member "command" = some (.string "add")) }

/-- How many modules `initModules` makes of the data of a frame. -/
def itemCount : Json → ℕ
  | .array items => items.length
  | _ => 0

/-- The number of modules an `init` frame lists. -/
def fetchedCount (j : Json) : ℕ :=
  itemCount ((j.member "data").getD .null)

/-- The two stores gain alike: the modules an `init` frame lists can all be
added, and the one of an `add` frame is lost, as the vector never gets it. -/
def GainsAlike (o : TableObject) (d : Delivery) : Prop :=
  (d.1.member "command" = some (.string "init") →
    fetchedCount d.1 = 0 ∨ o.qObj.sortedColumnIndex ≠ .progress ∨
      o.qObj.rows = [] ∧ fetchedCount d.1 = 1) ∧
  (d.1.member "command" = some (.string "add") →
    o.qObj.sortedColumnIndex = .progress ∧ o.qObj.rows ≠ [])

theorem length_initModules {data : Json} {L : List SyncModule}
    (h : initModules data = .ok L) : L.length = itemCount data := by
  cases data with
  | array items => exact (mapM_eq_ok_iff.mp h).length_eq.symm
  | _ =>
      obtain rfl : [] = L := Except.ok.inj h
      rfl

theorem exists_initModules {j : Json} (h : Accepts j)
    (hc : j.member "command" = some (.string "init")) :
    ∃ L, initModules ((j.member "data").getD .null) = .ok L := by
  have hdata := (accepts_iff hc).mp h
  rw [AcceptsData, if_pos rfl] at hdata
  show Completes _
  rw [completes_initModules]
  intro items hitems
  apply hdata items
  rcases hm : j.member "data" with - | data
  · rw [hm] at hitems
    cases hitems
  · rw [hm] at hitems
    exact congrArg some hitems

/-- An `add` frame leaves the vector alone. -/
theorem exists_onFrame_add {lib : Nlohmann} {j : Json} (o : TableObject) (h : Accepts j)
    (hc : j.member "command" = some (.string "add")) :
    ∃ m : ModuleEntry, o.onFrame lower lib j = o.moduleAdded lower m := by
  have hdata := (accepts_iff hc).mp h
  rw [AcceptsData, if_neg (by decide), if_pos rfl] at hdata
  obtain ⟨module, hmodule, ⟨name, hname⟩, ⟨source, hsource⟩, ⟨destination, hdestination⟩,
    ⟨type, htype⟩, direction, hdirection⟩ := hdata
  refine ⟨⟨name, source, destination, type, direction⟩, ?_⟩
  unfold onFrame
  rw [@signals_add lib j module ⟨name, source, destination, type, direction⟩ ⟨hc, hmodule⟩ hname
    hsource hdestination htype hdirection]
  rfl

/-- How many rows there are after an `init` frame. -/
theorem length_rows_init {lib : Nlohmann} {j : Json} {L : List SyncModule} (o : TableObject)
    (hc : j.member "command" = some (.string "init"))
    (hL : initModules ((j.member "data").getD .null) = .ok L) :
    (o.onFrame lower lib j).qObj.rows.length = o.qObj.rows.length +
      if o.qObj.sortedColumnIndex ≠ .progress then L.length
      else if o.qObj.rows = [] then min 1 L.length else 0 := by
  have hrows := SyncTable.length_run_adds lower o.qObj (L.map SyncModule.fetchedEntry)
  rw [List.map_map, List.length_map] at hrows
  rw [onFrame_init lower o hc hL, onModulesFetched_eq, SyncTable.receive_progress]
  dsimp only
  rw [length_modifyFirst]
  exact hrows

/-- What the two stores gain by a frame. -/
theorem gainsAlike_iff (lib : Nlohmann) (o : TableObject) (d : Delivery) :
    (o.onFrame lower lib d.1).modules.length + o.qObj.rows.length =
        (o.onFrame lower lib d.1).qObj.rows.length + o.modules.length ↔ o.GainsAlike d := by
  obtain ⟨j, haccepts, hc | hc⟩ := d
  · obtain ⟨L, hL⟩ := exists_initModules haccepts hc
    have hcount : L.length = fetchedCount j := length_initModules hL
    have halike : o.GainsAlike ⟨j, haccepts, .inl hc⟩ ↔ L.length = 0 ∨
        o.qObj.sortedColumnIndex ≠ .progress ∨ o.qObj.rows = [] ∧ L.length = 1 := by
      simp [GainsAlike, hc, hcount]
    have hmodules : (o.onFrame lower lib j).modules.length = o.modules.length + L.length := by
      rw [onFrame_init lower o hc hL, onModulesFetched_eq, List.length_append]
    rw [halike, hmodules, length_rows_init lower o hc hL]
    by_cases hcol : o.qObj.sortedColumnIndex = .progress
    · rw [if_neg (not_not.mpr hcol)]
      by_cases hempty : o.qObj.rows = []
      · rw [if_pos hempty]
        simp only [hcol, hempty, ne_eq, not_true, false_or, true_and, List.length_nil]
        omega
      · rw [if_neg hempty]
        simp only [hcol, hempty, ne_eq, not_true, false_and, or_false]
        omega
    · rw [if_pos hcol]
      refine iff_of_true ?_ (.inr (.inl hcol))
      omega
  · obtain ⟨m, hm⟩ := @exists_onFrame_add lower lib j o haccepts hc
    have halike : o.GainsAlike ⟨j, haccepts, .inr hc⟩ ↔
        o.qObj.sortedColumnIndex = .progress ∧ o.qObj.rows ≠ [] := by
      simp [GainsAlike, hc]
    have hrows : (o.qObj.receive lower (.add m)).rows.length = _ :=
      SyncTable.length_run_adds lower o.qObj [m]
    rw [halike, hm]
    show o.modules.length + o.qObj.rows.length =
      (o.qObj.receive lower (.add m)).rows.length + o.modules.length ↔ _
    rw [hrows]
    by_cases hcol : o.qObj.sortedColumnIndex = .progress
    · by_cases hempty : o.qObj.rows = []
      · simp [hcol, hempty]
      · simp [hcol, hempty]
        omega
    · simp [hcol]
      omega

/-- Since the start of the run the two stores have gained alike. -/
def GainedAlike (start o : TableObject) : Prop :=
  o.modules.length + start.qObj.rows.length = o.qObj.rows.length + start.modules.length

/-- An `init` frame of one module and an `add` frame of the same module never
leave the same names in the vector.  Over any frames of the two kinds the
vector gains modules as the table gains rows iff every frame does. -/
theorem init_add_iff (lib : Nlohmann) (o : TableObject) :
    (∀ item j j', SyncModule.Shape item → j.IsFrame "init" (.array [item]) →
      j'.IsFrame "add" item →
      ¬ ((o.onFrame lower lib j).qObj.rows = (o.onFrame lower lib j').qObj.rows ∧
        (o.onFrame lower lib j).names = (o.onFrame lower lib j').names)) ∧
    ∀ frames : List Delivery,
      Always (fun o d => o.onFrame lower lib d.1) o.GainedAlike o frames ↔
        Meets (fun o d => o.onFrame lower lib d.1) GainsAlike o frames := by
  refine ⟨?_, ?_⟩
  · intro item j j' hshape hinit hadd h
    obtain ⟨-, hnames⟩ := h
    obtain ⟨module, hmodule⟩ := SyncModule.completes_ofJson.mpr hshape
    have hL : initModules ((j.member "data").getD .null) = .ok [module] := by
      rw [hinit.2]
      exact mapM_eq_ok_iff.mpr (.cons hmodule .nil)
    have haccepts : Accepts j' := by
      rw [accepts_iff hadd.1, AcceptsData, if_neg (by decide), if_pos rfl]
      exact ⟨item, hadd.2, hshape.1⟩
    obtain ⟨m, hm⟩ := @exists_onFrame_add lower lib j' o haccepts hadd.1
    -- one frame appends the module to the vector, the other does not
    rw [onFrame_init lower o hinit.1 hL, onModulesFetched_eq, hm] at hnames
    have hlength := congrArg List.length hnames
    simp [names, moduleAdded] at hlength
  · intro frames
    refine always_iff_meets ?_ (Nat.add_comm _ _)
    intro o' d h
    rw [← gainsAlike_iff lower lib o' d]
    unfold GainedAlike at h ⊢
    omega

/-- The sample module, once by either frame. -/
theorem init_add_sample :
    ¬ ((blank.onFrame String.toLower noText
          (serviceFrame "init" (.array [(sample "a").to_json]))).qObj.rows =
        (blank.onFrame String.toLower noText
          (serviceFrame "add" (sample "a").to_json)).qObj.rows ∧
      (blank.onFrame String.toLower noText
          (serviceFrame "init" (.array [(sample "a").to_json]))).names =
        (blank.onFrame String.toLower noText
          (serviceFrame "add" (sample "a").to_json)).names) :=
  (init_add_iff String.toLower noText blank).1 _ _ _ (shape_to_json (sample "a"))
    (isFrame_serviceFrame _ _) (isFrame_serviceFrame _ _)

/-- The same on an empty table, computed: one vector has a module and the
other has none. -/
theorem not_init_add_agree :
    ¬ ∀ (lower : String → String) (lib : Nlohmann) (o : TableObject) (item j j' : Json),
      SyncModule.Shape item → j.IsFrame "init" (.array [item]) → j'.IsFrame "add" item →
      (o.onFrame lower lib j).qObj.rows = (o.onFrame lower lib j').qObj.rows ∧
        (o.onFrame lower lib j).names = (o.onFrame lower lib j').names := by
  intro h
  obtain ⟨-, hnames⟩ := h String.toLower noText blank _ _ _ (shape_to_json (sample "a"))
    (isFrame_serviceFrame _ _) (isFrame_serviceFrame _ _)
  revert hnames
  decide +kernel

/-! ### Fetching -/

/-- The fields of a module, as they stand. -/
def entry (module : SyncModule) : ModuleEntry :=
  ⟨module.name, module.source, module.destination, module.type, module.direction⟩

/-- Nothing happens to a module on the way to its row: it is not Module8, and
its paths have no null character to be cut at. -/
def Untouched (module : SyncModule) : Prop :=
  lower module.name ≠ lower "Module8" ∧ '\x00' ∉ module.source.toList ∧
    '\x00' ∉ module.destination.toList

theorem c_str_eq_self_iff {s : String} : c_str s = s ↔ '\x00' ∉ s.toList := by
  unfold c_str
  rw [← String.toList_inj, String.toList_ofList, List.takeWhile_eq_self_iff]
  simp only [decide_eq_true_eq]
  refine ⟨?_, ?_⟩
  · intro h hmem
    exact h _ hmem rfl
  · intro h c hc
    rintro rfl
    exact h hc

theorem fetchedEntry_eq_iff {module : SyncModule} :
    module.fetchedEntry = entry module ↔
      '\x00' ∉ module.source.toList ∧ '\x00' ∉ module.destination.toList := by
  rw [← c_str_eq_self_iff, ← c_str_eq_self_iff]
  simp [SyncModule.fetchedEntry, entry]

/-- What the frame lists is what is shown: the vector holds its modules, and
the table one fresh row for each. -/
def Shows (o : TableObject) (L : List SyncModule) : Prop :=
  o.modules = L ∧ o.qObj.rows.Perm (L.map fun module => (entry module).row)

/-- Sorted by a column of strings, an `init` frame appends its modules, adds a
row for each and sets the progress of the first Module8. -/
theorem exists_onFrame_init {lib : Nlohmann} {j : Json} {L : List SyncModule} (o : TableObject)
    (hc : j.member "command" = some (.string "init"))
    (hL : initModules ((j.member "data").getD .null) = .ok L)
    (hcol : o.qObj.sortedColumnIndex ≠ .progress) :
    ∃ rows, o.onFrame lower lib j = ⟨o.modules ++ L, { o.qObj with
        rows := modifyFirst (SyncTable.isNamed lower "Module8")
          (fun row => { row with progress := fetchedProgress }) rows }⟩ ∧
      rows.Perm (o.qObj.rows ++ L.map fun module => module.fetchedEntry.row) := by
  obtain ⟨rows, hrun, hperm⟩ :=
    SyncTable.run_adds lower hcol (L.map SyncModule.fetchedEntry)
  rw [List.map_map] at hrun hperm
  have hrun' : run (SyncTable.receive lower) o.qObj
      (L.map fun module => .add module.fetchedEntry) = { o.qObj with rows } := hrun
  refine ⟨rows, ?_, hperm⟩
  rw [onFrame_init lower o hc hL, onModulesFetched_eq, hrun', SyncTable.receive_progress]

/-- Where what is shown is what the frame lists, nothing was there before and
no module was touched. -/
theorem untouched_of_shows {o : TableObject} {L : List SyncModule} {rows : List Row}
    (hnames : (L.map fun module => lower module.name).Nodup)
    (hrows : rows.Perm (o.qObj.rows ++ L.map fun module => module.fetchedEntry.row))
    (hshown : (modifyFirst (SyncTable.isNamed lower "Module8")
      (fun row => { row with progress := fetchedProgress }) rows).Perm
        (L.map fun module => (entry module).row)) :
    o.qObj.rows = [] ∧ ∀ module ∈ L, Untouched lower module := by
  have hempty : o.qObj.rows = [] := by
    have hlength := hrows.length_eq
    have hlength' := hshown.length_eq
    rw [length_modifyFirst, List.length_map] at hlength'
    rw [List.length_append, List.length_map] at hlength
    exact List.length_eq_zero_iff.mp (by omega)
  rw [hempty, List.nil_append] at hrows
  refine ⟨hempty, ?_⟩
  intro module hmodule
  have hrow : module.fetchedEntry.row ∈ rows :=
    hrows.symm.subset (List.mem_map.mpr ⟨module, hmodule, rfl⟩)
  have hfetched : module.fetchedEntry = entry module := by
    -- the five strings of a row stay as they are added
    have hkeep : ∀ row : Row, Row.toModuleEntry { row with progress := fetchedProgress } =
        row.toModuleEntry := by
      intro row
      rfl
    have hentries := hshown.map Row.toModuleEntry
    rw [map_modifyFirst hkeep, List.map_map] at hentries
    have hmem : module.fetchedEntry ∈ L.map fun module => entry module :=
      hentries.subset (List.mem_map.mpr ⟨_, hrow, rfl⟩)
    obtain ⟨module', hmodule', heq⟩ := List.mem_map.mp hmem
    have hname : module'.name = module.name := congrArg ModuleEntry.name heq
    have hlower : lower module'.name = lower module.name := congrArg lower hname
    obtain rfl := List.inj_on_of_nodup_map hnames hmodule' hmodule hlower
    exact heq.symm
  refine ⟨?_, fetchedEntry_eq_iff.mp hfetched⟩
  intro height
  obtain ⟨row, -, -, hmem⟩ := @exists_mem_modifyFirst _ (SyncTable.isNamed lower "Module8")
    (fun row => { row with progress := fetchedProgress }) rows module.fetchedEntry.row hrow
    (beq_iff_eq.mpr height)
  -- a row of the frame starts at zero
  obtain ⟨module', -, heq⟩ := List.mem_map.mp (hshown.subset hmem)
  have hprogress : 0 = fetchedProgress := congrArg Row.progress heq
  exact absurd hprogress (by decide +kernel)

/-- What an `init` frame lists is what is shown iff there was nothing before
it and nothing happens to a module on the way.  A second time the same frame
changes nothing only when it lists nothing. -/
theorem snapshot_iff (lib : Nlohmann) (o : TableObject) {j : Json} {items : List Json}
    {L : List SyncModule} (hframe : j.IsFrame "init" (.array items))
    (hL : items.mapM SyncModule.ofJson = .ok L)
    (hnames : (L.map fun module => lower module.name).Nodup)
    (hcol : o.qObj.sortedColumnIndex.isText = true) :
    ((o.onFrame lower lib j).Shows L ↔
        o.modules = [] ∧ o.qObj.rows = [] ∧ ∀ module ∈ L, Untouched lower module) ∧
      (((o.onFrame lower lib j).onFrame lower lib j).modules = (o.onFrame lower lib j).modules ∧
          ((o.onFrame lower lib j).onFrame lower lib j).qObj.rows.Perm
            (o.onFrame lower lib j).qObj.rows ↔ L = []) := by
  have hinit : initModules ((j.member "data").getD .null) = .ok L := by
    rw [hframe.2]
    exact hL
  obtain ⟨rows, ho, hrows⟩ := @exists_onFrame_init lower lib j L o hframe.1 hinit
    (SyncTable.ne_progress hcol)
  refine ⟨?_, ?_, ?_⟩
  · rw [ho]
    refine ⟨?_, ?_⟩
    · rintro ⟨hmodules, hshown⟩
      exact ⟨List.append_left_eq_self.mp hmodules, untouched_of_shows lower hnames hrows hshown⟩
    · rintro ⟨hmodules, hempty, huntouched⟩
      have hentries : (L.map fun module => module.fetchedEntry.row) =
          L.map fun module => (entry module).row := by
        apply List.map_congr_left
        intro module hmodule
        rw [fetchedEntry_eq_iff.mpr (huntouched module hmodule).2]
      rw [hempty, List.nil_append, hentries] at hrows
      refine ⟨by simp [hmodules], ?_⟩
      -- no row of the frame is the one whose progress is set
      have hnone : ∀ row ∈ rows, SyncTable.isNamed lower "Module8" row = false := by
        intro row hrow
        obtain ⟨module, hmodule, rfl⟩ := List.mem_map.mp (hrows.subset hrow)
        exact beq_eq_false_iff_ne.mpr (huntouched module hmodule).1
      dsimp only
      rw [modifyFirst_of_forall_not _ hnone]
      exact hrows
  · rintro ⟨hmodules, -⟩
    rw [onFrame_init lower (o.onFrame lower lib j) hframe.1 hinit, onModulesFetched_eq] at hmodules
    exact List.append_right_eq_self.mp hmodules
  · rintro rfl
    have honce : ∀ o : TableObject, o.onFrame lower lib j = ⟨o.modules,
        o.qObj.receive lower (.progress "Module8" fetchedProgress)⟩ := by
      intro o
      rw [onFrame_init lower o hframe.1 hinit, onModulesFetched_eq]
      simp
    rw [honce (o.onFrame lower lib j), honce o]
    exact ⟨rfl, by rw [SyncTable.receive_progress_receive_progress]⟩

/-- Two modules fetched at the start. -/
theorem snapshot_two :
    (blank.onFrame String.toLower noText
      (serviceFrame "init" (.array [(sample "b").to_json, (sample "a").to_json]))).Shows
        [sample "b", sample "a"] :=
  (@snapshot_iff String.toLower noText blank _ _ [sample "b", sample "a"]
    (isFrame_serviceFrame _ _) (by decide +kernel) (by decide +kernel) rfl).1.mpr
      ⟨rfl, rfl, by simp [Untouched, sample]; decide +kernel⟩

/-- The same frame again: the modules and the rows are there twice. -/
theorem not_snapshot_again :
    ¬ ∀ (lower : String → String) (lib : Nlohmann) (o : TableObject) (j : Json)
      (items : List Json) (L : List SyncModule), j.IsFrame "init" (.array items) →
      items.mapM SyncModule.ofJson = .ok L → (L.map fun module => lower module.name).Nodup →
      o.qObj.sortedColumnIndex.isText = true → (o.onFrame lower lib j).Shows L := by
  intro h
  have hframe := isFrame_serviceFrame "init" (.array [(sample "a").to_json])
  obtain ⟨hmodules, -⟩ := h String.toLower noText (blank.onFrame String.toLower noText
    (serviceFrame "init" (.array [(sample "a").to_json]))) _ _ [sample "a"] hframe
    (by decide +kernel) (by decide +kernel) (by decide +kernel)
  revert hmodules
  decide +kernel

end TableObject

end SyncServiceUi
