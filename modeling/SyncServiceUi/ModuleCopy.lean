/-
SyncServiceUi/ModuleCopy.lean

Copying a module and comparing two (`src/sync_module.cpp`).

The copy constructor delegates to the constructor that looks at the
filesystem, so a copy is a blank module when a path of the original is not
there, and `operator==` takes its argument by value, so it compares with such
a copy.  Both are what they look like on a set of modules iff the paths of
every one of them exist (`copiesAndCompares_iff`).

What two equal paths are depends on the platform: it says where the root name
of a path ends and what separates its elements (`PathGrammar`).
-/
import Mathlib.Data.Set.Defs
import SyncServiceUi.AddSyncModule

namespace SyncServiceUi

open Completion

/-! ### Paths -/

/-- How the platform reads a path: its root name, whether a root directory
follows, and the elements of the path below it. -/
structure PathGrammar where
  root_name : Path → String
  has_root_directory : Path → Bool
  relative_path : Path → List String

/-- `operator==` of two paths. -/
def PathGrammar.eq (grammar : PathGrammar) (p q : Path) : Bool :=
  grammar.root_name p = grammar.root_name q &&
    grammar.has_root_directory p = grammar.has_root_directory q &&
    grammar.relative_path p = grammar.relative_path q

theorem PathGrammar.eq_iff {grammar : PathGrammar} {p q : Path} :
    grammar.eq p q = true ↔ grammar.root_name p = grammar.root_name q ∧
      grammar.has_root_directory p = grammar.has_root_directory q ∧
      grammar.relative_path p = grammar.relative_path q := by
  simp [eq, and_assoc]

theorem PathGrammar.equivalence (grammar : PathGrammar) :
    Equivalence fun p q => grammar.eq p q = true := by
  refine ⟨?_, ?_, ?_⟩
  · intro p
    exact eq_iff.mpr ⟨rfl, rfl, rfl⟩
  · intro p q h
    obtain ⟨hname, hroot, hbelow⟩ := eq_iff.mp h
    exact eq_iff.mpr ⟨hname.symm, hroot.symm, hbelow.symm⟩
  · intro p q r h h'
    obtain ⟨hname, hroot, hbelow⟩ := eq_iff.mp h
    obtain ⟨hname', hroot', hbelow'⟩ := eq_iff.mp h'
    exact eq_iff.mpr ⟨hname.trans hname', hroot.trans hroot', hbelow.trans hbelow'⟩

/-- The elements of a path below its root, between slashes; after a slash at
the end there is an empty one. -/
def elements (cs : List Char) : List String :=
  let names := (cs.splitOn '/').filter (· ≠ [])
  (if names ≠ [] ∧ cs.getLast? = some '/' then names ++ [[]] else names).map String.ofList

/-- The POSIX grammar, which has no root names. -/
def PathGrammar.posix : PathGrammar where
  root_name _ := ""
  has_root_directory p := p.toList.head? = some '/'
  relative_path p := elements p.toList

example : PathGrammar.posix.eq "/a//b" "/a/b" = true := by decide +kernel

/-! ### Copies -/

namespace SyncModule

/-- `SyncModule(const SyncModule&)`. -/
def copy (fs : Filesystem) (amb : Ambient) (module : SyncModule) : Except Exn SyncModule :=
  ofFieldsInfo fs amb module.name module.source module.destination module.type module.direction
    module.info

/-- The five fields are equal. -/
def sameFields (grammar : PathGrammar) (a b : SyncModule) : Bool :=
  a.name = b.name && grammar.eq a.source b.source && grammar.eq a.destination b.destination &&
    a.type = b.type && a.direction = b.direction

/-- `operator==`, whose parameter is a copy of the argument. -/
def eq (fs : Filesystem) (amb : Ambient) (grammar : PathGrammar) (self other : SyncModule) :
    Except Exn Bool := do
  let other ← other.copy fs amb
  return sameFields grammar self other

/-- Both paths of the module are there. -/
def PathsExist (fs : Filesystem) (m : SyncModule) : Prop :=
  fs m.source = .present ∧ fs m.destination = .present

theorem sameFields_iff {grammar : PathGrammar} {a b : SyncModule} :
    sameFields grammar a b = true ↔ a.name = b.name ∧ grammar.eq a.source b.source = true ∧
      grammar.eq a.destination b.destination = true ∧ a.type = b.type ∧
      a.direction = b.direction := by
  simp [sameFields, and_assoc]

theorem sameFields_equivalence (grammar : PathGrammar) :
    Equivalence fun a b => sameFields grammar a b = true := by
  have hpaths := grammar.equivalence
  refine ⟨?_, ?_, ?_⟩
  · intro a
    exact sameFields_iff.mpr ⟨rfl, hpaths.refl _, hpaths.refl _, rfl, rfl⟩
  · intro a b h
    obtain ⟨hname, hsource, hdestination, htype, hdirection⟩ := sameFields_iff.mp h
    exact sameFields_iff.mpr ⟨hname.symm, hpaths.symm hsource, hpaths.symm hdestination,
      htype.symm, hdirection.symm⟩
  · intro a b c h h'
    obtain ⟨hname, hsource, hdestination, htype, hdirection⟩ := sameFields_iff.mp h
    obtain ⟨hname', hsource', hdestination', htype', hdirection'⟩ := sameFields_iff.mp h'
    exact sameFields_iff.mpr ⟨hname.trans hname', hpaths.trans hsource hsource',
      hpaths.trans hdestination hdestination', htype.trans htype', hdirection.trans hdirection'⟩

/-- A copy is the module itself where its paths are there, a blank one where
they are rejected, and otherwise none: asking for them throws. -/
theorem copy_eq_ok_iff {fs : Filesystem} {amb : Ambient} {a c : SyncModule} :
    a.copy fs amb = .ok c ↔ a.PathsExist fs ∧ a = c ∨
      Rejects fs a.source a.destination ∧ blank amb = c := by
  rw [copy, ofFieldsInfo_eq, PathsExist, Rejects]
  rcases hs : fs a.source with - | - | - <;> rcases hd : fs a.destination with - | - | - <;> simp

theorem copy_of_pathsExist {fs : Filesystem} {a : SyncModule} (amb : Ambient)
    (h : a.PathsExist fs) : a.copy fs amb = .ok a :=
  copy_eq_ok_iff.mpr (.inl ⟨h, rfl⟩)

/-- Of a module whose paths are not there no copy can be relied on: a blank
one has in its two ints whatever was there. -/
theorem copy_eq_self_iff {fs : Filesystem} {a : SyncModule} :
    (∀ amb, a.copy fs amb = .ok a) ↔ a.PathsExist fs := by
  refine ⟨?_, ?_⟩
  · intro h
    rcases copy_eq_ok_iff.mp (h ⟨0, 0, 0⟩) with ⟨hexist, -⟩ | ⟨-, hzero⟩
    · exact hexist
    · rcases copy_eq_ok_iff.mp (h ⟨0, 0, 1⟩) with ⟨hexist, -⟩ | ⟨-, hone⟩
      · exact hexist
      · have hdirty := congrArg (fun m => m.info.dirty) (hzero.trans hone.symm)
        exact absurd hdirty (by decide)
  · intro h amb
    exact copy_of_pathsExist amb h

/-! ### Comparisons -/

/-- Nothing in the five fields. -/
def isBlank (grammar : PathGrammar) (a : SyncModule) : Bool :=
  a.name = "" && grammar.eq a.source "" && grammar.eq a.destination "" && a.type = "" &&
    a.direction = ""

/-- What a comparison with a copy of `b` gives. -/
theorem eq_eq_ok_iff {fs : Filesystem} {amb : Ambient} {grammar : PathGrammar} {a b : SyncModule}
    {r : Bool} :
    eq fs amb grammar a b = .ok r ↔ b.PathsExist fs ∧ r = sameFields grammar a b ∨
      Rejects fs b.source b.destination ∧ r = isBlank grammar a := by
  simp only [eq, bind_eq_ok_iff, copy_eq_ok_iff]
  refine ⟨?_, ?_⟩
  · rintro ⟨c, ⟨hexist, rfl⟩ | ⟨hreject, rfl⟩, hr⟩
    · exact .inl ⟨hexist, (Except.ok.inj hr).symm⟩
    · exact .inr ⟨hreject, (Except.ok.inj hr).symm⟩
  · rintro (⟨hexist, rfl⟩ | ⟨hreject, rfl⟩)
    · exact ⟨b, .inl ⟨hexist, rfl⟩, rfl⟩
    · exact ⟨blank amb, .inr ⟨hreject, rfl⟩, rfl⟩

/-- On the modules of `S`, a copy is like its original, and `operator==`
compares the five fields, so it is reflexive, symmetric and transitive. -/
structure CopiesAndCompares (fs : Filesystem) (grammar : PathGrammar) (S : Set SyncModule) :
    Prop where
  copy : ∀ a ∈ S, ∀ amb, a.copy fs amb = .ok a
  eq : ∀ a ∈ S, ∀ b ∈ S, ∀ amb, eq fs amb grammar a b = .ok (sameFields grammar a b)
  refl : ∀ a ∈ S, ∀ amb, SyncModule.eq fs amb grammar a a = .ok true
  symm : ∀ a ∈ S, ∀ b ∈ S, ∀ amb, SyncModule.eq fs amb grammar a b = .ok true →
    SyncModule.eq fs amb grammar b a = .ok true
  trans : ∀ a ∈ S, ∀ b ∈ S, ∀ c ∈ S, ∀ amb, SyncModule.eq fs amb grammar a b = .ok true →
    SyncModule.eq fs amb grammar b c = .ok true → SyncModule.eq fs amb grammar a c = .ok true

theorem copiesAndCompares_of_pathsExist {fs : Filesystem} {S : Set SyncModule}
    (grammar : PathGrammar) (h : ∀ a ∈ S, a.PathsExist fs) : CopiesAndCompares fs grammar S := by
  have hsame := sameFields_equivalence grammar
  have heq : ∀ a, ∀ b ∈ S, ∀ amb, eq fs amb grammar a b = .ok (sameFields grammar a b) := by
    intro a b hb amb
    exact eq_eq_ok_iff.mpr (.inl ⟨h b hb, rfl⟩)
  -- what is compared is an equivalence
  refine ⟨?_, ?_, ?_, ?_, ?_⟩
  · intro a ha amb
    exact copy_of_pathsExist amb (h a ha)
  · intro a _ b hb amb
    exact heq a b hb amb
  · intro a ha amb
    rw [heq a a ha amb, hsame.refl a]
  · intro a ha b hb amb hab
    rw [heq a b hb amb] at hab
    rw [heq b a ha amb, hsame.symm (Except.ok.inj hab)]
  · intro a _ b hb c hc amb hab hbc
    rw [heq a b hb amb] at hab
    rw [heq b c hc amb] at hbc
    rw [heq a c hc amb, hsame.trans (Except.ok.inj hab) (Except.ok.inj hbc)]

/-- Copying and comparing the modules of a set is what it looks like iff the
paths of every one of them exist.  Comparing one pair is right also where the
paths of the second are rejected and the five fields of the first are blank
just when they equal the second's. -/
theorem copiesAndCompares_iff (fs : Filesystem) (grammar : PathGrammar) :
    (∀ S, CopiesAndCompares fs grammar S ↔ ∀ a ∈ S, a.PathsExist fs) ∧
      ∀ a b, (∀ amb, eq fs amb grammar a b = .ok (sameFields grammar a b)) ↔
        b.PathsExist fs ∨
          Rejects fs b.source b.destination ∧ sameFields grammar a b = isBlank grammar a := by
  refine ⟨?_, ?_⟩
  · intro S
    refine ⟨?_, copiesAndCompares_of_pathsExist grammar⟩
    intro h a ha
    exact copy_eq_self_iff.mp (h.copy a ha)
  · intro a b
    simp only [eq_eq_ok_iff, and_true]
    exact ⟨fun h => h ⟨0, 0, 0⟩, fun h _ => h⟩

/-- A module of another machine. -/
def elsewhere : SyncModule :=
  ⟨"a", "/s", "/d", "Local", "Backup", ⟨"a", 0, "", 0⟩⟩

theorem copiesAndCompares_here :
    eq (fun _ => .present) ⟨0, 0, 0⟩ PathGrammar.posix elsewhere elsewhere = .ok true :=
  (((copiesAndCompares_iff (fun _ => .present) PathGrammar.posix).1 {elsewhere}).mpr
    fun _ _ => ⟨rfl, rfl⟩).refl elsewhere rfl ⟨0, 0, 0⟩

/-- Where its paths are not, a module does not equal itself. -/
theorem not_copiesAndCompares_elsewhere :
    ¬ ∀ (fs : Filesystem) (grammar : PathGrammar), CopiesAndCompares fs grammar Set.univ := by
  intro h
  have hrefl := (h (fun _ => .absent) PathGrammar.posix).refl elsewhere trivial ⟨0, 0, 0⟩
  revert hrefl
  decide +kernel

end SyncModule

end SyncServiceUi
