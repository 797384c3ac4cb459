/-
SyncServiceUi/FolderUrl.lean

From the folder the user picks to the path that is stored
(`src/QObjects/AddSyncModule.h`).

The folder dialog hands over the text of a `file:` URL.  The two slots cut off
its first eight characters and turn the slashes round, which undoes the URL of
a path with a drive letter as long as no character of the path is
percent-encoded.  A UNC path has its server between the slashes, so the cut
takes the first letter of the server's name away as well
(`acceptedFolder_iff`).

Of `QDir::toNativeSeparators` what is assumed is what Qt documents of it on
Windows (`TurnsSlashes`).
-/
import Mathlib.Data.List.Basic
import SyncServiceUi.Dialog

/-! ### Percent-encoding -/

namespace PercentEncoding

/-- A byte as a percent sign and two hexadecimal digits. -/
def escapeByte (b : UInt8) : List Char :=
  ['%', (Nat.digitChar (b.toNat / 16)).toUpper, (Nat.digitChar (b.toNat % 16)).toUpper]

/-- The bytes of a character, escaped one by one. -/
def escape (c : Char) : List Char :=
  (String.utf8EncodeChar c).flatMap escapeByte

/-- A text in which some characters are escaped. -/
def encode (escaped : Char → Bool) (cs : List Char) : List Char :=
  cs.flatMap fun c => if escaped c then escape c else [c]

/-- An escape starts with a percent sign and has more to it. -/
theorem escape_eq (c : Char) : ∃ d ds, escape c = '%' :: d :: ds := by
  obtain ⟨b, bs, hbytes⟩ := List.exists_cons_of_ne_nil (@String.utf8EncodeChar_ne_nil c)
  rw [escape, hbytes, List.flatMap_cons]
  exact ⟨_, _, rfl⟩

variable {escaped : Char → Bool}

@[simp] theorem encode_nil : encode escaped [] = [] := rfl

theorem encode_cons (c : Char) (cs : List Char) :
    encode escaped (c :: cs) = (if escaped c then escape c else [c]) ++ encode escaped cs :=
  List.flatMap_cons

/-- The encoding of a character begins with a percent sign or with the
character. -/
theorem exists_encode_cons (escaped : Char → Bool) (c : Char) (cs : List Char) :
    ∃ d ds, encode escaped (c :: cs) = d :: ds ∧ (d = '%' ∨ d = c) := by
  obtain ⟨d, ds, hescape⟩ := escape_eq c
  rw [encode_cons]
  split
  · rw [hescape]
    exact ⟨_, _, rfl, .inl rfl⟩
  · exact ⟨_, _, rfl, .inr rfl⟩

theorem length_le_length_encode (cs : List Char) : cs.length ≤ (encode escaped cs).length := by
  induction cs with
  | nil => exact le_rfl
  | cons c cs ih =>
      obtain ⟨d, ds, hescape⟩ := escape_eq c
      rw [encode_cons, List.length_append, List.length_cons]
      split
      · rw [hescape, List.length_cons]
        omega
      · rw [List.length_singleton]
        omega

/-- A text is its own encoding only when nothing in it is escaped: an escape
makes the text longer, and nothing makes it shorter. -/
theorem length_encode_eq_iff {cs : List Char} :
    (encode escaped cs).length = cs.length ↔ ∀ c ∈ cs, escaped c = false := by
  induction cs with
  | nil => simp
  | cons c cs ih =>
      have hrest := @length_le_length_encode escaped cs
      obtain ⟨d, ds, hescape⟩ := escape_eq c
      rw [encode_cons, List.forall_mem_cons, ← ih, List.length_append, List.length_cons]
      by_cases hc : escaped c = true
      · rw [if_pos hc, hescape]
        simp only [hc, List.length_cons, Bool.true_eq_false, false_and, iff_false]
        omega
      · rw [if_neg hc, List.length_singleton]
        simp only [hc, true_and]
        omega

theorem encode_eq_self {cs : List Char} (h : ∀ c ∈ cs, escaped c = false) :
    encode escaped cs = cs := by
  induction cs with
  | nil => rfl
  | cons c cs ih =>
      rw [List.forall_mem_cons] at h
      rw [encode_cons, h.1, ih h.2]
      rfl

end PercentEncoding

namespace SyncServiceUi

open PercentEncoding

/-! ### Folder paths -/

/-- The characters a Windows folder name may hold. -/
def legalInFolderNames (c : Char) : Bool :=
  0x20 ≤ c.toNat && c ∉ ['<', '>', ':', '"', '/', '\\', '|', '?', '*']

/-- A name of a folder, a share or a server. -/
structure FolderName where
  chars : List Char
  nonempty : chars ≠ []
  legal : chars.all legalInFolderNames = true

theorem FolderName.not_separator (name : FolderName) {c : Char} (hc : c ∈ name.chars) :
    c ≠ '/' ∧ c ≠ '\\' := by
  have hlegal := List.all_eq_true.mp name.legal c hc
  refine ⟨?_, ?_⟩
  · rintro rfl
    exact absurd hlegal (by decide)
  · rintro rfl
    exact absurd hlegal (by decide)

/-- An absolute Windows path of a folder. -/
inductive FolderPath where
  | drive (letter : Char) (isLetter : letter.isAlpha = true) (names : List FolderName)
  | unc (server share : FolderName) (names : List FolderName)

namespace FolderPath

/-- The names one below the other, a slash before each of them. -/
def below (names : List FolderName) : List Char :=
  names.flatMap fun name => '/' :: name.chars

/-- The path with slashes. -/
def text : FolderPath → List Char
  | drive letter _ names => letter :: ':' :: if names = [] then ['/'] else below names
  | unc server share names => '/' :: '/' :: server.chars ++ below (share :: names)

/-- The path begins with a drive letter. -/
def IsDrive : FolderPath → Prop
  | drive _ _ _ => True
  | unc _ _ _ => False

end FolderPath

/-- What Qt documents of `QDir::toNativeSeparators` on Windows. -/
def TurnsSlashes (toNativeSeparators : String → String) : Prop :=
  ∀ path, toNativeSeparators path = path.map fun c => if c = '/' then '\\' else c

/-- The path with native separators. -/
def FolderPath.native (toNativeSeparators : String → String) (p : FolderPath) : String :=
  toNativeSeparators (String.ofList p.text)

/-! ### Their URLs -/

/-- What `QUrl` does with a local file: the characters of the path that
`toString` keeps percent-encoded, and how it shows the name of a server. -/
structure FileUrls where
  escaped : Char → Bool
  host : FolderName → List Char
  escaped_percent : escaped '%' = true
  escaped_hash : escaped '#' = true
  escaped_slash : escaped '/' = false
  host_ne_nil : ∀ server, host server ≠ []
  host_noSeparator : ∀ server, ∀ c ∈ host server, c ≠ '/' ∧ c ≠ '\\'

namespace FileUrls

/-- `QUrl::fromLocalFile(path).toString()`. -/
def toString (urls : FileUrls) : FolderPath → String
  | .drive letter isLetter names =>
      "file:///" ++
        String.ofList (encode urls.escaped (FolderPath.drive letter isLetter names).text)
  | .unc server share names =>
      "file://" ++
        String.ofList (urls.host server ++
          encode urls.escaped (FolderPath.below (share :: names)))

/-- No character of the path is kept percent-encoded. -/
def ShowsAsIs (urls : FileUrls) (p : FolderPath) : Prop :=
  ∀ c ∈ p.text, urls.escaped c = false

/-- Percent signs, hashes and control characters are escaped, and a server
is shown under its own name. -/
def printable : FileUrls where
  escaped c := c ∈ ['%', '#'] || c.toNat < 0x20 || c.toNat = 0x7F
  host server := server.chars
  escaped_percent := by decide
  escaped_hash := by decide
  escaped_slash := by decide
  host_ne_nil server := server.nonempty
  host_noSeparator server c hc := FolderName.not_separator server hc

end FileUrls

/-! ### What the cut leaves -/

section Cut

variable (toNativeSeparators : String → String)

/-- What is stored for the URL of a path. -/
def storedPath (urls : FileUrls) (p : FolderPath) : String :=
  nativePath toNativeSeparators (urls.toString p)

theorem storedPath_drive {urls : FileUrls} {letter : Char} {isLetter : letter.isAlpha = true}
    {names : List FolderName} :
    storedPath toNativeSeparators urls (.drive letter isLetter names) =
      toNativeSeparators (String.ofList
        (encode urls.escaped (FolderPath.drive letter isLetter names).text)) := by
  rw [storedPath, nativePath, FileUrls.toString, String.toList_append, String.toList_ofList,
    String.toList_ofList]
  rfl

/-- Of the server the cut leaves all but the first letter. -/
theorem storedPath_unc {urls : FileUrls} {server share : FolderName} {names : List FolderName} :
    storedPath toNativeSeparators urls (.unc server share names) =
      toNativeSeparators (String.ofList
        ((urls.host server).tail ++
          encode urls.escaped (FolderPath.below (share :: names)))) := by
  obtain ⟨c, cs, hhost⟩ := List.exists_cons_of_ne_nil (urls.host_ne_nil server)
  rw [storedPath, nativePath, FileUrls.toString, String.toList_append, String.toList_ofList,
    String.toList_ofList, hhost]
  rfl

variable {toNativeSeparators}

theorem TurnsSlashes.length (hturns : TurnsSlashes toNativeSeparators) (path : String) :
    (toNativeSeparators path).length = path.length := by
  rw [hturns, String.length_map]

theorem TurnsSlashes.toList (hturns : TurnsSlashes toNativeSeparators) (cs : List Char) :
    (toNativeSeparators (String.ofList cs)).toList =
      cs.map fun c => if c = '/' then '\\' else c := by
  rw [hturns, String.toList_map, String.toList_ofList]

theorem storedPath_drive_iff (hturns : TurnsSlashes toNativeSeparators) {urls : FileUrls} {letter : Char} {isLetter : letter.isAlpha = true}
    {names : List FolderName} :
    storedPath toNativeSeparators urls (.drive letter isLetter names) =
        (FolderPath.drive letter isLetter names).native toNativeSeparators ↔
      urls.ShowsAsIs (.drive letter isLetter names) := by
  rw [storedPath_drive, FolderPath.native]
  refine ⟨?_, ?_⟩
  · intro h
    have hlength := congrArg String.length h
    simp only [hturns.length, String.length_ofList] at hlength
    exact length_encode_eq_iff.mp hlength
  · intro h
    rw [encode_eq_self h]

/-- The path of a UNC folder begins with two separators, what is stored for it
with one at most. -/
theorem storedPath_unc_ne (hturns : TurnsSlashes toNativeSeparators) {urls : FileUrls} {server share : FolderName}
    {names : List FolderName} :
    storedPath toNativeSeparators urls (.unc server share names) ≠
      (FolderPath.unc server share names).native toNativeSeparators := by
  obtain ⟨c, cs, hshare⟩ := List.exists_cons_of_ne_nil share.nonempty
  have hc := share.not_separator (hshare ▸ List.mem_cons_self)
  have hbelow : FolderPath.below (share :: names) =
      '/' :: c :: (cs ++ FolderPath.below names) := by
    rw [FolderPath.below, List.flatMap_cons, hshare]
    rfl
  obtain ⟨d, ds, hencode, hd⟩ :=
    exists_encode_cons urls.escaped c (cs ++ FolderPath.below names)
  have hd' : d ≠ '/' ∧ d ≠ '\\' := by
    rcases hd with rfl | rfl
    · decide
    · exact hc
  intro h
  have hchars := congrArg String.toList h
  rw [storedPath_unc, FolderPath.native, hturns.toList, hturns.toList,
    FolderPath.text, hbelow, encode_cons, urls.escaped_slash, hencode] at hchars
  rcases hhost : (urls.host server).tail with - | ⟨e, es⟩
  · -- a server of one letter: what is left begins at the separator before the share
    rw [hhost] at hchars
    simp only [List.nil_append, List.cons_append, List.map_cons, Bool.false_eq_true, if_false,
      if_true, if_neg hd'.1, List.cons.injEq, true_and] at hchars
    exact hd'.2 hchars.1
  · have he := urls.host_noSeparator server e
      (List.mem_of_mem_tail (hhost ▸ List.mem_cons_self))
    rw [hhost] at hchars
    simp only [List.cons_append, List.map_cons, if_true, if_neg he.1, List.cons.injEq] at hchars
    exact he.2 hchars.1

theorem storedPath_iff (hturns : TurnsSlashes toNativeSeparators) {urls : FileUrls}
    {p : FolderPath} :
    storedPath toNativeSeparators urls p = p.native toNativeSeparators ↔ p.IsDrive ∧ urls.ShowsAsIs p := by
  rcases p with ⟨letter, isLetter, names⟩ | ⟨server, share, names⟩
  · rw [storedPath_drive_iff hturns]
    exact ⟨fun h => ⟨trivial, h⟩, fun h => h.2⟩
  · exact ⟨fun h => absurd h (storedPath_unc_ne hturns), fun h => absurd h.1 id⟩

end Cut

/-! ### The two slots -/

/-- The path the source area shows and the member for the source are this one. -/
def Dialog.SourceIs (d : Dialog) (path : String) : Prop :=
  d.source_input = path ∧ d.self.source = path

/-- The path the destination area shows and the member for the destination are
this one. -/
def Dialog.DestinationIs (d : Dialog) (path : String) : Prop :=
  d.destination_input = path ∧ d.self.destination = path

instance (d : Dialog) (path : String) : Decidable (d.SourceIs path) :=
  inferInstanceAs (Decidable (_ ∧ _))

instance (d : Dialog) (path : String) : Decidable (d.DestinationIs path) :=
  inferInstanceAs (Decidable (_ ∧ _))

/-- The path of a folder that was picked is the one stored iff it has a drive
letter and its URL escapes nothing in it. -/
theorem acceptedFolder_iff {toNativeSeparators : String → String}
    (hturns : TurnsSlashes toNativeSeparators) (urls : FileUrls) (d : Dialog) (p : FolderPath) :
    ((d.onSourceFolderAccepted toNativeSeparators (urls.toString p)).SourceIs
          (p.native toNativeSeparators) ↔
        p.IsDrive ∧ urls.ShowsAsIs p) ∧
      ((d.onDestinationFolderAccepted toNativeSeparators (urls.toString p)).DestinationIs
          (p.native toNativeSeparators) ↔
        p.IsDrive ∧ urls.ShowsAsIs p) := by
  rw [← storedPath_iff hturns]
  -- the area and the member are both set to what is stored
  exact ⟨and_self_iff, and_self_iff⟩

/-- The function as it is documented. -/
def windowsSeparators (path : String) : String :=
  path.map fun c => if c = '/' then '\\' else c

/-- `C:/a b/c`. -/
theorem acceptedFolder_iff_space :
    let names : List FolderName :=
      [⟨"a b".toList, by decide, by decide⟩, ⟨"c".toList, by decide, by decide⟩]
    let p := FolderPath.drive 'C' (by decide) names
    (Dialog.start.onSourceFolderAccepted windowsSeparators
        (FileUrls.printable.toString p)).SourceIs (p.native windowsSeparators) ∧
      (Dialog.start.onDestinationFolderAccepted windowsSeparators
        (FileUrls.printable.toString p)).DestinationIs (p.native windowsSeparators) := by
  intro names p
  have hshown : p.IsDrive ∧ FileUrls.printable.ShowsAsIs p := by
    refine ⟨trivial, ?_⟩
    have hall : p.text.all (fun c => !FileUrls.printable.escaped c) = true := by decide +kernel
    intro c hc
    simpa using List.all_eq_true.mp hall c hc
  obtain ⟨hsource, hdestination⟩ :=
    acceptedFolder_iff (fun _ => rfl) FileUrls.printable Dialog.start p
  exact ⟨hsource.mpr hshown, hdestination.mpr hshown⟩

/-- `//server/share`, and on a drive `C:/100%` and `C:/#1`. -/
theorem not_acceptedFolder :
    let server : FolderName := ⟨"server".toList, by decide, by decide⟩
    let share : FolderName := ⟨"share".toList, by decide, by decide⟩
    let percent : FolderName := ⟨"100%".toList, by decide, by decide⟩
    let hash : FolderName := ⟨"#1".toList, by decide, by decide⟩
    ∀ p ∈ [FolderPath.unc server share [], .drive 'C' (by decide) [percent],
        .drive 'C' (by decide) [hash]],
      ¬ (Dialog.start.onSourceFolderAccepted windowsSeparators
          (FileUrls.printable.toString p)).SourceIs (p.native windowsSeparators) ∧
      ¬ (Dialog.start.onDestinationFolderAccepted windowsSeparators
          (FileUrls.printable.toString p)).DestinationIs (p.native windowsSeparators) := by
  decide +kernel

end SyncServiceUi
