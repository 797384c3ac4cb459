/-
SyncServiceUi/ModuleJson.lean

Encoding a module and decoding it again (`src/sync_module.cpp`,
`src/sync_info.cpp`).

The encoders and the decoders are written apart, key by key on two levels.
`ofJson_eq_ok_iff` says of either decoder what members the value it accepts
must have; what the encoder writes has them, so decoding undoes encoding
(`decode_encode`).

The other way round it is a matter of the two numbers.  `get<int>` takes every
kind of number and the booleans and makes an int of each: the strings come
back as they were, and a number does iff it is an int already
(`encode_decode`).
-/
import Mathlib.Algebra.Order.Ring.Rat
import SyncServiceUi.SyncModule

namespace SyncServiceUi

open Completion

/-! ### What the decoders read -/

theorem Json.intAt_eq_ok_iff {j : Json} {key : String} {n : Int32} :
    j.intAt key = .ok n ↔ ∃ v, j.member key = some v ∧ v.get_int = .ok n := by
  simp only [intAt, bind_eq_ok_iff, constSubscript_eq_ok_iff]

theorem SyncInfo.ofJson_eq_ok_iff {j : Json} {i : SyncInfo} :
    ofJson j = .ok i ↔ j.member "name" = some (.string i.name) ∧
      (∃ v, j.member "last_sync_date_unix" = some v ∧ v.get_int = .ok i.last_sync_date_unix) ∧
      j.member "frequency" = some (.string i.frequency) ∧
      ∃ v, j.member "dirty" = some v ∧ v.get_int = .ok i.dirty := by
  simp only [ofJson, bind_eq_ok_iff, Json.stringAt_eq_ok_iff, Json.intAt_eq_ok_iff]
  refine ⟨?_, ?_⟩
  · rintro ⟨name, hname, date, hdate, frequency, hfrequency, dirty, hdirty, hi⟩
    obtain rfl := Except.ok.inj hi
    exact ⟨hname, hdate, hfrequency, hdirty⟩
  · rintro ⟨hname, hdate, hfrequency, hdirty⟩
    exact ⟨_, hname, _, hdate, _, hfrequency, _, hdirty, rfl⟩

theorem SyncModule.ofJson_eq_ok_iff {j : Json} {m : SyncModule} :
    ofJson j = .ok m ↔ j.member "name" = some (.string m.name) ∧
      j.member "source" = some (.string m.source) ∧
      j.member "destination" = some (.string m.destination) ∧
      j.member "type" = some (.string m.type) ∧
      j.member "direction" = some (.string m.direction) ∧
      ∃ info, j.member "info" = some info ∧ SyncInfo.ofJson info = .ok m.info := by
  simp only [ofJson, bind_eq_ok_iff, Json.stringAt_eq_ok_iff, Json.constSubscript_eq_ok_iff]
  refine ⟨?_, ?_⟩
  · rintro ⟨name, hname, source, hsource, destination, hdestination, type, htype, direction,
      hdirection, info, hinfo, i, hi, hm⟩
    obtain rfl := Except.ok.inj hm
    exact ⟨hname, hsource, hdestination, htype, hdirection, info, hinfo, hi⟩
  · rintro ⟨hname, hsource, hdestination, htype, hdirection, info, hinfo, hi⟩
    exact ⟨_, hname, _, hsource, _, hdestination, _, htype, _, hdirection, info, hinfo, _, hi, rfl⟩

/-! ### Decoding what was encoded -/

theorem SyncInfo.ofJson_to_json (i : SyncInfo) : ofJson i.to_json = .ok i := by
  rw [ofJson_eq_ok_iff]
  simp [to_json, Json.get_int]

theorem SyncModule.ofJson_to_json (m : SyncModule) : ofJson m.to_json = .ok m := by
  rw [ofJson_eq_ok_iff]
  simp [to_json, SyncInfo.ofJson_to_json]

/-- The text of a module on the wire. -/
def SyncModule.encode (lib : Nlohmann) (m : SyncModule) : Bytes :=
  utf8 (m.to_json.dump lib)

/-- `SyncModule(json::parse(text))`. -/
def SyncModule.decode (lib : Nlohmann) (text : Bytes) : Except Exn SyncModule :=
  match lib.parse text with
  | none => .error .parse_error
  | some j => ofJson j

/-- Decoding the text of a module gives the module back, with all it holds,
and encoding that gives the text again; so no other module has this text.
The parser is taken to undo `dump` on what is decoded. -/
theorem SyncModule.decode_encode (lib : Nlohmann) (m : SyncModule)
    (hparse : lib.parse (m.encode lib) = some m.to_json) :
    decode lib (m.encode lib) = .ok m ∧
      (∀ m', decode lib (m.encode lib) = .ok m' → m'.to_json = m.to_json) ∧
      ∀ m', lib.parse (m'.encode lib) = some m'.to_json → m'.encode lib = m.encode lib →
        m' = m := by
  have hdecode : ∀ m : SyncModule, lib.parse (m.encode lib) = some m.to_json →
      decode lib (m.encode lib) = .ok m := by
    intro m hm
    rw [decode, hm]
    exact m.ofJson_to_json
  refine ⟨hdecode m hparse, ?_, ?_⟩
  · intro m' hm'
    obtain rfl := Except.ok.inj ((hdecode m hparse).symm.trans hm')
    rfl
  · intro m' hparse' htext
    have hm' := hdecode m' hparse'
    rw [htext, hdecode m hparse] at hm'
    exact (Except.ok.inj hm').symm

/-- A module for trying things out. -/
def sampleModule : SyncModule :=
  ⟨"a \"b\"", "/s", "/d", "Local", "Backup", ⟨"a", -1, "", 1⟩⟩

/-- Its text. -/
def sampleText : Bytes :=
  utf8 ("\x7b\"destination\":\"/d\",\"direction\":\"Backup\",\"info\":" ++
    "\x7b\"dirty\":1,\"frequency\":\"\",\"last_sync_date_unix\":-1,\"name\":\"a\"\x7d," ++
    "\"name\":\"a \\\"b\\\"\",\"source\":\"/s\",\"type\":\"Local\"\x7d")

/-- The parser on that text; everything else it rejects. -/
def knowsSample : Nlohmann where
  parse b := if b = sampleText then some sampleModule.to_json else none
  dump_float _ := ""

theorem SyncModule.decode_encode_sample :
    decode knowsSample (sampleModule.encode knowsSample) = .ok sampleModule := by
  have htext : sampleModule.encode knowsSample = sampleText := by
    apply congrArg utf8
    decide +kernel
  refine (decode_encode knowsSample sampleModule ?_).1
  rw [htext]
  simp only [knowsSample, if_true]

/-! ### Encoding what was decoded -/

/-- The value of a number, exactly. -/
def Json.numeric : Json → Option ℚ
  | number_integer n => some n
  | number_float d => some d.value
  | _ => none

/-- Two numbers of one value, of whatever kind. -/
def Json.SameNumber (v w : Json) : Prop :=
  ∃ x, v.numeric = some x ∧ w.numeric = some x

/-- The number is an int already. -/
def Json.FitsInt (v : Json) : Prop :=
  ∃ n : ℤ, v.numeric = some (n : ℚ) ∧ -2 ^ 31 ≤ n ∧ n < 2 ^ 31

/-- What `get<int>` makes of a value.  A fraction too large for an int is
left open, as the language leaves it open. -/
def Json.Becomes (n : ℤ) : Json → Prop
  | boolean b => n = if b then 1 else 0
  | number_integer k => n = k.bmod (2 ^ 32)
  | number_float d =>
      -2 ^ 31 ≤ d.value.num.tdiv d.value.den → d.value.num.tdiv d.value.den < 2 ^ 31 →
        n = d.value.num.tdiv d.value.den
  | _ => False

theorem Json.becomes_of_get_int {v : Json} {n : Int32} (h : v.get_int = .ok n) :
    v.Becomes n.toInt := by
  cases v with
  | boolean b =>
      obtain rfl := Except.ok.inj h
      cases b <;> rfl
  | number_integer k =>
      obtain rfl := Except.ok.inj h
      exact Int32.toInt_ofInt
  | number_float d =>
      obtain rfl := Except.ok.inj h
      intro hlow hhigh
      rw [intOfDouble, if_pos ⟨hlow, hhigh⟩, Int32.toInt_ofInt_of_le hlow hhigh]
  | _ => cases h

/-- The int has the value of the number iff that is an int. -/
theorem Json.sameNumber_iff {v : Json} {n : Int32} (h : v.get_int = .ok n) :
    v.SameNumber (.number_integer n.toInt) ↔ v.FitsInt := by
  refine ⟨?_, ?_⟩
  · rintro ⟨x, hv, hx⟩
    obtain rfl : (n.toInt : ℚ) = x := Option.some.inj hx
    exact ⟨n.toInt, hv, Int32.le_toInt n, Int32.toInt_lt n⟩
  · rintro ⟨k, hv, hlow, hhigh⟩
    have hbecomes := becomes_of_get_int h
    have hn : n.toInt = k := by
      cases v with
      | number_integer k' =>
          obtain rfl : k' = k := by exact_mod_cast Option.some.inj hv
          have hmod : n.toInt = k'.bmod (2 ^ 32) := hbecomes
          rw [hmod]
          exact Int.bmod_eq_of_le (by omega) (by omega)
      | number_float d =>
          have hvalue : d.value = k := Option.some.inj hv
          have htrunc : (k : ℚ).num.tdiv (k : ℚ).den = k := by simp
          rw [Becomes, hvalue, htrunc] at hbecomes
          exact hbecomes hlow hhigh
      | _ => cases hv
    exact ⟨k, hv, by rw [hn]; rfl⟩

/-- An int of the decoded value, beside what it was read from. -/
theorem SyncInfo.exists_int {j : Json} {key : String} {n : Int32}
    (h : ∃ v, j.member key = some v ∧ v.get_int = .ok n) :
    ∃ v, j.member key = some v ∧ v.Becomes n.toInt ∧
      (v.SameNumber (.number_integer n.toInt) ↔ v.FitsInt) := by
  obtain ⟨v, hv, hn⟩ := h
  exact ⟨v, hv, Json.becomes_of_get_int hn, Json.sameNumber_iff hn⟩

/-- Encoding a decoded module gives the strings of the JSON it was decoded
from.  Either number is what `get<int>` made of it, and has the value it had
iff that is an int. -/
theorem SyncModule.encode_decode {j : Json} {m : SyncModule} (h : ofJson j = .ok m) :
    (∀ key ∈ ["name", "source", "destination", "type", "direction"],
        m.to_json.member key = j.member key) ∧
      ∃ info info', j.member "info" = some info ∧ m.to_json.member "info" = some info' ∧
        (∀ key ∈ ["name", "frequency"], info'.member key = info.member key) ∧
        ∀ key ∈ ["last_sync_date_unix", "dirty"], ∃ v n, info.member key = some v ∧
          info'.member key = some (.number_integer n) ∧ v.Becomes n ∧
            (v.SameNumber (.number_integer n) ↔ v.FitsInt) := by
  obtain ⟨hname, hsource, hdestination, htype, hdirection, info, hinfo, hi⟩ :=
    ofJson_eq_ok_iff.mp h
  obtain ⟨hinfoname, hdate, hfrequency, hdirty⟩ := SyncInfo.ofJson_eq_ok_iff.mp hi
  refine ⟨?_, info, m.info.to_json, hinfo, by simp [to_json], ?_, ?_⟩
  · simp [to_json, hname, hsource, hdestination, htype, hdirection]
  · simp [SyncInfo.to_json, hinfoname, hfrequency]
  · intro key hkey
    rcases List.mem_cons.mp hkey with rfl | hkey
    · obtain ⟨v, hv, hbecomes⟩ := SyncInfo.exists_int hdate
      exact ⟨v, m.info.last_sync_date_unix.toInt, hv, by simp [SyncInfo.to_json], hbecomes⟩
    · obtain rfl := List.mem_singleton.mp hkey
      obtain ⟨v, hv, hbecomes⟩ := SyncInfo.exists_int hdirty
      exact ⟨v, m.info.dirty.toInt, hv, by simp [SyncInfo.to_json], hbecomes⟩

/-- A module last synchronised at this time. -/
def moduleAt (last_sync_date_unix : Json) : Json :=
  .object [("destination", .string "/d"), ("direction", .string "Backup"),
    ("info", .object [("dirty", .number_integer 1), ("frequency", .string ""),
      ("last_sync_date_unix", last_sync_date_unix), ("name", .string "a")]),
    ("name", .string "a"), ("source", .string "/s"), ("type", .string "Local")]

/-- The decoded module of such a time. -/
def sampleAt (last_sync_date_unix : Int32) : SyncModule :=
  ⟨"a", "/s", "/d", "Local", "Backup", ⟨"a", last_sync_date_unix, "", 1⟩⟩

theorem SyncModule.encode_decode_now :
    (sampleAt 1700000000).to_json.member "source" =
      (moduleAt (.number_integer 1700000000)).member "source" :=
  (@encode_decode (moduleAt (.number_integer 1700000000)) (sampleAt 1700000000)
    (by decide +kernel)).1 "source" (by decide)

/-- The first second that is no int comes back as a time in 1901. -/
theorem SyncModule.not_encode_decode_2038 :
    ¬ ∀ (j info v : Json) (m : SyncModule), ofJson j = .ok m → j.member "info" = some info →
      info.member "last_sync_date_unix" = some v →
      v.SameNumber (.number_integer m.info.last_sync_date_unix.toInt) := by
  intro h
  obtain ⟨x, hv, hx⟩ := h (moduleAt (.number_integer 2147483648)) _ (.number_integer 2147483648)
    (sampleAt (-2147483648)) (by decide +kernel) rfl rfl
  have hx' := Option.some.inj (hv.trans hx.symm)
  revert hx'
  decide +kernel

end SyncServiceUi
