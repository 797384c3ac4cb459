/-
SyncServiceUi/EscapedString.lean

`serializer::dump_escaped` (`src/dependencies/json/json.hpp`): a string
through the decoder and a buffer of 512 bytes, as `dump()` calls it, with the
strict error handler and without `ensure_ascii`.

The escapes are decided by the code points the decoder finds, the bytes of a
longer character are copied before it is known to be one, and the buffer is
emptied when less than 13 bytes are left.  `Escaped` is the invariant of the
loop.  With it the outcome is exact (`dump_escaped_spec`): a text is written
as `Json.escapeChar` says, character by character; anything else is an
exception that names the first byte no text could have there, or the last
byte of a text that breaks off; and nothing is ever written behind the end of
the buffer.
-/
import SyncServiceUi.JsonRoundTrip
import SyncServiceUi.Utf8Decoder

namespace SyncServiceUi

namespace Serializer

open Lexer Completion

/-! ### The buffer -/

/-- The output, the buffer with the number of bytes in it, and the state of
the decoder. -/
structure Escaping where
  o : Bytes
  string_buffer : Vector UInt8 512
  bytes : ℕ
  state : UInt8
  codepoint : UInt32

namespace Escaping

/-- `string_buffer[bytes++] = c`. -/
def put (e : Escaping) (c : UInt8) : Except Error Escaping :=
  if h : e.bytes < 512 then
    .ok { e with string_buffer := e.string_buffer.set e.bytes c, bytes := e.bytes + 1 }
  else .error .overflow

def puts (e : Escaping) : Bytes → Except Error Escaping
  | [] => .ok e
  | c :: cs => do
      let e ← e.put c
      e.puts cs

/-- `snprintf` into the buffer, which ends what it writes with a NUL. -/
def snprintf (e : Escaping) (text : Bytes) : Except Error Escaping := do
  let e' ← e.puts (text ++ [0])
  return { e' with bytes := e.bytes + text.length }

/-- Four hexadecimal digits. -/
def hex4 (n : ℕ) : List Char :=
  [Json.hexDigit (n / 4096 % 16), Json.hexDigit (n / 256 % 16), Json.hexDigit (n / 16 % 16),
    Json.hexDigit (n % 16)]

/-- The `switch` on the code point that `byte` completes. -/
def escape (e : Escaping) (byte : UInt8) : Except Error Escaping :=
  if e.codepoint = 0x08 then e.puts (utf8 "\\b")
  else if e.codepoint = 0x09 then e.puts (utf8 "\\t")
  else if e.codepoint = 0x0A then e.puts (utf8 "\\n")
  else if e.codepoint = 0x0C then e.puts (utf8 "\\f")
  else if e.codepoint = 0x0D then e.puts (utf8 "\\r")
  else if e.codepoint = 0x22 then e.puts (utf8 "\\\"")
  else if e.codepoint = 0x5C then e.puts (utf8 "\\\\")
  else if e.codepoint ≤ 0x1F then
    e.snprintf (utf8 "\\u" ++ Utf8.encode (hex4 (e.codepoint.toNat % 2 ^ 16)))
  else e.put byte

/-- Write the buffer when it is nearly full. -/
def flush (e : Escaping) : Escaping :=
  if 512 - e.bytes < 13 then
    { e with o := e.o ++ e.string_buffer.toList.take e.bytes, bytes := 0 }
  else e

end Escaping

/-! ### The loop -/

/-- Two hexadecimal digits, upper case. -/
def hex_bytes (byte : UInt8) : String :=
  String.ofList [(Json.hexDigit (byte.toNat / 16)).toUpper, (Json.hexDigit (byte.toNat % 16)).toUpper]

/-- `type_error::create(316, ..)`. -/
def utf8Error (what : String) : Error :=
  .type_error ("[json.exception.type_error.316] " ++ what)

def invalidByte (i : ℕ) (byte : UInt8) : Error :=
  utf8Error ("invalid UTF-8 byte at index " ++ toString i ++ ": 0x" ++ hex_bytes byte)

def incompleteString (last : UInt8) : Error :=
  utf8Error ("incomplete UTF-8 string; last byte: 0x" ++ hex_bytes last)

/-- The loop over the bytes, from index `i` on. -/
def escape_loop : ℕ → Escaping → Bytes → Except Error Escaping
  | _, e, [] => .ok e
  | i, e, byte :: s => do
      let (state, codepoint) ← decode e.state e.codepoint byte
      let e := { e with state, codepoint }
      if state = UTF8_ACCEPT then do
        let e ← e.escape byte
        escape_loop (i + 1) e.flush s
      else if state = UTF8_REJECT then .error (invalidByte i byte)
      else do
        -- not known to be a character yet, but copied already
        let e ← e.put byte
        escape_loop (i + 1) e s

def dump_escaped (o : Bytes) (string_buffer : Vector UInt8 512) (s : Bytes) :
    Except Error (Bytes × Vector UInt8 512) := do
  let e ← escape_loop 0 ⟨o, string_buffer, 0, UTF8_ACCEPT, 0⟩ s
  if e.state = UTF8_ACCEPT then
    return (if 0 < e.bytes then e.o ++ e.string_buffer.toList.take e.bytes else e.o, e.string_buffer)
  else .error (incompleteString (s.getLast?.getD 0))

/-! ### What is written -/

namespace Escaping

/-- Everything written so far, in the output and in the buffer. -/
def written (e : Escaping) : Bytes :=
  e.o ++ e.string_buffer.toList.take e.bytes

/-- `e'` is `e` with `w` behind it in the buffer. -/
structure Adds (e e' : Escaping) (w : Bytes) : Prop where
  written : e'.written = e.written ++ w
  bytes : e'.bytes = e.bytes + w.length
  state : e'.state = e.state
  codepoint : e'.codepoint = e.codepoint

theorem put_spec (e : Escaping) (c : UInt8) (h : e.bytes < 512) :
    ∃ e', e.put c = .ok e' ∧ e.Adds e' [c] := by
  refine ⟨_, dif_pos h, ?_, rfl, rfl, rfl⟩
  have htake : (e.string_buffer.set e.bytes c).toList.take (e.bytes + 1) =
      e.string_buffer.toList.take e.bytes ++ [c] := by
    rw [Vector.toList_set, List.take_add_one, List.take_set_of_le (le_refl _)]
    simp [h]
  simp only [written, htake, List.append_assoc]

theorem Adds.refl (e : Escaping) : e.Adds e [] :=
  ⟨(List.append_nil _).symm, rfl, rfl, rfl⟩

theorem Adds.trans {e e' e'' : Escaping} {w w' : Bytes} (h : e.Adds e' w) (h' : e'.Adds e'' w') :
    e.Adds e'' (w ++ w') where
  written := by rw [h'.written, h.written, List.append_assoc]
  bytes := by rw [h'.bytes, h.bytes, List.length_append, Nat.add_assoc]
  state := h'.state.trans h.state
  codepoint := h'.codepoint.trans h.codepoint

theorem puts_spec (e : Escaping) (w : Bytes) (h : e.bytes + w.length ≤ 512) :
    ∃ e', e.puts w = .ok e' ∧ e.Adds e' w := by
  induction w generalizing e with
  | nil => exact ⟨e, rfl, Adds.refl e⟩
  | cons c w ih =>
      rw [List.length_cons] at h
      obtain ⟨e₁, hput, hadds⟩ := e.put_spec c (by omega)
      obtain ⟨e₂, hputs, hadds'⟩ := ih e₁ (by rw [hadds.bytes, List.length_singleton]; omega)
      refine ⟨e₂, ?_, hadds.trans hadds'⟩
      rw [puts, hput]
      exact hputs

theorem puts_append_singleton (e : Escaping) (w : Bytes) (c : UInt8) :
    e.puts (w ++ [c]) = e.puts w >>= fun e => e.put c := by
  induction w generalizing e with
  | nil =>
      show (e.put c >>= fun e => .ok e) = e.put c
      cases e.put c <;> rfl
  | cons x w ih =>
      rw [List.cons_append, puts, puts]
      cases e.put x with
      | error stop => rfl
      | ok e₁ => exact ih e₁

/-- The NUL behind the text is written, but not counted. -/
theorem snprintf_spec (e : Escaping) (text : Bytes) (h : e.bytes + text.length < 512) :
    ∃ e', e.snprintf text = .ok e' ∧ e.Adds e' text := by
  obtain ⟨e₁, hputs, hadds⟩ := e.puts_spec text h.le
  have hroom : e₁.bytes < 512 := by
    rw [hadds.bytes]
    exact h
  have hput : e₁.put 0 = .ok
      { e₁ with string_buffer := e₁.string_buffer.set e₁.bytes 0 hroom, bytes := e₁.bytes + 1 } :=
    dif_pos hroom
  refine ⟨{ e₁ with string_buffer := e₁.string_buffer.set e₁.bytes 0 hroom }, ?_, ?_, hadds.bytes,
    hadds.state, hadds.codepoint⟩
  · have hbytes : e.bytes + text.length = e₁.bytes := hadds.bytes.symm
    rw [snprintf, hbytes, puts_append_singleton, hputs, ok_bind, hput, ok_bind]
    rfl
  · rw [← hadds.written]
    simp only [written, Vector.toList_set, List.take_set_of_le (le_refl _)]

/-! ### One character -/

theorem escape_spec {e : Escaping} {c : Char} {pend : Bytes} {byte : UInt8}
    (hc : String.utf8EncodeChar c = pend ++ [byte]) (hcodepoint : e.codepoint.toNat = c.toNat)
    (hroom : e.bytes + 7 ≤ 512) :
    ∃ e' w, e.escape byte = .ok e' ∧ e.Adds e' w ∧ w.length ≤ 6 ∧
      pend ++ w = Utf8.encode (Json.escapeChar c) := by
  have hpend : c.toNat < 0x80 → pend = [] := by
    intro hascii
    rw [Utf8.encodeChar_ascii hascii] at hc
    exact (List.singleton_eq_append_iff.mp hc).elim And.left fun h => by cases h.2
  -- the characters with a letter of their own
  have hspecial : ∀ {k : UInt32} {c' : Char} {text : String}, e.codepoint = k →
      k.toNat = c'.toNat → c'.toNat < 0x80 → (utf8 text).length ≤ 6 →
      utf8 text = Utf8.encode (Json.escapeChar c') → ∃ e' w, e.puts (utf8 text) = .ok e' ∧
        e.Adds e' w ∧ w.length ≤ 6 ∧ pend ++ w = Utf8.encode (Json.escapeChar c) := by
    intro k c' text hk hkc' hascii hlength htext
    obtain rfl : c = c' := by
      rw [← Char.toNat_inj, ← hcodepoint, hk, hkc']
    obtain ⟨e', hputs, hadds⟩ := e.puts_spec (utf8 text) (by omega)
    exact ⟨e', _, hputs, hadds, hlength, by rw [hpend hascii, List.nil_append, htext]⟩
  have hne : ∀ {k : UInt32} {c' : Char}, e.codepoint ≠ k → k.toNat = c'.toNat → c ≠ c' := by
    rintro k c' hk hkc' rfl
    exact hk (UInt32.toNat_inj.mp (hcodepoint.trans hkc'.symm))
  unfold escape
  split_ifs with h₁ h₂ h₃ h₄ h₅ h₆ h₇ h₈
  · exact @hspecial _ '\x08' _ h₁ rfl (by decide) (by decide) (by decide)
  · exact @hspecial _ '\t' _ h₂ rfl (by decide) (by decide) (by decide)
  · exact @hspecial _ '\n' _ h₃ rfl (by decide) (by decide) (by decide)
  · exact @hspecial _ '\x0c' _ h₄ rfl (by decide) (by decide) (by decide)
  · exact @hspecial _ '\r' _ h₅ rfl (by decide) (by decide) (by decide)
  · exact @hspecial _ '"' _ h₆ rfl (by decide) (by decide) (by decide)
  · exact @hspecial _ '\\' _ h₇ rfl (by decide) (by decide) (by decide)
  · -- another control character
    have hcontrol : c.toNat ≤ 0x1F := by
      rw [← hcodepoint]
      exact UInt32.le_iff_toNat_le.mp h₈
    have hescape : Json.escapeChar c = ['\\', 'u', '0', '0', Json.hexDigit (c.toNat / 16),
        Json.hexDigit (c.toNat % 16)] := by
      unfold Json.escapeChar
      rw [if_neg (hne h₁ rfl), if_neg (hne h₂ rfl), if_neg (hne h₃ rfl), if_neg (hne h₄ rfl),
        if_neg (hne h₅ rfl), if_neg (hne h₆ rfl), if_neg (hne h₇ rfl), if_pos hcontrol]
    have htext : utf8 "\\u" ++ Utf8.encode (hex4 (e.codepoint.toNat % 2 ^ 16)) =
        Utf8.encode (Json.escapeChar c) := by
      have hzero : e.codepoint.toNat % 2 ^ 16 = c.toNat := by omega
      have hhigh : c.toNat / 16 % 16 = c.toNat / 16 := by omega
      have h₄₀₉₆ : c.toNat / 4096 % 16 = 0 := by omega
      have h₂₅₆ : c.toNat / 256 % 16 = 0 := by omega
      rw [hescape, hzero, hex4, hhigh, h₄₀₉₆, h₂₅₆]
      rfl
    have hlength : (Utf8.encode (Json.escapeChar c)).length ≤ 6 := by
      rw [hescape]
      simp only [Utf8.encode_cons,
        Utf8.encodeChar_ascii (Json.toNat_hexDigit (show c.toNat / 16 < 16 by omega)),
        Utf8.encodeChar_ascii (Json.toNat_hexDigit (show c.toNat % 16 < 16 by omega))]
      exact le_refl 6
    rw [htext]
    obtain ⟨e', hprintf, hadds⟩ := e.snprintf_spec (Utf8.encode (Json.escapeChar c)) (by omega)
    exact ⟨e', _, hprintf, hadds, hlength, by rw [hpend (by omega), List.nil_append]⟩
  · -- as it is
    have hescape : Json.escapeChar c = [c] := by
      have hcontrol : ¬ c.toNat ≤ 0x1F := by
        rw [← hcodepoint]
        exact fun h => h₈ (UInt32.le_iff_toNat_le.mpr h)
      unfold Json.escapeChar
      rw [if_neg (hne h₁ rfl), if_neg (hne h₂ rfl), if_neg (hne h₃ rfl), if_neg (hne h₄ rfl),
        if_neg (hne h₅ rfl), if_neg (hne h₆ rfl), if_neg (hne h₇ rfl), if_neg hcontrol]
    obtain ⟨e', hput, hadds⟩ := e.put_spec byte (by omega)
    refine ⟨e', [byte], hput, hadds, by simp, ?_⟩
    rw [hescape, Utf8.encode_cons, Utf8.encode_nil, List.append_nil, hc]

/-- After it at least 13 bytes are free. -/
theorem flush_spec (e : Escaping) (h : e.bytes ≤ 512) :
    e.flush.written = e.written ∧ e.flush.bytes ≤ 499 ∧ e.flush.state = e.state ∧
      e.flush.codepoint = e.codepoint := by
  unfold flush
  split
  · refine ⟨?_, Nat.zero_le _, rfl, rfl⟩
    simp [written]
  · exact ⟨rfl, by omega, rfl, rfl⟩

end Escaping

/-! ### The invariant -/

/-- The loop has read `read` and written what it should behind `out`: the
escapes of whole characters and the bytes read of the next one. -/
structure Escaped (out read : Bytes) (e : Escaping) (cs : List Char) (pend : Bytes) : Prop where
  read : read = Utf8.encode cs ++ pend
  reading : Reading pend e.state e.codepoint
  written : e.written = out ++ Utf8.encode (cs.flatMap Json.escapeChar) ++ pend
  bytes : e.bytes ≤ 499 + pend.length

/-- What comes of the bytes `s` behind `read`: the loop gets through, or it
stops at the first byte that no text can have there. -/
inductive Outcome (out read s : Bytes) : Except Error Escaping → Prop where
  | through {e : Escaping} {cs : List Char} {pend : Bytes} :
      Escaped out (read ++ s) e cs pend → Outcome out read s (.ok e)
  | stopped {before after : Bytes} {byte : UInt8} : s = before ++ byte :: after →
      Utf8.Starts (read ++ before) → ¬ Utf8.Starts (read ++ before ++ [byte]) →
      Outcome out read s (.error (invalidByte (read ++ before).length byte))

theorem Outcome.cons {out read s : Bytes} {byte : UInt8} {r : Except Error Escaping}
    (h : Outcome out (read ++ [byte]) s r) : Outcome out read (byte :: s) r := by
  cases h with
  | through h =>
      rw [List.append_assoc] at h
      exact .through h
  | @stopped before after byte' hs hstarts hnot =>
      rw [hs]
      have h := @Outcome.stopped out read (byte :: (before ++ byte' :: after)) (byte :: before)
        after byte' rfl (by simpa using hstarts) (by simpa using hnot)
      simpa using h

theorem escape_loop_spec {out read : Bytes} {e : Escaping} {cs : List Char} {pend : Bytes}
    (h : Escaped out read e cs pend) (s : Bytes) :
    Outcome out read s (escape_loop read.length e s) := by
  induction s generalizing read e cs pend with
  | nil => exact .through (by rwa [List.append_nil])
  | cons byte s ih =>
      have hpend := h.reading.length_le
      have hbytes := h.bytes
      have hlength : read.length + 1 = (read ++ [byte]).length := by simp
      obtain ⟨state, codepoint, hdecode, hstep⟩ := decode_step h.reading byte
      rw [escape_loop, hdecode, ok_bind]
      dsimp only
      cases hstep with
      | @accept c _ hc hcodepoint =>
          obtain ⟨e', w, hescape, hadds, hw, hescaped⟩ := @Escaping.escape_spec
            { e with state := UTF8_ACCEPT, codepoint } c pend byte hc hcodepoint (by dsimp only; omega)
          obtain ⟨hflushed, hroom, hstate, hcode⟩ := e'.flush_spec (by
            have hbytes' := hadds.bytes
            dsimp only at hbytes'
            omega)
          rw [if_pos rfl, hescape, ok_bind, hlength]
          refine (@ih _ _ (cs ++ [c]) [] ⟨?_, ?_, ?_, ?_⟩).cons
          · rw [h.read, Utf8.encode_append, Utf8.encode_cons, Utf8.encode_nil, hc]
            simp
          · rw [hstate, hadds.state]
            exact .accepted _
          · have hwritten : ({ e with state := UTF8_ACCEPT, codepoint } : Escaping).written =
                e.written := rfl
            rw [hflushed, hadds.written, hwritten, h.written, List.append_assoc, hescaped,
              List.flatMap_append, Utf8.encode_append, List.append_nil, List.append_assoc]
            simp
          · rw [List.length_nil]
            exact hroom
      | reject hnone =>
          rw [if_neg (by decide), if_pos rfl]
          have hstarts : Utf8.Starts (read ++ []) := by
            rw [List.append_nil, h.read]
            exact Utf8.starts_encode_append.mpr h.reading.starts
          have hnot : ¬ Utf8.Starts (read ++ [] ++ [byte]) := by
            rw [List.append_nil, h.read, List.append_assoc, Utf8.starts_encode_append]
            exact h.reading.not_starts hnone
          have hstopped := @Outcome.stopped out read (byte :: s) [] s byte rfl hstarts hnot
          rwa [List.append_nil] at hstopped
      | more haccept hreject hreading =>
          obtain ⟨e', hput, hadds⟩ := Escaping.put_spec { e with state, codepoint } byte
            (by dsimp only; omega)
          rw [if_neg haccept, if_neg hreject, hput, ok_bind, hlength]
          refine (@ih _ _ cs (pend ++ [byte]) ⟨?_, ?_, ?_, ?_⟩).cons
          · rw [h.read, List.append_assoc]
          · rw [hadds.state, hadds.codepoint]
            exact hreading
          · have hwritten : ({ e with state, codepoint } : Escaping).written = e.written := rfl
            rw [hadds.written, hwritten, h.written, List.append_assoc, List.append_assoc]
          · rw [hadds.bytes, List.length_append]
            dsimp only
            omega

/-! ### The outcome -/

theorem escaped_start (o : Bytes) (string_buffer : Vector UInt8 512) :
    Escaped o [] ⟨o, string_buffer, 0, UTF8_ACCEPT, 0⟩ [] [] :=
  ⟨rfl, .accepted 0, by simp [Escaping.written], Nat.zero_le _⟩

/-- Between two characters what is in the buffer is written. -/
theorem Escaped.finish {out read : Bytes} {e : Escaping} {cs : List Char}
    (h : Escaped out read e cs []) : e.state = UTF8_ACCEPT ∧
      (if 0 < e.bytes then e.o ++ e.string_buffer.toList.take e.bytes else e.o) =
        out ++ Utf8.encode (cs.flatMap Json.escapeChar) := by
  have hwritten := h.written
  rw [List.append_nil] at hwritten
  refine ⟨?_, ?_⟩
  · have hreading := h.reading
    generalize e.state = state at hreading
    cases hreading with
    | accepted => rfl
  · rw [← hwritten]
    split
    · rfl
    next hbytes =>
      have hzero : e.bytes = 0 := Nat.eq_zero_of_not_pos hbytes
      simp [Escaping.written, hzero]

/-- In a text nothing of a character is left behind the last one. -/
theorem Reading.eq_nil {pend : Bytes} {state : UInt8} {codep : UInt32} {cs cs' : List Char}
    (h : Reading pend state codep) (htext : Utf8.encode cs ++ pend = Utf8.encode cs') :
    pend = [] := by
  obtain ⟨rest, hrest⟩ := Utf8.exists_encode_of_append htext
  cases rest with
  | nil => exact hrest
  | cons c rest =>
      rw [Utf8.encode_cons] at hrest
      exact absurd ⟨_, hrest.symm⟩ (h.not_encodeChar_prefix c)

/-- A text is written escaped.  Anything else is an exception, which names
the index of the first byte that no text has there, or the last byte of what
is only the start of a text.  So the buffer never overflows, and no assertion
of the decoder fails. -/
theorem dump_escaped_spec (o : Bytes) (string_buffer : Vector UInt8 512) (s : Bytes) :
    (∃ cs string_buffer', s = Utf8.encode cs ∧ dump_escaped o string_buffer s =
        .ok (o ++ Utf8.encode (cs.flatMap Json.escapeChar), string_buffer')) ∨
      (∃ before byte after, s = before ++ byte :: after ∧ Utf8.Starts before ∧
        ¬ Utf8.Starts (before ++ [byte]) ∧
        dump_escaped o string_buffer s = .error (invalidByte before.length byte)) ∨
      ∃ before last, s = before ++ [last] ∧ Utf8.Starts s ∧ (∀ cs, s ≠ Utf8.encode cs) ∧
        dump_escaped o string_buffer s = .error (incompleteString last) := by
  have houtcome := escape_loop_spec (escaped_start o string_buffer) s
  rw [List.length_nil] at houtcome
  unfold dump_escaped
  generalize escape_loop 0 ⟨o, string_buffer, 0, UTF8_ACCEPT, 0⟩ s = r at houtcome
  cases houtcome with
  | @stopped before after byte hs hstarts hnot =>
      right; left
      exact ⟨before, byte, after, hs, hstarts, hnot, rfl⟩
  | @through e cs pend h =>
      have hread : s = Utf8.encode cs ++ pend := h.read
      have hreading := h.reading
      rw [ok_bind]
      generalize hstate : e.state = state at hreading
      cases hreading with
      | accepted codepoint =>
          left
          obtain ⟨-, hwritten⟩ := h.finish
          refine ⟨cs, e.string_buffer, by rw [hread, List.append_nil], ?_⟩
          rw [if_pos rfl, hwritten]
          rfl
      | @within b added _ _ _ hb hranges hmatched hdue hle hcodepoint =>
          right; right
          have hne : s ≠ [] := by
            rw [hread]
            simp
          have haccept : state ≠ UTF8_ACCEPT := by
            rintro rfl
            exact hdue rfl
          refine ⟨s.dropLast, s.getLast hne, (List.dropLast_append_getLast hne).symm, ?_, ?_, ?_⟩
          · rw [hread]
            exact Utf8.starts_encode_append.mpr h.reading.starts
          · intro cs' hcs'
            exact absurd (h.reading.eq_nil (hread.symm.trans hcs')) (List.cons_ne_nil _ _)
          · rw [if_neg haccept, List.getLast?_eq_some_getLast hne]
            rfl

/-- The bytes of a text are written escaped. -/
theorem dump_escaped_encode (o : Bytes) (string_buffer : Vector UInt8 512) (cs : List Char) :
    ∃ string_buffer', dump_escaped o string_buffer (Utf8.encode cs) =
      .ok (o ++ Utf8.encode (cs.flatMap Json.escapeChar), string_buffer') := by
  have houtcome := escape_loop_spec (escaped_start o string_buffer) (Utf8.encode cs)
  rw [List.length_nil] at houtcome
  unfold dump_escaped
  generalize escape_loop 0 ⟨o, string_buffer, 0, UTF8_ACCEPT, 0⟩ (Utf8.encode cs) = r at houtcome
  cases houtcome with
  | @stopped before after byte hs hstarts hnot =>
      refine absurd ⟨cs, after, ?_⟩ hnot
      rw [List.nil_append, hs, List.append_assoc]
      rfl
  | @through e cs' pend h =>
      have hread : Utf8.encode cs = Utf8.encode cs' ++ pend := h.read
      obtain rfl := h.reading.eq_nil hread.symm
      rw [List.append_nil] at hread
      obtain rfl := Utf8.encode_injective hread
      obtain ⟨hstate, hwritten⟩ := h.finish
      refine ⟨e.string_buffer, ?_⟩
      rw [ok_bind, if_pos hstate, hwritten]
      rfl

end Serializer

end SyncServiceUi
